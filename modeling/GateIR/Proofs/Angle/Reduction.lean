import GateIR.Proofs.Angle.Doubles
import GateIR.Proofs.Binary64.Value

/-!
# Reduction is the rounded residue

The residue of a number is its place in `[0, 2)`. It is exact, and `Angle.reduce` rounds it once.

**Theorem (`reduce_eq_rounded_residue`).** A finite double is reduced to the one double nearest to
its residue, or to zero where that is `2`. So a reduced number is not reduced further, and doubles
that differ by an even integer are reduced to the same bits, whatever their signs.

The same bits come out of double arithmetic, which adds `2` to a negative remainder and rounds then.
For a number without sign the remainder is exact, and for both signs there is one rounding at most.
A number without sign is therefore reduced without any rounding (`value_coefficient_reduce`), and its
minus may be taken before the reduction or after it (`reduce_neg`).
-/

namespace GateIR.Angle

open Binary64 (IsNearest ofSignBits ofUnits nearestBits unitsOfBits oneUnits infinityBits two)

variable {f g : Binary64} {m : Nat} {n : Int}

/-! ## The residue -/

/-- The distance to the last even integer that is not larger. -/
def residue (q : ℚ) : ℚ := q - 2 * ⌊q / 2⌋

theorem residue_nonneg (q : ℚ) : 0 ≤ residue q := by
  have := Int.floor_le (q / 2)
  rw [residue]
  linarith

theorem residue_lt_two (q : ℚ) : residue q < 2 := by
  have := Int.lt_floor_add_one (q / 2)
  rw [residue]
  linarith

/-- The residue of a double, in units. -/
theorem residue_value (h : f.units? = some n) :
    residue f.value = (n % (2 * oneUnits : Nat) : Int) / oneUnits := by
  have hone := Binary64.cast_oneUnits_pos
  have hfloor : ⌊(n : ℚ) / oneUnits / 2⌋ = n / (2 * oneUnits : Nat) := by
    rw [div_div, mul_comm, ← Nat.cast_ofNat, ← Nat.cast_mul]
    exact Rat.floor_intCast_div_natCast n _
  rw [residue, Binary64.value_of_units? h, hfloor, Int.emod_def]
  push_cast
  field_simp

theorem value_two : two.value = 2 := by
  rw [Binary64.value_of_units? Binary64.units?_two, Int.cast_natCast, Nat.cast_mul, Nat.cast_ofNat,
    mul_div_cancel_right₀ _ Binary64.cast_oneUnits_pos.ne']

/-! ## The rounded residue -/

theorem ofSignBits_eq_two_iff (h : m ≤ two.bits.toNat) :
    ofSignBits false m = two ↔ m = two.bits.toNat := by
  constructor
  · intro heq
    rw [← heq, Binary64.toNat_ofSignBits false (h.trans_lt (by decide))]
    rfl
  · rintro rfl
    exact Binary64.ofSignBits_toNat two

/-- A coefficient in `[0, 2]` is canonical, or becomes zero. -/
theorem coefficient_ofCoefficient_of_le (h : m ≤ two.bits.toNat) :
    (ofCoefficient (ofSignBits false m)).coefficient =
      if ofSignBits false m = two then .zero else ofSignBits false m := by
  have hbits : (ofSignBits false m).bits < two.bits ↔ m < two.bits.toNat := by
    rw [UInt64.lt_iff_toNat_lt, Binary64.toNat_ofSignBits false (h.trans_lt (by decide))]
    rfl
  simp only [ofCoefficient, hbits, ofSignBits_eq_two_iff h]
  rcases h.lt_or_eq with hlt | heq
  · rw [dif_pos hlt, if_neg hlt.ne]
  · rw [dif_neg heq.not_lt, if_pos heq]
    rfl

theorem exists_rounded_residue (h : f.isFinite = true) :
    ∃ r : Binary64, r.IsNearest (residue f.value) ∧ r.isNegative = false ∧
      (reduce f).coefficient = if r = two then .zero else r := by
  obtain ⟨n, hn⟩ := Binary64.exists_units? h
  have hpos : (0 : Int) < (2 * oneUnits : Nat) := by
    have := Binary64.oneUnits_pos
    omega
  obtain ⟨k, hk⟩ := Int.eq_ofNat_of_zero_le (Int.emod_nonneg n hpos.ne')
  have hbits : nearestBits k 1 ≤ two.bits.toNat := by
    refine Binary64.nearestBits_le (by decide) Nat.one_pos ?_
    have hlt := Int.emod_lt_of_pos n hpos
    rw [hk] at hlt
    rw [unitsOfBits_two, Nat.mul_one]
    exact_mod_cast hlt.le
  refine ⟨ofUnits k, ?_, ?_, ?_⟩
  · have hresidue : residue f.value = (k : Int) / oneUnits := by rw [residue_value hn, hk]
    rw [hresidue]
    refine Binary64.isNearest_ofUnits (e := 1) (by decide) (by decide) ?_
    rw [← hresidue, abs_of_nonneg (residue_nonneg _), zpow_one]
    exact (residue_lt_two _).le
  · exact Binary64.isNegative_ofUnits_natCast k
  · have hreduce : reduce f = ofCoefficient (ofUnits k) := by rw [reduce, hn, ← hk]
    rw [hreduce, Binary64.ofUnits_natCast]
    exact coefficient_ofCoefficient_of_le hbits

theorem reduce_of_not_isFinite (h : f.isFinite = false) : reduce f = zero := by
  have hnone : f.units? = none := by
    rw [Binary64.units?, h]
    rfl
  rw [reduce, hnone]

/-- Doubles that differ by an even integer have the same residue. -/
theorem reduce_eq_of_sub_eq {k : ℤ} (hf : f.isFinite = true) (hg : g.isFinite = true)
    (h : f.value - g.value = 2 * k) : reduce f = reduce g := by
  obtain ⟨m, hm⟩ := Binary64.exists_units? hf
  obtain ⟨n, hn⟩ := Binary64.exists_units? hg
  have hone := Binary64.cast_oneUnits_pos
  have hunits : m = n + (2 * oneUnits : Nat) * k := by
    rw [Binary64.value_of_units? hm, Binary64.value_of_units? hn, ← sub_div,
      div_eq_iff hone.ne'] at h
    have hcast : (m : ℚ) = (n + (2 * oneUnits : Nat) * k : Int) := by
      push_cast
      linear_combination h
    exact_mod_cast hcast
  rw [reduce, reduce, hm, hn]
  dsimp only
  rw [hunits, Int.add_mul_emod_self_left]

/-! ## Exact residues -/

/-- The residue of a number without sign is a double, which is not rounded. -/
theorem value_coefficient_reduce (h : f.isFinite = true) (hsign : f.isNegative = false) :
    (reduce f).coefficient.value = residue f.value := by
  obtain ⟨s, hle, hs⟩ := Binary64.exists_residue f.magnitude
  have hfin : s < infinityBits := hle.trans_lt (Binary64.isFinite_iff.1 h)
  have hunits : f.units? = some (unitsOfBits f.magnitude : Int) := by
    rw [Binary64.units?, h, hsign]
    rfl
  have hvalue : (ofSignBits false s).value = residue f.value := by
    rw [Binary64.value_ofSignBits false hfin, residue_value hunits, ← Int.natCast_emod, ← hs]
    rfl
  obtain ⟨r, hnearest, -, hcoefficient⟩ := exists_rounded_residue h
  rw [← hvalue] at hnearest
  have hr : r.value = residue f.value :=
    (hnearest.value_eq (Binary64.isFinite_ofSignBits false hfin)).trans hvalue
  have htwo : r ≠ two := by
    rintro rfl
    exact (residue_lt_two f.value).ne (hr.symm.trans value_two)
  rw [hcoefficient, if_neg htwo, hr]

/-! ## Negation -/

theorem value_coefficient (a : Angle) : a.coefficient.value = a.units / oneUnits :=
  Binary64.value_of_units? a.units?_coefficient

/-- The exact negation of a coefficient is a double, whose residue the negation of the angle is. -/
theorem exists_neg (a : Angle) : ∃ g : Binary64, g.isFinite = true ∧
    g.value = -a.coefficient.value ∧ -a = reduce g := by
  have hunits : (ofUnits (-a.units : Int)).units? = some (-a.units : Int) :=
    Binary64.units?_ofUnits (Binary64.units?_neg a.units?_coefficient)
  refine ⟨ofUnits (-a.units : Int), Binary64.isFinite_of_units? hunits, ?_, rfl⟩
  rw [value_coefficient, Binary64.value_of_units? hunits, Int.cast_neg, neg_div, Int.cast_natCast]

/-- A number may be negated before its reduction or after it. -/
theorem reduce_neg (h : f.isFinite = true) (hsign : f.isNegative = false) :
    reduce f.neg = -reduce f := by
  obtain ⟨g, hg, hvalue, hneg⟩ := exists_neg (reduce f)
  rw [hneg]
  refine reduce_eq_of_sub_eq (k := -⌊f.value / 2⌋) (Binary64.isFinite_neg h) hg ?_
  rw [Binary64.value_neg h, hvalue, value_coefficient_reduce h hsign, residue]
  push_cast
  ring

/-! ## Reduction -/

/-- **Reduction is the correctly rounded residue**, which is computed in double arithmetic too. It
changes nothing a second time, and is periodic. -/
theorem reduce_eq_rounded_residue (f : Binary64) :
    (f.isFinite = false → (reduce f).coefficient = .zero) ∧
      (f.isFinite = true → ∃ r : Binary64,
        (∀ s : Binary64, s.IsNearest (f.value - 2 * ⌊f.value / 2⌋) ∧ s.isNegative = false ↔ s = r) ∧
          (reduce f).coefficient = if r = two then .zero else r) ∧
      (reduce f).coefficient = f.reduceTwo ∧
      reduce (reduce f).coefficient = reduce f ∧
      ∀ (g : Binary64) (k : ℤ), f.isFinite = true → g.isFinite = true →
        f.value - g.value = 2 * k → reduce f = reduce g := by
  refine ⟨?_, ?_, coefficient_reduce f, (reduce f).reduce_coefficient, ?_⟩
  · intro h
    rw [reduce_of_not_isFinite h]
    rfl
  · intro h
    obtain ⟨r, hnearest, hsign, hcoefficient⟩ := exists_rounded_residue h
    refine ⟨r, fun s => ⟨?_, ?_⟩, hcoefficient⟩
    · intro hs
      exact hs.1.eq hnearest hs.2 hsign
    · rintro rfl
      exact ⟨hnearest, hsign⟩
  · intro g k hf hg h
    exact reduce_eq_of_sub_eq hf hg h

/-- `-2^-60`. -/
def slightlyNegative : Binary64 := ⟨0xbc30000000000000⟩

/-- `2^52 + 1`. -/
def largeOdd : Binary64 := ⟨0x4330000000000001⟩

/-- `-3`. -/
def negativeOdd : Binary64 := ⟨0xc008000000000000⟩

/-- The residue of a slightly negative number is rounded to `2`. Odd numbers of both signs become
`1`. -/
theorem reduce_eq_rounded_residue_bothSigns :
    (Binary64.infinity.isFinite = false ∧ (reduce .infinity).coefficient = .zero) ∧
      (slightlyNegative.isFinite = true ∧ (reduce slightlyNegative).coefficient = .zero ∧
        ∃ r : Binary64, (∀ s : Binary64,
          s.IsNearest (slightlyNegative.value - 2 * ⌊slightlyNegative.value / 2⌋) ∧
            s.isNegative = false ↔ s = r) ∧
          (reduce slightlyNegative).coefficient = if r = two then .zero else r) ∧
      largeOdd.isFinite = true ∧ negativeOdd.isFinite = true ∧
        largeOdd.value - negativeOdd.value = 2 * (2251799813685250 : ℤ) ∧
        reduce largeOdd = reduce negativeOdd ∧ (reduce negativeOdd).coefficient = .one := by
  have hinfinite : Binary64.infinity.isFinite = false := by decide
  have hslightly : slightlyNegative.isFinite = true := by decide
  have hlarge : largeOdd.isFinite = true := by decide
  have hnegative : negativeOdd.isFinite = true := by decide
  have hdifference : largeOdd.value - negativeOdd.value = 2 * (2251799813685250 : ℤ) := by
    decide +kernel
  obtain ⟨hzero, -⟩ := reduce_eq_rounded_residue .infinity
  obtain ⟨-, hrounded, -⟩ := reduce_eq_rounded_residue slightlyNegative
  obtain ⟨-, -, -, -, hperiodic⟩ := reduce_eq_rounded_residue largeOdd
  exact ⟨⟨hinfinite, hzero hinfinite⟩, ⟨hslightly, by decide +kernel, hrounded hslightly⟩, hlarge,
    hnegative, hdifference, hperiodic _ _ hlarge hnegative hdifference, by decide +kernel⟩

end GateIR.Angle

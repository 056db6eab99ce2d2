import GateIR.Proofs.Angle
import GateIR.Proofs.Binary64.Arithmetic

/-!
# Angles in double arithmetic

Angles compute on exact numbers of units. Double arithmetic on their coefficients gives the same
bits: reduction is the Euclidean remainder by `2` with its corner cases folded away
(`coefficient_reduce`), and every operation on angles is the operation on doubles, reduced.

The remainder of a negative number is moved up by `2`, and that sum is rounded, so it may be `2`
itself. A negative multiple of `2` has the remainder `-0`, which is not moved.
-/

namespace GateIR

namespace Binary64

variable {x : Binary64} {m : Nat}

/-! ## Remainders by two -/

/-- The remainder by `2`, moved up by `2` when it is negative. -/
def remTwo (x : Binary64) : Binary64 :=
  let r := x.rem two
  if r < zero then r.add two else r

/-- Numbers that are at least `2` and zeros of either sign become `+0`. -/
def foldTwo (r : Binary64) : Binary64 := if two ≤ r ∨ r.Equals zero then zero else r

/-- A double taken to the circle in double arithmetic. -/
def reduceTwo (x : Binary64) : Binary64 := if x.isFinite then foldTwo x.remTwo else zero

theorem rank_zero : zero.rank = 0 := by decide

theorem units?_of_bits_lt (h : x.bits.toNat < infinityBits) :
    x.units? = some (unitsOfBits x.bits.toNat : Int) := by
  rw [← ofSignBits_toNat x, units?_ofSignBits false h, ofSignBits_toNat]
  rfl

theorem units?_two : two.units? = some ((2 * oneUnits : Nat) : Int) := by
  rw [units?_of_bits_lt (by decide), Angle.unitsOfBits_two]

theorem units?_pi : pi.units? = some (unitsOfBits pi.bits.toNat : Int) :=
  units?_of_bits_lt (by decide)

/-- The remainder by `2` of a magnitude is a magnitude. -/
theorem exists_residue (m : Nat) : ∃ r ≤ m, unitsOfBits r = unitsOfBits m % (2 * oneUnits) := by
  obtain ⟨n, -, hn⟩ := exists_oneUnits
  rw [hn, ← pow_succ']
  exact exists_unitsOfBits_mod m (n + 1)

theorem rem_two (negative : Bool) (hfin : m < infinityBits) :
    (ofSignBits negative m).rem two =
      ofSignBits negative (nearestBits (unitsOfBits m % (2 * oneUnits)) 1) := by
  have hne : ((2 * oneUnits : Nat) : Int) ≠ 0 := by
    have := oneUnits_pos
    omega
  rw [rem, units?_ofSignBits negative hfin, units?_two]
  dsimp only
  rw [if_neg hne, isNegative_ofSignBits negative (hfin.trans (by decide)), Int.natAbs_natCast]
  cases negative <;> simp

theorem ofUnits_natCast (n : Nat) : ofUnits (n : Int) = ofSignBits false (nearestBits n 1) :=
  ofRatio_natCast n 1

theorem isNegative_ofUnits_natCast (n : Nat) : (ofUnits (n : Int)).isNegative = false := by
  rw [ofUnits_natCast]
  exact isNegative_ofSignBits false (nearestBits_le_infinityBits.trans_lt (by decide))

/-- The remainder of a number without sign is not moved. -/
theorem remTwo_of_nonneg (hfin : m < infinityBits) :
    remTwo (ofSignBits false m) = ofUnits ((unitsOfBits m : Int) % (2 * oneUnits : Nat)) := by
  have hnot : ¬ ofSignBits false (nearestBits (unitsOfBits m % (2 * oneUnits)) 1) < zero := by
    intro hlt
    have hrank := hlt.2.2
    rw [rank_ofSignBits false (nearestBits_le_infinityBits.trans_lt (by decide)),
      rank_zero] at hrank
    exact absurd hrank (not_lt.2 (Int.natCast_nonneg _))
  rw [remTwo, rem_two false hfin, if_neg hnot, ← Int.natCast_emod, ofUnits_natCast]

theorem neg_emod_eq {u q : Nat} (hq : 0 < q) (h : u % q ≠ 0) :
    -(u : Int) % q = (q : Int) - (u % q : Nat) := by
  have hlt := Nat.mod_lt u hq
  have hdiv : (q : Int) * (u / q : Nat) + (u % q : Nat) = u := by exact_mod_cast Nat.div_add_mod u q
  have hsum : -(u : Int) = ((q : Int) - (u % q : Nat)) + q * (-(u / q : Nat) - 1) := by
    linear_combination hdiv
  rw [hsum, Int.add_mul_emod_self_left, Int.emod_eq_of_lt (by omega) (by omega)]

/-- The remainder of a negative number is exact, and is moved. -/
theorem remTwo_of_neg (hfin : m < infinityBits) (hrem : unitsOfBits m % (2 * oneUnits) ≠ 0) :
    remTwo (ofSignBits true m) = ofUnits (-(unitsOfBits m : Int) % (2 * oneUnits : Nat)) := by
  obtain ⟨r, hle, hr⟩ := exists_residue m
  have hrfin : r < infinityBits := hle.trans_lt hfin
  have hpos : 0 < r := by
    apply Nat.pos_of_ne_zero
    rintro rfl
    exact hrem hr.symm
  have hlt : ofSignBits true r < zero := by
    refine ⟨isNaN_ofSignBits true hrfin.le, by decide, ?_⟩
    rw [rank_ofSignBits true (hrfin.trans (by decide)), rank_zero]
    simpa using hpos
  have htwo : 0 < 2 * oneUnits := by
    have := oneUnits_pos
    omega
  have hmod := Nat.mod_lt (unitsOfBits m) htwo
  have hsum : -(unitsOfBits r : Int) + (2 * oneUnits : Nat) =
      (2 * oneUnits : Nat) - (unitsOfBits m % (2 * oneUnits) : Nat) := by
    rw [hr]
    ring
  rw [remTwo, rem_two true hfin, ← hr, nearestBits_unitsOfBits hrfin, if_pos hlt,
    neg_emod_eq htwo hrem, add, units?_ofSignBits true hrfin, units?_two]
  dsimp only
  rw [if_pos rfl, hsum, if_neg (by omega)]

/-- The remainder of the largest negative number is rounded to `2`. -/
example : remTwo ⟨0x8000000000000001⟩ = two := by decide +kernel

/-- The remainder of a negative multiple of `2` has a sign. -/
theorem remTwo_of_neg_of_dvd (hfin : m < infinityBits) (hrem : unitsOfBits m % (2 * oneUnits) = 0) :
    remTwo (ofSignBits true m) = negativeZero := by
  rw [remTwo, rem_two true hfin, hrem, nearestBits_zero Nat.one_pos]
  decide

end Binary64

namespace Angle

open Binary64 (ofSignBits ofUnits infinityBits signBit two foldTwo unitsOfBits oneUnits)

variable {x y : Binary64} {m : Nat}

/-! ## Reduction -/

/-- Folding is what makes a coefficient canonical. -/
theorem coefficient_ofCoefficient (h : m ≤ infinityBits) :
    (ofCoefficient (ofSignBits false m)).coefficient = foldTwo (ofSignBits false m) := by
  have hsign : m < signBit := h.trans_lt (by decide)
  have hrank : (ofSignBits false m).rank = m := Binary64.rank_ofSignBits false hsign
  have hnan := Binary64.isNaN_ofSignBits false h
  have htwo : two ≤ ofSignBits false m ↔ two.bits.toNat ≤ m := by
    have hrankTwo : two.rank = (two.bits.toNat : Int) := by decide
    change two.isNaN = false ∧ _ ∧ two.rank ≤ _ ↔ _
    rw [hrank, hrankTwo, Int.ofNat_le]
    exact ⟨fun hle => hle.2.2, fun hle => ⟨by decide, hnan, hle⟩⟩
  have hzero : (ofSignBits false m).Equals .zero ↔ m = 0 := by
    rw [Binary64.Equals, hrank, Binary64.rank_zero, Int.natCast_eq_zero]
    exact ⟨fun heq => heq.2.2, fun heq => ⟨hnan, by decide, heq⟩⟩
  have hbits : (ofSignBits false m).bits < two.bits ↔ m < two.bits.toNat := by
    rw [UInt64.lt_iff_toNat_lt, Binary64.toNat_ofSignBits false hsign]
    rfl
  simp only [ofCoefficient, foldTwo, htwo, hzero, hbits]
  by_cases hlt : m < two.bits.toNat
  · rw [dif_pos hlt]
    by_cases hm : m = 0
    · subst hm
      rfl
    · rw [if_neg (by omega)]
  · rw [dif_neg hlt, if_pos (.inl (not_lt.1 hlt))]
    rfl

/-- A residue of units is rounded and folded. -/
theorem coefficient_ofCoefficient_ofUnits (n : Nat) :
    (ofCoefficient (ofUnits n)).coefficient = foldTwo (ofUnits n) := by
  rw [Binary64.ofUnits_natCast]
  exact coefficient_ofCoefficient Binary64.nearestBits_le_infinityBits

/-- **Reduction is the folded remainder by `2`.** -/
theorem coefficient_reduce (x : Binary64) : (reduce x).coefficient = x.reduceTwo := by
  rw [Binary64.reduceTwo]
  split
  · next hfin =>
    have hmag : x.magnitude < infinityBits := of_decide_eq_true hfin
    have hpos : (0 : Int) < (2 * oneUnits : Nat) := by
      have := Binary64.oneUnits_pos
      omega
    have hround (n : Int) : (ofCoefficient (ofUnits (n % (2 * oneUnits : Nat)))).coefficient =
        foldTwo (ofUnits (n % (2 * oneUnits : Nat))) := by
      obtain ⟨k, hk⟩ := Int.eq_ofNat_of_zero_le (Int.emod_nonneg n hpos.ne')
      rw [hk]
      exact coefficient_ofCoefficient_ofUnits k
    rw [← Binary64.ofSignBits_magnitude x, reduce, Binary64.units?_ofSignBits _ hmag]
    dsimp only
    rw [hround]
    cases x.isNegative with
    | false => rw [Binary64.remTwo_of_nonneg hmag]; rfl
    | true =>
      by_cases hrem : unitsOfBits x.magnitude % (2 * oneUnits) = 0
      · have hdvd : ((2 * oneUnits : Nat) : Int) ∣ -(unitsOfBits x.magnitude : Int) :=
          (Int.natCast_dvd_natCast.2 (Nat.dvd_of_mod_eq_zero hrem)).neg_right
        rw [Binary64.remTwo_of_neg_of_dvd hmag hrem, if_pos rfl, Int.emod_eq_zero_of_dvd hdvd]
        decide
      · rw [Binary64.remTwo_of_neg hmag hrem]; rfl
  · next hfin =>
    rw [reduce, Binary64.units?, if_neg hfin]
    rfl

/-- Only the value of a number counts. -/
theorem reduce_congr (h : x.units? = y.units?) : reduce x = reduce y := by
  rw [reduce, h, reduce]

/-! ## Operations -/

variable (a b : Angle)

/-- The coefficient of an angle in radians is the quotient by `π`. -/
theorem coefficient_ofRadians (r : Binary64) :
    (ofRadians r).coefficient = (r.div .pi).reduceTwo := by
  rw [← coefficient_reduce, ofRadians]
  refine congrArg coefficient ?_
  cases h : r.units? with
  | none =>
    have hnone : (r.div .pi).units? = none := by
      rw [Binary64.div, h, Binary64.units?_pi]
      dsimp only
      split
      · exact h
      · exact Binary64.units?_infinity _
    rw [reduce, hnone]
  | some n =>
    refine reduce_congr (Eq.symm ?_)
    exact Binary64.units?_div h Binary64.units?_pi (by decide +kernel) (by decide)

theorem coefficient_add : (a + b).coefficient = (a.coefficient.add b.coefficient).reduceTwo := by
  rw [← coefficient_reduce]
  exact congrArg coefficient
    (reduce_congr (Binary64.units?_add a.units?_coefficient b.units?_coefficient).symm)

theorem coefficient_sub : (a - b).coefficient = (a.coefficient.sub b.coefficient).reduceTwo := by
  rw [← coefficient_reduce]
  have hneg := Binary64.units?_neg b.units?_coefficient
  exact congrArg coefficient (reduce_congr (Binary64.units?_add a.units?_coefficient hneg).symm)

theorem coefficient_neg : (-a).coefficient = a.coefficient.neg.reduceTwo := by
  rw [← coefficient_reduce]
  have hneg := Binary64.units?_neg a.units?_coefficient
  exact congrArg coefficient (reduce_congr ((Binary64.units?_ofUnits hneg).trans hneg.symm))

/-- An angle in radians is its coefficient times `π`. -/
theorem radians_eq_mul : a.radians = a.coefficient.mul .pi := by
  rw [radians, Binary64.mul, units?_coefficient, Binary64.units?_pi, a.isNegative_coefficient]
  dsimp only
  rw [Binary64.ofRatio, decide_eq_false (by omega), Int.natAbs_natCast, Int.natAbs_natCast,
    Int.natAbs_natCast]
  rfl

end Angle

end GateIR

import GateIR.Proofs.Binary64.Arithmetic
import Mathlib.Data.Rat.Floor

/-!
# The nearest double

A finite double is an exact rational number, its value. `IsNearest q x` says that `x` is a double
nearest to `q`: no finite double is nearer, and the last bit of `x` is zero where another one is as
near.

**Rounding (`isNearest_ofRatio`).** A ratio of units is rounded to a nearest double.

**Uniqueness (`IsNearest.eq`).** There is at most one nearest double without a sign. Two numbers
that are equally near have no double between them, so one of them is odd.

**Error (`IsNearest.abs_sub_le`).** Below `2^(e + 53)` every multiple of `2^e` is a double, so the
nearest double is at most half of that away.
-/

namespace GateIR.Binary64

variable {m k num den : Nat} {n : Int} {q : ℚ} {x y : Binary64}

/-! ## Values -/

/-- The value of the magnitude with the given bits. -/
def valueOfBits (m : Nat) : ℚ := unitsOfBits m / oneUnits

/-- The exact number that a finite double is. -/
def value (x : Binary64) : ℚ :=
  if x.isNegative then -valueOfBits x.magnitude else valueOfBits x.magnitude

theorem cast_oneUnits_pos : (0 : ℚ) < oneUnits := Nat.cast_pos.2 oneUnits_pos

theorem valueOfBits_zero : valueOfBits 0 = 0 := by
  rw [valueOfBits, unitsOfBits_zero, Nat.cast_zero, zero_div]

theorem valueOfBits_strictMono : StrictMono valueOfBits := fun _ _ h =>
  div_lt_div_of_pos_right (Nat.cast_lt.2 (unitsOfBits_strictMono h)) cast_oneUnits_pos

theorem valueOfBits_nonneg (m : Nat) : 0 ≤ valueOfBits m :=
  valueOfBits_zero.symm.trans_le (valueOfBits_strictMono.monotone (Nat.zero_le m))

theorem value_ofSignBits (negative : Bool) (h : m < infinityBits) :
    (ofSignBits negative m).value = if negative then -valueOfBits m else valueOfBits m := by
  have hsign : m < signBit := h.trans (by decide)
  rw [value, isNegative_ofSignBits negative hsign, magnitude_ofSignBits negative hsign]

theorem isFinite_ofSignBits (negative : Bool) (h : m < infinityBits) :
    (ofSignBits negative m).isFinite = true := by
  rw [isFinite_iff, magnitude_ofSignBits negative (h.trans (by decide))]
  exact h

theorem value_of_units? (h : x.units? = some n) : x.value = n / oneUnits := by
  obtain ⟨negative, m, hm, rfl, rfl⟩ := exists_ofSignBits h
  rw [value_ofSignBits negative hm, valueOfBits]
  cases negative <;> simp [neg_div]

theorem abs_value (x : Binary64) : |x.value| = valueOfBits x.magnitude := by
  rw [value, ← abs_of_nonneg (valueOfBits_nonneg x.magnitude)]
  cases x.isNegative <;> simp

theorem exists_units? (h : x.isFinite = true) : ∃ n, x.units? = some n := by
  rw [units?, if_pos h]
  exact ⟨_, rfl⟩

theorem isFinite_of_units? (h : x.units? = some n) : x.isFinite = true := by
  obtain ⟨negative, m, hm, rfl, -⟩ := exists_ofSignBits h
  exact isFinite_ofSignBits negative hm

theorem neg_eq_ofSignBits (h : x.isFinite = true) :
    x.neg = ofSignBits (!x.isNegative) x.magnitude := by
  have hsign : x.magnitude < signBit := (isFinite_iff.1 h).trans (by decide)
  conv_lhs => rw [← ofSignBits_magnitude x]
  exact neg_ofSignBits _ hsign

theorem isFinite_neg (h : x.isFinite = true) : x.neg.isFinite = true := by
  rw [neg_eq_ofSignBits h]
  exact isFinite_ofSignBits _ (isFinite_iff.1 h)

theorem value_neg (h : x.isFinite = true) : x.neg.value = -x.value := by
  rw [neg_eq_ofSignBits h, value_ofSignBits _ (isFinite_iff.1 h), value]
  cases x.isNegative <;> simp

theorem magnitude_neg (h : x.isFinite = true) : x.neg.magnitude = x.magnitude := by
  rw [neg_eq_ofSignBits h]
  exact magnitude_ofSignBits _ ((isFinite_iff.1 h).trans (by decide))

/-! ## Nearest doubles -/

/-- No finite double is nearer, and where another one is as near the last bit is zero. -/
structure IsNearest (q : ℚ) (x : Binary64) : Prop where
  finite : x.isFinite
  closest : ∀ y : Binary64, y.isFinite → |x.value - q| ≤ |y.value - q|
  even : ∀ y : Binary64, y.isFinite → y.value ≠ x.value → |y.value - q| = |x.value - q| →
    x.magnitude % 2 = 0

/-- The larger of two numbers is nearer to what lies above their midpoint. -/
theorem abs_sub_le_abs_sub_left_iff {a b t : ℚ} (h : a < b) :
    |b - t| ≤ |a - t| ↔ a + b ≤ 2 * t := by
  rw [← sq_le_sq]
  constructor <;> intro h' <;> nlinarith

/-- The smaller of two numbers is nearer to what lies below their midpoint. -/
theorem abs_sub_le_abs_sub_right_iff {a b t : ℚ} (h : a < b) :
    |a - t| ≤ |b - t| ↔ 2 * t ≤ a + b := by
  rw [← sq_le_sq]
  constructor <;> intro h' <;> nlinarith

/-- No double lies between a magnitude and the one before it. -/
theorem value_le_of_lt (h : y.value < valueOfBits m) : y.value ≤ valueOfBits (m - 1) := by
  rw [value] at h ⊢
  cases hsign : y.isNegative with
  | true => exact (neg_nonpos.2 (valueOfBits_nonneg _)).trans (valueOfBits_nonneg _)
  | false =>
    rw [hsign] at h
    exact valueOfBits_strictMono.monotone
      (Nat.le_sub_one_of_lt (valueOfBits_strictMono.lt_iff_lt.1 h))

/-- No double lies between a magnitude and the one after it. -/
theorem le_value_of_lt (h : valueOfBits m < y.value) : valueOfBits (m + 1) ≤ y.value := by
  rw [value] at h ⊢
  cases hsign : y.isNegative with
  | true =>
    rw [hsign] at h
    have hneg := neg_nonpos.2 (valueOfBits_nonneg y.magnitude)
    exact absurd (h.trans_le hneg) (not_lt.2 (valueOfBits_nonneg m))
  | false =>
    rw [hsign] at h
    exact valueOfBits_strictMono.monotone (valueOfBits_strictMono.lt_iff_lt.1 h)

/-- The midpoints around a magnitude, as values. -/
theorem RoundsTo.values (hden : 0 < den) (h : RoundsTo num den m) :
    valueOfBits (m - 1) + valueOfBits m ≤ 2 * (num / den / oneUnits) ∧
      2 * (num / den / oneUnits) ≤ valueOfBits m + valueOfBits (m + 1) ∧
      (m % 2 = 1 → valueOfBits (m - 1) + valueOfBits m < 2 * (num / den / oneUnits) ∧
        2 * (num / den / oneUnits) < valueOfBits m + valueOfBits (m + 1)) := by
  have hden : (0 : ℚ) < den := Nat.cast_pos.2 hden
  have hone := cast_oneUnits_pos
  have hsum (a b : Nat) : valueOfBits a + valueOfBits b =
      ((unitsOfBits a + unitsOfBits b) * den : ℚ) / den / oneUnits := by
    rw [mul_div_cancel_right₀ _ hden.ne', add_div]
    rfl
  have htwice : 2 * ((num : ℚ) / den / oneUnits) = 2 * num / den / oneUnits := by ring
  have hle {a b : ℚ} (h : a ≤ b) : a / den / oneUnits ≤ b / den / oneUnits :=
    div_le_div_of_nonneg_right (div_le_div_of_nonneg_right h hden.le) hone.le
  have hlt {a b : ℚ} (h : a < b) : a / den / oneUnits < b / den / oneUnits :=
    div_lt_div_of_pos_right (div_lt_div_of_pos_right h hden) hone
  rw [hsum, hsum, htwice]
  obtain ⟨hlow, hhigh, hstrict⟩ := h
  refine ⟨hle (by exact_mod_cast hlow), hle (by exact_mod_cast hhigh), fun hodd => ?_⟩
  obtain ⟨hlow, hhigh⟩ := hstrict hodd
  exact ⟨hlt (by exact_mod_cast hlow), hlt (by exact_mod_cast hhigh)⟩

theorem isNearest_of_roundsTo (hfin : m < infinityBits) (hden : 0 < den)
    (h : RoundsTo num den m) : IsNearest (num / den / oneUnits) (ofSignBits false m) := by
  obtain ⟨hlow, hhigh, hstrict⟩ := h.values hden
  generalize (num : ℚ) / den / oneUnits = t at *
  have hvalue : (ofSignBits false m).value = valueOfBits m := value_ofSignBits false hfin
  refine ⟨isFinite_ofSignBits false hfin, ?_, ?_⟩
  · intro y _
    rw [hvalue]
    rcases lt_trichotomy y.value (valueOfBits m) with hlt | heq | hgt
    · have := value_le_of_lt hlt
      exact (abs_sub_le_abs_sub_left_iff hlt).2 (by linarith)
    · rw [heq]
    · have := le_value_of_lt hgt
      exact (abs_sub_le_abs_sub_right_iff hgt).2 (by linarith)
  · intro y _ hne hequal
    rw [hvalue] at hne hequal
    rw [magnitude_ofSignBits false (hfin.trans (by decide))]
    by_contra hodd
    -- an odd magnitude rounds from strictly between the midpoints, so no other is as near
    obtain ⟨hlow, hhigh⟩ := hstrict (by omega)
    rcases lt_or_gt_of_ne hne with hlt | hgt
    · have := value_le_of_lt hlt
      have := (abs_sub_le_abs_sub_right_iff hlt).1 hequal.le
      linarith
    · have := le_value_of_lt hgt
      have := (abs_sub_le_abs_sub_left_iff hgt).1 hequal.le
      linarith

theorem IsNearest.neg (h : IsNearest q x) : IsNearest (-q) x.neg := by
  have hflip {y : Binary64} (hy : y.isFinite = true) : |y.neg.value - -q| = |y.value - q| := by
    rw [value_neg hy, neg_sub_neg, abs_sub_comm]
  have hback {y : Binary64} (hy : y.isFinite = true) : |y.value - -q| = |y.neg.value - q| := by
    rw [value_neg hy, ← abs_neg]
    congr 1
    ring
  refine ⟨isFinite_neg h.finite, ?_, ?_⟩
  · intro y hy
    rw [hflip h.finite, hback hy]
    exact h.closest y.neg (isFinite_neg hy)
  · intro y hy hne hequal
    rw [magnitude_neg h.finite]
    rw [hflip h.finite, hback hy] at hequal
    refine h.even y.neg (isFinite_neg hy) ?_ hequal
    intro heq
    rw [value_neg h.finite, ← heq, value_neg hy, neg_neg] at hne
    exact hne rfl

/-- **Rounding.** A ratio that is not above a finite number of units is rounded to a nearest
double. -/
theorem isNearest_ofRatio (hden : 0 < den) (hk : k < infinityBits)
    (h : n.natAbs ≤ unitsOfBits k * den) : IsNearest (n / den / oneUnits) (ofRatio n den) := by
  obtain ⟨m, hm⟩ := exists_roundsTo n.natAbs hden
  have hfin : m < infinityBits := (hm.le hden h).trans_lt hk
  have hnearest := isNearest_of_roundsTo hfin hden hm
  rw [ofRatio, nearestBits_eq hfin hden hm]
  rcases lt_or_ge n 0 with hneg | hpos
  · have hn : (n : ℚ) = -(n.natAbs : ℚ) := by
      rw [Nat.cast_natAbs, abs_of_neg hneg, Int.cast_neg, neg_neg]
    rw [decide_eq_true hneg, hn, neg_div, neg_div, ← Bool.not_false,
      ← neg_ofSignBits false (hfin.trans (by decide))]
    exact hnearest.neg
  · have hn : (n : ℚ) = n.natAbs := by rw [Nat.cast_natAbs, abs_of_nonneg hpos]
    rw [decide_eq_false (not_lt.2 hpos), hn]
    exact hnearest

/-! ## Uniqueness -/

theorem value_of_nonneg (h : x.isNegative = false) : x.value = valueOfBits x.magnitude := by
  rw [value, h]
  rfl

/-- Of two nearest doubles without a sign, none is smaller. -/
theorem IsNearest.magnitude_le (hx : IsNearest q x) (hy : IsNearest q y)
    (hxsign : x.isNegative = false) (hysign : y.isNegative = false) :
    y.magnitude ≤ x.magnitude := by
  by_contra hlt
  have hlt := not_le.1 hlt
  have hvalue := valueOfBits_strictMono hlt
  have hequal := le_antisymm (hx.closest y hy.finite) (hy.closest x hx.finite)
  rw [← value_of_nonneg hxsign, ← value_of_nonneg hysign] at hvalue
  have hxeven := hx.even y hy.finite hvalue.ne' hequal.symm
  have hyeven := hy.even x hx.finite hvalue.ne hequal
  -- both are even, so there is a double between them, which is nearer than one of them
  have hfin : x.magnitude + 1 < infinityBits := lt_of_le_of_lt hlt (isFinite_iff.1 hy.finite)
  have hzfinite := isFinite_ofSignBits false hfin
  have hz : (ofSignBits false (x.magnitude + 1)).value = valueOfBits (x.magnitude + 1) :=
    value_ofSignBits false hfin
  have hxz : x.value < (ofSignBits false (x.magnitude + 1)).value := by
    rw [hz, value_of_nonneg hxsign]
    exact valueOfBits_strictMono (Nat.lt_add_one _)
  have hzy : (ofSignBits false (x.magnitude + 1)).value < y.value := by
    rw [hz, value_of_nonneg hysign]
    exact valueOfBits_strictMono (by omega)
  have hlow := (abs_sub_le_abs_sub_right_iff hxz).1 (hx.closest _ hzfinite)
  have hhigh := (abs_sub_le_abs_sub_left_iff hzy).1 (hy.closest _ hzfinite)
  linarith

/-- **There is one nearest double without a sign at most.** -/
theorem IsNearest.eq (hx : IsNearest q x) (hy : IsNearest q y) (hxsign : x.isNegative = false)
    (hysign : y.isNegative = false) : x = y := by
  have hmagnitude : x.magnitude = y.magnitude :=
    le_antisymm (hy.magnitude_le hx hysign hxsign) (hx.magnitude_le hy hxsign hysign)
  rw [← ofSignBits_magnitude x, ← ofSignBits_magnitude y, hxsign, hysign, hmagnitude]

/-- What is a double is not rounded. -/
theorem IsNearest.value_eq (h : IsNearest y.value x) (hy : y.isFinite = true) :
    x.value = y.value := by
  have hzero := h.closest y hy
  rw [sub_self, abs_zero] at hzero
  exact sub_eq_zero.1 (abs_nonpos_iff.1 hzero)

/-! ## The error of rounding -/

theorem cast_oneUnits : (oneUnits : ℚ) = 2 ^ (1074 : ℤ) := by
  obtain ⟨n, hn, ho⟩ := exists_oneUnits
  rw [ho, Nat.cast_pow, Nat.cast_ofNat, ← zpow_natCast, hn]
  rfl

theorem valueOfBits_eq (m : Nat) :
    valueOfBits m = significandOf m * 2 ^ (exponentOf m - 1074 : ℤ) := by
  rw [valueOfBits, unitsOfBits_eq, cast_oneUnits, zpow_sub₀ two_ne_zero, zpow_natCast, Nat.cast_mul,
    Nat.cast_pow, Nat.cast_ofNat, mul_div_assoc]

/-- The significand of a finite double has 53 bits, and may as well be `2^53`. -/
theorem exists_unitsOfBits_of_le {s j : Nat} (hs : s ≤ 2 * leadingBit) (hj : j < 2045) :
    ∃ m < infinityBits, unitsOfBits m = s * 2 ^ j := by
  have hm : ∃ m, unitsOfBits m = s * 2 ^ j := by
    rcases hs.lt_or_eq with hlt | rfl
    · exact exists_unitsOfBits hlt j
    · obtain ⟨m, hm⟩ := exists_unitsOfBits (s := leadingBit) (by decide) (j + 1)
      exact ⟨m, by rw [hm]; ring⟩
  obtain ⟨m, hm⟩ := hm
  refine ⟨m, unitsOfBits_strictMono.lt_iff_lt.1 ?_, hm⟩
  have hsignificand : significandOf infinityBits = leadingBit := by decide
  have hexponent : j + 1 < exponentOf infinityBits := by
    have : exponentOf infinityBits = 2046 := by decide
    omega
  rw [hm, unitsOfBits_eq infinityBits, hsignificand]
  calc s * 2 ^ j ≤ 2 * leadingBit * 2 ^ j := Nat.mul_le_mul_right _ hs
    _ = leadingBit * 2 ^ (j + 1) := by ring
    _ < leadingBit * 2 ^ exponentOf infinityBits :=
      Nat.mul_lt_mul_of_pos_left (Nat.pow_lt_pow_right (by decide) hexponent) leadingBit_pos

/-- The multiples of a power of two are doubles up to the `2^53`-fold. -/
theorem exists_value_eq {s e : ℤ} (hs : |s| ≤ 2 ^ 53) (hlow : -1074 ≤ e) (hhigh : e < 971) :
    ∃ y : Binary64, y.isFinite = true ∧ y.value = s * 2 ^ e := by
  obtain ⟨j, rfl⟩ : ∃ j : Nat, e = j - 1074 := ⟨(e + 1074).toNat, by omega⟩
  have hs : s.natAbs ≤ 2 * leadingBit := by
    rw [Int.abs_eq_natAbs] at hs
    rw [leadingBit_eq]
    omega
  obtain ⟨m, hm, hunits⟩ := exists_unitsOfBits_of_le hs (j := j) (by omega)
  have hvalue : valueOfBits m = |(s : ℚ)| * 2 ^ ((j : ℤ) - 1074) := by
    rw [valueOfBits, hunits, cast_oneUnits, zpow_sub₀ two_ne_zero, zpow_natCast, Nat.cast_mul,
      Nat.cast_pow, Nat.cast_ofNat, Nat.cast_natAbs, Int.cast_abs, mul_div_assoc]
  refine ⟨ofSignBits (s < 0) m, isFinite_ofSignBits _ hm, ?_⟩
  rw [value_ofSignBits _ hm, hvalue]
  rcases lt_or_ge s 0 with hneg | hpos
  · rw [decide_eq_true hneg, abs_of_neg (Int.cast_lt_zero.2 hneg)]
    simp
  · rw [decide_eq_false (not_lt.2 hpos), abs_of_nonneg (Int.cast_nonneg hpos)]
    rfl

/-- A number of units below a power of two that is a double is rounded to a nearest double. -/
theorem isNearest_ofUnits {e : ℤ} (hlow : -1074 ≤ e) (hhigh : e < 971)
    (h : |(n : ℚ) / oneUnits| ≤ 2 ^ e) : IsNearest (n / oneUnits) (ofUnits n) := by
  obtain ⟨y, hy, hvalue⟩ := exists_value_eq (s := 1) (by norm_num) hlow hhigh
  have hunits : n.natAbs ≤ unitsOfBits y.magnitude * 1 := by
    have hone := cast_oneUnits_pos
    have hmagnitude : valueOfBits y.magnitude = 2 ^ e := by
      rw [← abs_value, hvalue, Int.cast_one, one_mul, abs_of_pos (by positivity)]
    rw [← hmagnitude, valueOfBits, abs_div, abs_of_pos hone, div_le_div_iff_of_pos_right hone,
      ← Int.cast_abs, ← Nat.cast_natAbs] at h
    rw [Nat.mul_one]
    exact_mod_cast h
  have hratio := isNearest_ofRatio Nat.one_pos (isFinite_iff.1 hy) hunits
  rwa [Nat.cast_one, div_one] at hratio

/-- **The error of rounding** is at most half the distance of the multiples of `2^e`. -/
theorem IsNearest.abs_sub_le {e : ℤ} (h : IsNearest q x) (hlow : -1074 ≤ e) (hhigh : e < 971)
    (hq : |q| ≤ 2 ^ (e + 53)) : |x.value - q| ≤ 2 ^ (e - 1) := by
  have hpos : (0 : ℚ) < 2 ^ e := by positivity
  have hround := abs_sub_round (q / 2 ^ e)
  have hs : |round (q / 2 ^ e)| ≤ 2 ^ 53 := by
    have hquotient : |q / 2 ^ e| ≤ 2 ^ 53 := by
      rw [abs_div, abs_of_pos hpos, div_le_iff₀ hpos]
      rwa [add_comm, zpow_add₀ two_ne_zero] at hq
    have hnext := abs_sub_abs_le_abs_sub (round (q / 2 ^ e) : ℚ) (q / 2 ^ e)
    rw [abs_sub_comm] at hround
    have hlt : |(round (q / 2 ^ e) : ℚ)| < 2 ^ 53 + 1 := by linarith
    exact Int.lt_add_one_iff.1 (by exact_mod_cast hlt)
  obtain ⟨y, hy, hvalue⟩ := exists_value_eq hs hlow hhigh
  calc |x.value - q| ≤ |y.value - q| := h.closest y hy
    _ = |q / 2 ^ e - round (q / 2 ^ e)| * 2 ^ e := by
      rw [hvalue, abs_sub_comm, ← abs_of_pos hpos, ← abs_mul, abs_of_pos hpos, sub_mul,
        div_mul_cancel₀ _ hpos.ne']
    _ ≤ 1 / 2 * 2 ^ e := mul_le_mul_of_nonneg_right hround hpos.le
    _ = 2 ^ (e - 1) := by
      rw [zpow_sub_one₀ two_ne_zero]
      ring

end GateIR.Binary64

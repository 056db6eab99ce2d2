import GateIR.Proofs.Angle.Reduction
import Mathlib.Analysis.Normed.Group.AddCircle

/-!
# Angle arithmetic on the circle

Angles are points of the circle of length `2`. Reduction takes a double to the point of its value,
up to the rounding of the residue, and sums, differences and negations are rounded once more.

**Errors.** A residue is below `2` and is rounded by `2^-53` at most (`dist_point_reduce_le`). A
residue that is a double is not rounded at all (`point_reduce`), as that of any number without sign.
A sum of coefficients is below `4`, and is rounded by `2^-52` at most.

**Theorem (`arithmetic_near_exact`).** So the sum of two reduced numbers is within `2^-51` of their
exact sum modulo `2`, and likewise the difference. A negation is within `2^-52` of the exact one.
Negating twice gives an angle back within `2^-53`, since one of the two negations is exact: that of
a coefficient which is a multiple of `2^-52`, as `0` and all from `1` on are.
-/

namespace GateIR.Angle

open Binary64 (IsNearest ofSignBits ofUnits valueOfBits unitsOfBits oneUnits two significandOf
  exponentOf)

variable {f g : Binary64} {n : Int} {p q : ℚ} (a b : Angle)

/-! ## The circle -/

/-- The point of the circle of length `2` at which a number lies. -/
noncomputable def onCircle (q : ℚ) : AddCircle (2 : ℝ) := ((q : ℝ) : AddCircle (2 : ℝ))

theorem onCircle_add (p q : ℚ) : onCircle (p + q) = onCircle p + onCircle q := by
  rw [onCircle, Rat.cast_add, AddCircle.coe_add]
  rfl

theorem onCircle_sub (p q : ℚ) : onCircle (p - q) = onCircle p - onCircle q := by
  rw [onCircle, Rat.cast_sub, AddCircle.coe_sub]
  rfl

theorem onCircle_neg (q : ℚ) : onCircle (-q) = -onCircle q := by
  rw [onCircle, Rat.cast_neg, AddCircle.coe_neg]
  rfl

theorem onCircle_two_mul (k : ℤ) : onCircle (2 * k) = 0 := by
  rw [onCircle, AddCircle.coe_eq_zero_iff]
  exact ⟨k, by simp [mul_comm]⟩

theorem onCircle_residue (q : ℚ) : onCircle (residue q) = onCircle q := by
  rw [residue, onCircle_sub, onCircle_two_mul, sub_zero]

/-- Points of the circle are no further apart than their numbers. -/
theorem dist_onCircle_le {e : ℤ} (h : |p - q| ≤ 2 ^ e) :
    dist (onCircle p) (onCircle q) ≤ 2 ^ e := by
  have hreal : |((p - q : ℚ) : ℝ)| ≤ 2 ^ e := by
    have hcast : ((2 ^ e : ℚ) : ℝ) = 2 ^ e := by
      rw [Rat.cast_zpow, Rat.cast_ofNat]
    rw [← Rat.cast_abs, ← hcast]
    exact Rat.cast_le.2 h
  rw [dist_eq_norm, ← onCircle_sub]
  exact (QuotientAddGroup.norm_mk_le_norm).trans hreal

/-! ## Coefficients -/

/-- The point of the circle at which the coefficient lies. -/
noncomputable def point : AddCircle (2 : ℝ) := onCircle a.coefficient.value

theorem value_coefficient_eq : a.coefficient.value = valueOfBits a.bits := a.value_coefficient

theorem valueOfBits_two : valueOfBits two.bits.toNat = 2 := value_two

theorem value_coefficient_nonneg : 0 ≤ a.coefficient.value := by
  rw [value_coefficient_eq]
  exact Binary64.valueOfBits_nonneg _

theorem value_coefficient_lt_two : a.coefficient.value < 2 := by
  rw [value_coefficient_eq, ← valueOfBits_two]
  exact Binary64.valueOfBits_strictMono a.bits_lt

/-! ## Reduction -/

/-- A reduced number lies where its rounded residue does, since `2` and zero are one point. -/
theorem exists_point_reduce (h : f.isFinite = true) :
    ∃ r : Binary64, r.IsNearest (residue f.value) ∧ (reduce f).point = onCircle r.value := by
  obtain ⟨r, hnearest, -, hcoefficient⟩ := exists_rounded_residue h
  refine ⟨r, hnearest, ?_⟩
  rw [point, hcoefficient]
  split
  · next htwo =>
    have hzero : Binary64.zero.value = 0 := by decide +kernel
    have hone := onCircle_two_mul 1
    rw [htwo, hzero, value_two, onCircle, Rat.cast_zero, AddCircle.coe_zero, ← hone, Int.cast_one,
      mul_one]
  · rfl

/-- The residue is rounded by `2^-53` at most. -/
theorem dist_point_reduce_le (h : f.isFinite = true) :
    dist (reduce f).point (onCircle f.value) ≤ 2 ^ (-53 : ℤ) := by
  obtain ⟨r, hnearest, hpoint⟩ := exists_point_reduce h
  have hresidue : |residue f.value| ≤ 2 ^ (-52 + 53 : ℤ) := by
    rw [abs_of_nonneg (residue_nonneg _)]
    exact (residue_lt_two _).le.trans_eq (by norm_num)
  have hround : |r.value - residue f.value| ≤ 2 ^ (-52 - 1 : ℤ) :=
    hnearest.abs_sub_le (by decide) (by decide) hresidue
  rw [hpoint, ← onCircle_residue f.value]
  exact dist_onCircle_le hround

/-- A residue that is a double is not rounded. -/
theorem point_reduce {y : Binary64} (h : f.isFinite = true) (hy : y.isFinite = true)
    (hvalue : y.value = residue f.value) : (reduce f).point = onCircle f.value := by
  obtain ⟨r, hnearest, hpoint⟩ := exists_point_reduce h
  rw [← hvalue] at hnearest
  rw [hpoint, hnearest.value_eq hy, hvalue, onCircle_residue]

/-- A number without sign is not rounded. -/
theorem point_reduce_of_nonneg (h : f.isFinite = true) (hsign : f.isNegative = false) :
    (reduce f).point = onCircle f.value := by
  rw [point, value_coefficient_reduce h hsign, onCircle_residue]

/-! ## Sums and differences -/

/-- A number of units is rounded to a double that is no further away than half a multiple. -/
theorem isFinite_and_dist_ofUnits_le {e : ℤ} (hlow : -1074 ≤ e) (hhigh : e + 53 < 971)
    (hn : |(n : ℚ) / oneUnits| ≤ 2 ^ (e + 53)) :
    (ofUnits n).isFinite = true ∧
      dist (onCircle (ofUnits n).value) (onCircle (n / oneUnits)) ≤ 2 ^ (e - 1) := by
  have hnearest := Binary64.isNearest_ofUnits (by omega) hhigh hn
  exact ⟨hnearest.finite, dist_onCircle_le (hnearest.abs_sub_le hlow (by omega) hn)⟩

/-- A sum of coefficients is below `4`. Its rounding has no sign, so it is reduced exactly. -/
theorem dist_point_add_le : dist (a + b).point (a.point + b.point) ≤ 2 ^ (-52 : ℤ) := by
  have hsum : a.coefficient.value + b.coefficient.value =
      ((a.units + b.units : Int) : ℚ) / oneUnits := by
    rw [value_coefficient, value_coefficient, ← add_div]
    push_cast
    rfl
  have hbound : |((a.units + b.units : Int) : ℚ) / oneUnits| ≤ 2 ^ (-51 + 53 : ℤ) := by
    have ha := a.value_coefficient_nonneg
    have hb := b.value_coefficient_nonneg
    have halt := a.value_coefficient_lt_two
    have hblt := b.value_coefficient_lt_two
    rw [← hsum, abs_of_nonneg (by linarith)]
    norm_num
    linarith
  obtain ⟨hfinite, hround⟩ := isFinite_and_dist_ofUnits_le (by decide) (by decide) hbound
  have hsign := Binary64.isNegative_ofUnits_natCast (a.units + b.units)
  rw [Nat.cast_add] at hsign
  have hreduce : (a + b).point = onCircle (ofUnits (a.units + b.units : Int)).value :=
    point_reduce_of_nonneg hfinite hsign
  have hpoints : a.point + b.point = onCircle (((a.units + b.units : Int) : ℚ) / oneUnits) := by
    rw [← hsum, onCircle_add]
    rfl
  rw [hreduce, hpoints]
  exact hround

/-- A difference of coefficients is below `2`, and is rounded twice. -/
theorem dist_point_sub_le : dist (a - b).point (a.point - b.point) ≤ 2 ^ (-52 : ℤ) := by
  have hdifference : a.coefficient.value - b.coefficient.value =
      ((a.units - b.units : Int) : ℚ) / oneUnits := by
    rw [value_coefficient, value_coefficient, ← sub_div]
    push_cast
    rfl
  have hbound : |((a.units - b.units : Int) : ℚ) / oneUnits| ≤ 2 ^ (-52 + 53 : ℤ) := by
    have ha := a.value_coefficient_nonneg
    have hb := b.value_coefficient_nonneg
    have halt := a.value_coefficient_lt_two
    have hblt := b.value_coefficient_lt_two
    rw [← hdifference, abs_le]
    norm_num
    constructor <;> linarith
  obtain ⟨hfinite, hround⟩ := isFinite_and_dist_ofUnits_le (by decide) (by decide) hbound
  have hpoints : a.point - b.point = onCircle (((a.units - b.units : Int) : ℚ) / oneUnits) := by
    rw [← hdifference, onCircle_sub]
    rfl
  rw [hpoints]
  calc dist (a - b).point (onCircle (((a.units - b.units : Int) : ℚ) / oneUnits))
      ≤ 2 ^ (-53 : ℤ) + 2 ^ (-52 - 1 : ℤ) :=
        (dist_triangle _ _ _).trans (add_le_add (dist_point_reduce_le hfinite) hround)
    _ = 2 ^ (-52 : ℤ) := by norm_num

/-! ## Negation -/

theorem dist_point_neg_le : dist (-a).point (-a.point) ≤ 2 ^ (-53 : ℤ) := by
  obtain ⟨f, hfinite, hvalue, hneg⟩ := a.exists_neg
  rw [hneg, point, point, ← onCircle_neg, ← hvalue]
  exact dist_point_reduce_le hfinite

/-- The coefficient is a multiple of the largest distance of neighbours below `2`. -/
def OnGrid : Prop := ∃ s : ℤ, a.coefficient.value = s * 2 ^ (-52 : ℤ)

/-- Residues of grid points are grid points, and all of these are doubles up to `2`. -/
theorem exists_value_residue (s : ℤ) :
    ∃ y : Binary64, y.isFinite = true ∧ y.value = residue (s * 2 ^ (-52 : ℤ)) := by
  have hresidue : residue (s * 2 ^ (-52 : ℤ)) =
      (s - 2 ^ 53 * ⌊(s * 2 ^ (-52 : ℤ) : ℚ) / 2⌋ : ℤ) * 2 ^ (-52 : ℤ) := by
    rw [residue]
    push_cast
    norm_num
    ring
  have hnonneg := residue_nonneg (s * 2 ^ (-52 : ℤ))
  have hlt := residue_lt_two (s * 2 ^ (-52 : ℤ))
  rw [hresidue] at hnonneg hlt ⊢
  generalize s - 2 ^ 53 * ⌊(s * 2 ^ (-52 : ℤ) : ℚ) / 2⌋ = k at *
  refine Binary64.exists_value_eq ?_ (by decide) (by decide)
  have hpos : (0 : ℚ) < 2 ^ (-52 : ℤ) := by positivity
  have hk : (k : ℚ) ≤ 2 ^ 53 := by
    norm_num at hlt ⊢
    linarith
  rw [abs_of_nonneg (by exact_mod_cast nonneg_of_mul_nonneg_left hnonneg hpos)]
  exact_mod_cast hk

/-- Grid points are negated exactly. -/
theorem point_neg {a : Angle} (h : a.OnGrid) : (-a).point = -a.point := by
  obtain ⟨f, hfinite, hvalue, hneg⟩ := a.exists_neg
  obtain ⟨s, hs⟩ := h
  obtain ⟨y, hy, hresidue⟩ := exists_value_residue (-s)
  have hf : f.value = ((-s : ℤ) : ℚ) * 2 ^ (-52 : ℤ) := by
    rw [hvalue, hs, Int.cast_neg, neg_mul]
  rw [← hf] at hresidue
  rw [hneg, point_reduce hfinite hy hresidue, hvalue, onCircle_neg]
  rfl

/-- From `1` on all doubles below `2` are grid points. -/
theorem onGrid_of_one_le {a : Angle} (h : 1 ≤ a.coefficient.value) : a.OnGrid := by
  have hone : valueOfBits Binary64.one.bits.toNat = 1 := by decide +kernel
  have hlow : Binary64.one.bits.toNat ≤ a.bits := by
    rw [value_coefficient_eq, ← hone] at h
    exact Binary64.valueOfBits_strictMono.le_iff_le.1 h
  have hhigh := a.bits_lt
  have hexponent : exponentOf a.bits = 1022 := by
    have hlowBits : Binary64.one.bits.toNat = 1023 * 2 ^ 52 := by decide
    have hhighBits : two.bits.toNat = 1024 * 2 ^ 52 := by decide
    rw [exponentOf, Binary64.leadingBit_eq]
    omega
  refine ⟨significandOf a.bits, ?_⟩
  rw [value_coefficient_eq, Binary64.valueOfBits_eq, hexponent]
  norm_num

theorem residue_neg (hpos : 0 < q) (hle : q ≤ 2) : residue (-q) = 2 - q := by
  have hfloor : ⌊-q / 2⌋ = -1 := by
    rw [Int.floor_eq_iff]
    constructor <;> norm_num <;> linarith
  rw [residue, hfloor]
  norm_num
  ring

/-- An angle or its negation is a grid point: one of them is zero, or at least `1`. -/
theorem onGrid_or_onGrid_neg : a.OnGrid ∨ (-a).OnGrid := by
  rcases le_or_gt 1 a.coefficient.value with hlarge | hsmall
  · exact .inl (onGrid_of_one_le hlarge)
  rcases a.value_coefficient_nonneg.eq_or_lt with hzero | hpos
  · exact .inl ⟨0, by rw [← hzero]; norm_num⟩
  right
  obtain ⟨f, hfinite, hvalue, hneg⟩ := a.exists_neg
  obtain ⟨r, hnearest, -, hcoefficient⟩ := exists_rounded_residue hfinite
  rw [hvalue, residue_neg hpos (by linarith)] at hnearest
  have hone : Binary64.one.value = 1 := by decide +kernel
  -- the residue is above `1`, which is a double, so it is not rounded to less
  have hr : 1 ≤ r.value := by
    by_contra hlt
    rw [not_le, ← hone] at hlt
    have := (Binary64.abs_sub_le_abs_sub_right_iff hlt).1 (hnearest.closest _ (by decide))
    linarith
  rw [hneg]
  split at hcoefficient
  · exact ⟨0, by rw [hcoefficient]; decide +kernel⟩
  · exact onGrid_of_one_le (hr.trans_eq (congrArg Binary64.value hcoefficient.symm))

/-- One of the two negations is exact. -/
theorem dist_point_neg_neg_le : dist (-(-a)).point a.point ≤ 2 ^ (-53 : ℤ) := by
  rcases a.onGrid_or_onGrid_neg with hgrid | hgrid
  · have hpoint : a.point = -(-a).point := by rw [point_neg hgrid, neg_neg]
    rw [hpoint]
    exact dist_point_neg_le (-a)
  · rw [point_neg hgrid, ← neg_neg a.point, dist_neg_neg]
    exact dist_point_neg_le a

/-- A small angle is rounded away. -/
example : -(-reduce ⟨0x3c90000000000000⟩) = zero := by decide +kernel

/-! ## Arithmetic -/

/-- **Arithmetic is exact up to rounding**, as distances on the circle tell. -/
theorem arithmetic_near_exact (hf : f.isFinite = true) (hg : g.isFinite = true) :
    dist (reduce f + reduce g).point (onCircle (f.value + g.value)) ≤ 2 ^ (-51 : ℤ) ∧
      dist (reduce f - reduce g).point (onCircle (f.value - g.value)) ≤ 2 ^ (-51 : ℤ) ∧
      dist (-reduce f).point (onCircle (-f.value)) ≤ 2 ^ (-52 : ℤ) ∧
      ∀ a : Angle, dist (-(-a)).point a.point ≤ 2 ^ (-53 : ℤ) := by
  have hreduceF := dist_point_reduce_le hf
  have hreduceG := dist_point_reduce_le hg
  have htotal : (2 : ℝ) ^ (-52 : ℤ) + (2 ^ (-53 : ℤ) + 2 ^ (-53 : ℤ)) = 2 ^ (-51 : ℤ) := by
    norm_num
  refine ⟨?_, ?_, ?_, dist_point_neg_neg_le⟩
  · rw [onCircle_add, ← htotal]
    exact (dist_triangle _ _ _).trans (add_le_add (dist_point_add_le _ _)
      ((dist_add_add_le _ _ _ _).trans (add_le_add hreduceF hreduceG)))
  · rw [onCircle_sub, ← htotal]
    exact (dist_triangle _ _ _).trans (add_le_add (dist_point_sub_le _ _)
      ((dist_sub_sub_le _ _ _ _).trans (add_le_add hreduceF hreduceG)))
  · have hsum : (2 : ℝ) ^ (-53 : ℤ) + 2 ^ (-53 : ℤ) = 2 ^ (-52 : ℤ) := by norm_num
    rw [onCircle_neg, ← hsum]
    refine (dist_triangle _ _ _).trans (add_le_add (dist_point_neg_le _) ?_)
    rw [dist_neg_neg]
    exact hreduceF

/-- The residue of the first number is rounded to `2`, that of the second is exact. -/
theorem arithmetic_near_exact_bothSigns :
    slightlyNegative.isFinite = true ∧ largeOdd.isFinite = true ∧
      dist (reduce slightlyNegative + reduce largeOdd).point
        (onCircle (slightlyNegative.value + largeOdd.value)) ≤ 2 ^ (-51 : ℤ) ∧
      dist (reduce slightlyNegative - reduce largeOdd).point
        (onCircle (slightlyNegative.value - largeOdd.value)) ≤ 2 ^ (-51 : ℤ) ∧
      dist (-reduce slightlyNegative).point (onCircle (-slightlyNegative.value)) ≤
        2 ^ (-52 : ℤ) := by
  have hf : slightlyNegative.isFinite = true := by decide
  have hg : largeOdd.isFinite = true := by decide
  obtain ⟨hadd, hsub, hneg, -⟩ := arithmetic_near_exact hf hg
  exact ⟨hf, hg, hadd, hsub, hneg⟩

end GateIR.Angle

import GateIR.Binary64.Decimal
import GateIR.Proofs.Binary64.Value

/-!
# Decimals are read correctly rounded

**Theorem (`isRounded_ofDecimal`).** The double that a decimal is read as is the one nearest to its
value, or infinity where the value is half way above the largest double or more.

The reader rounds a ratio, which is rounded correctly whatever its size (`isRounded_ofRatio`). The two
tests that keep the powers of ten small stand for ratios below half a unit, and above every double.
-/

namespace GateIR

/-- The exact value of a decimal. -/
def Decimal.value (d : Decimal) : ℚ := d.mantissa * 10 ^ d.exponent

namespace Binary64

variable {m num den : Nat} {q : ℚ} {x y : Binary64}

/-! ## Rounding without bound -/

/-- Half way from the largest double to the next power of two. -/
def overflow : ℚ := 2 ^ 1024 - 2 ^ 970

/-- What a number without sign is rounded to: the nearest double, or infinity. -/
structure IsRounded (q : ℚ) (x : Binary64) : Prop where
  sign : x.isNegative = false
  nearest : q < overflow → x.IsNearest q
  overflows : overflow ≤ q → x = .infinity

/-- **There is one rounded number.** -/
theorem IsRounded.eq (hx : IsRounded q x) (hy : IsRounded q y) : x = y := by
  rcases lt_or_ge q overflow with hlt | hge
  · exact (hx.nearest hlt).eq (hy.nearest hlt) hx.sign hy.sign
  · rw [hx.overflows hge, hy.overflows hge]

/-- The largest double and the first power of two that is none, around their midpoint. -/
theorem two_mul_overflow :
    2 * overflow = valueOfBits (infinityBits - 1) + valueOfBits infinityBits := by
  have hlargest : significandOf (infinityBits - 1) = 2 ^ 53 - 1 := by decide
  have hlargestExponent : exponentOf (infinityBits - 1) = 2045 := by decide
  have hinfinity : significandOf infinityBits = 2 ^ 52 := by decide
  have hinfinityExponent : exponentOf infinityBits = 2046 := by decide
  rw [valueOfBits_eq, valueOfBits_eq, hlargest, hlargestExponent, hinfinity, hinfinityExponent,
    overflow]
  obtain ⟨k, hk⟩ : ∃ k, k = 970 := ⟨_, rfl⟩
  have hsplit : 1024 = 54 + k := by omega
  have hlow : ((2045 : Nat) - 1074 : ℤ) = (k + 1 : Nat) := by omega
  have hhigh : ((2046 : Nat) - 1074 : ℤ) = (k + 2 : Nat) := by omega
  rw [hsplit, ← hk, hlow, hhigh, zpow_natCast, zpow_natCast]
  push_cast
  ring

theorem lt_overflow (hden : 0 < den) (hfin : m < infinityBits) (h : RoundsTo num den m) :
    num / den / oneUnits < overflow := by
  obtain ⟨-, hhigh, hstrict⟩ := h.values hden
  have htwo := two_mul_overflow
  rcases (Nat.le_sub_one_of_lt hfin).lt_or_eq with hlt | rfl
  · have hlow := valueOfBits_strictMono hlt
    have hnext := valueOfBits_strictMono (Nat.add_lt_of_lt_sub hlt)
    linarith
  · -- the last bit of the largest double is set
    have hlast := (hstrict (by decide)).2
    rw [Nat.sub_add_cancel (by decide)] at hlast
    linarith

theorem overflow_le (hden : 0 < den) (hinf : infinityBits ≤ m) (h : RoundsTo num den m) :
    overflow ≤ num / den / oneUnits := by
  have hlow := (h.values hden).1
  have htwo := two_mul_overflow
  have hprev := valueOfBits_strictMono.monotone (Nat.sub_le_sub_right hinf 1)
  have hnext := valueOfBits_strictMono.monotone hinf
  linarith

theorem isRounded_infinity (h : overflow ≤ q) : IsRounded q infinity :=
  ⟨by decide, fun hlt => absurd hlt (not_lt.2 h), fun _ => rfl⟩

/-- **Ratios are correctly rounded**, whatever their size. -/
theorem isRounded_ofRatio (num : Nat) (hden : 0 < den) :
    IsRounded (num / den / oneUnits) (ofRatio num den) := by
  obtain ⟨m, hm⟩ := exists_roundsTo num hden
  have hratio : ofRatio num den = ofSignBits false (min m infinityBits) := by
    rw [ofRatio_natCast, nearestBits_eq_min hden hm]
  rw [hratio]
  rcases lt_or_ge m infinityBits with hfin | hinf
  · rw [min_eq_left hfin.le]
    have hlt := lt_overflow hden hfin hm
    exact ⟨isNegative_ofSignBits false (hfin.trans (by decide)),
      fun _ => isNearest_of_roundsTo hfin hden hm, fun hge => absurd hlt (not_lt.2 hge)⟩
  · rw [min_eq_right hinf]
    exact isRounded_infinity (overflow_le hden hinf hm)

/-- What is not above half a unit is rounded to zero. -/
theorem isNearest_zero (hq : 0 ≤ q) (h : 2 * q ≤ valueOfBits 1) : IsNearest q zero := by
  have hzero : zero.value = 0 := by decide +kernel
  refine ⟨by decide, fun y _ => ?_, fun _ _ _ _ => by decide⟩
  rw [hzero, zero_sub, abs_neg, abs_of_nonneg hq]
  rcases le_or_gt y.value 0 with hneg | hpos
  · exact le_abs.2 (.inr (by linarith))
  · rw [← valueOfBits_zero] at hpos
    have hunit : valueOfBits 1 ≤ y.value := le_value_of_lt hpos
    exact le_abs.2 (.inl (by linarith))

theorem isRounded_zero (hq : 0 ≤ q) (h : 2 * q ≤ valueOfBits 1) : IsRounded q zero := by
  refine ⟨by decide, fun _ => isNearest_zero hq h, fun hge => ?_⟩
  have hlargest := valueOfBits_strictMono (by decide : 1 < infinityBits)
  have hnonneg := valueOfBits_nonneg (infinityBits - 1)
  have htwo := two_mul_overflow
  linarith

theorem valueOfBits_one : valueOfBits 1 = 2 ^ (-1074 : ℤ) := by
  have hone : unitsOfBits 1 = 1 := by decide
  rw [valueOfBits, hone, Nat.cast_one, cast_oneUnits, one_div, zpow_neg]

/-! ## Powers of ten -/

theorem tenPow_pos (n : Nat) : 0 < tenPow n := Nat.pow_pos (by decide)

theorem cast_tenPow (k : Nat) : (tenPow k : ℚ) = 10 ^ k := by
  have hpow : tenPow k = 10 ^ k := rfl
  rw [hpow, Nat.cast_pow, Nat.cast_ofNat]

/-- The number of decimal digits is bounded by the number of bits. -/
theorem lt_tenPow_log2 (k : Nat) : k < tenPow (Nat.log2 k / 3 + 1) := by
  calc k < 2 ^ (Nat.log2 k + 1) := Nat.lt_log2_self
    _ ≤ 2 ^ (3 * (Nat.log2 k / 3 + 1)) := Nat.pow_le_pow_right (by decide) (by omega)
    _ = 8 ^ (Nat.log2 k / 3 + 1) := Nat.pow_mul 2 3 _
    _ ≤ tenPow (Nat.log2 k / 3 + 1) := Nat.pow_le_pow_left (by decide) _

/-- `10^-325` is less than half a unit. -/
theorem two_mul_tenPow_le : 2 * (10 : ℚ) ^ (-325 : ℤ) ≤ valueOfBits 1 := by
  have hpow : 2 ^ 1074 * 2 ≤ 10 ^ 325 := by decide +kernel
  obtain ⟨a, ha⟩ : ∃ a, a = 325 := ⟨_, rfl⟩
  obtain ⟨b, hb⟩ : ∃ b, b = 1074 := ⟨_, rfl⟩
  rw [← ha, ← hb] at hpow
  have hcast : (2 : ℚ) ^ b * 2 ≤ 10 ^ a := by exact_mod_cast hpow
  have hten : (-325 : ℤ) = -(a : ℤ) := by omega
  have htwo : (-1074 : ℤ) = -(b : ℤ) := by omega
  rw [valueOfBits_one, hten, htwo, zpow_neg, zpow_neg, zpow_natCast, zpow_natCast, ← div_eq_mul_inv,
    ← one_div, div_le_div_iff₀ (by positivity) (by positivity)]
  linarith

end Binary64

/-! ## Decimals -/

namespace Decimal

open Binary64

variable {d : Decimal}

theorem value_nonneg (d : Decimal) : 0 ≤ d.value := by
  rw [value]
  positivity

theorem value_ofNat (k n : Nat) :
    value ⟨k, .ofNat n⟩ = ((k * tenPow n * oneUnits : Nat) : ℚ) / (1 : Nat) / oneUnits := by
  rw [value, Int.ofNat_eq_natCast, zpow_natCast, Nat.cast_mul, Nat.cast_mul, cast_tenPow,
    Nat.cast_one, div_one, mul_div_cancel_right₀ _ cast_oneUnits_pos.ne']

theorem value_negSucc (k n : Nat) :
    value ⟨k, .negSucc n⟩ = ((k * oneUnits : Nat) : ℚ) / (tenPow (n + 1) : Nat) / oneUnits := by
  rw [value, zpow_negSucc, Nat.cast_mul, cast_tenPow, div_right_comm,
    mul_div_cancel_right₀ _ cast_oneUnits_pos.ne', div_eq_mul_inv]

theorem value_lt (d : Decimal) :
    d.value < 10 ^ (d.exponent + (Nat.log2 d.mantissa / 3 + 1 : Nat)) := by
  have hmantissa : (d.mantissa : ℚ) < 10 ^ (Nat.log2 d.mantissa / 3 + 1) := by
    exact_mod_cast lt_tenPow_log2 d.mantissa
  rw [value, add_comm, zpow_add₀ (by norm_num), zpow_natCast]
  exact mul_lt_mul_of_pos_right hmantissa (by positivity)

/-- The first test of the reader finds decimals that are not above half a unit. -/
theorem two_mul_value_le
    (h : d.mantissa = 0 ∨ d.exponent + (Nat.log2 d.mantissa / 3 + 1 : Nat) < -324) :
    2 * d.value ≤ valueOfBits 1 := by
  rcases h with hzero | htiny
  · rw [value, hzero, Nat.cast_zero, zero_mul, mul_zero]
    exact valueOfBits_nonneg 1
  · have hvalue : d.value ≤ 10 ^ (-325 : ℤ) :=
      (value_lt d).le.trans (zpow_le_zpow_right₀ (by norm_num) (by omega))
    linarith [two_mul_tenPow_le]

/-- The second test of the reader finds decimals above all doubles. -/
theorem overflow_le_value (hpos : 0 < d.mantissa) (h : 400 < d.exponent) : overflow ≤ d.value := by
  have hpow : 2 ^ 1024 ≤ 10 ^ 401 := by decide +kernel
  obtain ⟨a, ha⟩ : ∃ a, a = 401 := ⟨_, rfl⟩
  rw [← ha] at hpow
  have hmantissa : (1 : ℚ) ≤ d.mantissa := Nat.one_le_cast.2 hpos
  have hten : (10 : ℚ) ^ a ≤ 10 ^ d.exponent := by
    rw [← zpow_natCast]
    exact zpow_le_zpow_right₀ (by norm_num) (by omega)
  calc overflow ≤ 2 ^ 1024 := sub_le_self _ (by positivity)
    _ ≤ 10 ^ a := by exact_mod_cast hpow
    _ ≤ 10 ^ d.exponent := hten
    _ ≤ d.mantissa * 10 ^ d.exponent := le_mul_of_one_le_left (by positivity) hmantissa

end Decimal

namespace Binary64

variable {num den : Nat} {d : Decimal}

/-- **Decimals are read correctly rounded.** -/
theorem isRounded_ofDecimal (d : Decimal) : IsRounded d.value (ofDecimal d) := by
  unfold ofDecimal
  split
  · next h => exact isRounded_zero d.value_nonneg (Decimal.two_mul_value_le h)
  · next h =>
    rw [not_or] at h
    split
    · next hhuge =>
      exact isRounded_infinity (Decimal.overflow_le_value (Nat.pos_of_ne_zero h.1) hhuge)
    · obtain ⟨k, e⟩ := d
      cases e with
      | ofNat n =>
        rw [Decimal.value_ofNat]
        exact isRounded_ofRatio _ Nat.one_pos
      | negSucc n =>
        rw [Decimal.value_negSucc]
        exact isRounded_ofRatio _ (tenPow_pos _)

/-- Decimals are read as the ratios that they are. -/
theorem ofDecimal_eq_ofRatio (hden : 0 < den) (h : d.value = num / den / oneUnits) :
    ofDecimal d = ofRatio num den := by
  have hratio := isRounded_ofRatio num hden
  rw [← h] at hratio
  exact (isRounded_ofDecimal d).eq hratio

end Binary64

end GateIR

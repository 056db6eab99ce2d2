import GateIR.Binary64.Basic
import Mathlib.Tactic

/-!
# Rounding to the nearest double

A magnitude is `s · 2^e` units, with a significand `s` below `2^53` that has its leading bit unless
`e = 0`. The next magnitude is `(s + 1) · 2^e` units whether or not it carries into the exponent.

**Theorem (`nearestBits_eq_of_roundsTo`).** A ratio between the two midpoints around a nonzero
magnitude rounds to it, or to infinity where that is smaller; at a midpoint it does so when the last
bit of the magnitude is zero.

The spacing halves below a power of two, so a ratio may round up to a significand that has just its
leading bit while it has a smaller exponent itself. That is the one case in which the exponent of
the ratio is not the exponent of the result.
-/

namespace GateIR.Binary64

variable {m num den : Nat}

/-! ## Significand and exponent -/

/-- The number of units in `1` is a power of two, which is never evaluated. -/
theorem exists_oneUnits : ∃ n, n = 1074 ∧ oneUnits = 2 ^ n := by
  refine ⟨_, rfl, ?_⟩
  delta oneUnits
  generalize 1074 = n
  rw [Nat.shiftLeft_eq, Nat.one_mul]

theorem leadingBit_eq : leadingBit = 2 ^ 52 := rfl

theorem leadingBit_pos : 0 < leadingBit := by decide

/-- The power of two that scales the significand. -/
def exponentOf (m : Nat) : Nat := m / leadingBit - 1

/-- The significand with its leading bit. -/
def significandOf (m : Nat) : Nat := m - exponentOf m * leadingBit

theorem significandOf_add (m : Nat) : exponentOf m * leadingBit + significandOf m = m := by
  have h := Nat.div_mul_le_self m leadingBit
  have hle : exponentOf m * leadingBit ≤ m / leadingBit * leadingBit :=
    Nat.mul_le_mul_right _ (Nat.sub_le _ _)
  unfold significandOf
  omega

theorem significandOf_lt (m : Nat) : significandOf m < 2 * leadingBit := by
  unfold significandOf exponentOf leadingBit
  omega

theorem leadingBit_le_significandOf (h : 0 < exponentOf m) : leadingBit ≤ significandOf m := by
  unfold significandOf
  unfold exponentOf leadingBit at *
  omega

theorem unitsOfBits_eq (m : Nat) : unitsOfBits m = significandOf m * 2 ^ exponentOf m := by
  unfold unitsOfBits
  split
  · next h =>
    have he : exponentOf m = 0 := by rw [exponentOf, Nat.div_eq_of_lt h]
    rw [significandOf, he, Nat.zero_mul, Nat.sub_zero, pow_zero, Nat.mul_one]
  · next h =>
    have hs : leadingBit + m % leadingBit = significandOf m := by
      unfold significandOf exponentOf
      unfold leadingBit at *
      omega
    rw [hs, Nat.shiftLeft_eq, exponentOf]

/-- The step to the next magnitude, which may carry into the exponent. -/
theorem unitsOfBits_succ (m : Nat) :
    unitsOfBits (m + 1) = (significandOf m + 1) * 2 ^ exponentOf m := by
  rw [unitsOfBits_eq]
  by_cases h : significandOf m + 1 < 2 * leadingBit
  · have he : exponentOf (m + 1) = exponentOf m := by
      unfold significandOf at h
      unfold exponentOf leadingBit at *
      omega
    have hs : significandOf (m + 1) = significandOf m + 1 := by
      have h1 := significandOf_add m
      have h2 := significandOf_add (m + 1)
      rw [he] at h2
      omega
    rw [he, hs]
  · have he : exponentOf (m + 1) = exponentOf m + 1 := by
      unfold significandOf at h
      unfold exponentOf leadingBit at *
      omega
    have hs : 2 * significandOf (m + 1) = significandOf m + 1 := by
      have h1 := significandOf_add m
      have h2 := significandOf_add (m + 1)
      have h3 := significandOf_lt m
      rw [he, Nat.add_mul] at h2
      omega
    rw [he, ← hs]
    ring

theorem unitsOfBits_lt_succ (m : Nat) : unitsOfBits m < unitsOfBits (m + 1) := by
  rw [unitsOfBits_eq, unitsOfBits_succ]
  exact Nat.mul_lt_mul_of_pos_right (Nat.lt_succ_self _) (by positivity)

theorem unitsOfBits_strictMono : StrictMono unitsOfBits :=
  strictMono_nat_of_lt_succ unitsOfBits_lt_succ

/-- The step to the previous magnitude; below a power of two it is only half as large. -/
theorem unitsOfBits_pred (hm : 0 < m) :
    (1 ≤ significandOf m ∧ (exponentOf m = 0 ∨ leadingBit < significandOf m) ∧
        unitsOfBits (m - 1) = (significandOf m - 1) * 2 ^ exponentOf m) ∨
      ∃ e, exponentOf m = e + 1 ∧ significandOf m = leadingBit ∧
        unitsOfBits (m - 1) = (2 * leadingBit - 1) * 2 ^ e := by
  have hparts := significandOf_add m
  have hprev := significandOf_add (m - 1)
  rw [unitsOfBits_eq (m - 1)]
  by_cases h : exponentOf (m - 1) = exponentOf m
  · have hleading : exponentOf m = 0 ∨ leadingBit ≤ significandOf (m - 1) := by
      rw [← h]
      exact (Nat.eq_zero_or_pos _).imp_right leadingBit_le_significandOf
    rw [h] at hprev ⊢
    exact .inl ⟨by omega, by omega, by congr 1; omega⟩
  · have he : exponentOf m = exponentOf (m - 1) + 1 := by
      unfold exponentOf leadingBit at *
      omega
    have hs : significandOf (m - 1) < 2 * leadingBit := significandOf_lt _
    have hle := leadingBit_le_significandOf (m := m) (by omega)
    rw [he, Nat.add_mul, Nat.one_mul] at hparts
    refine .inr ⟨_, he, by omega, ?_⟩
    congr 1
    omega

/-! ## Rounding -/

/-- A ratio within half of the divisor of a multiple of it rounds to that multiple. -/
theorem roundHalfEven_eq {s : Nat} (hden : 0 < den) (hlow : 2 * (s * den) ≤ 2 * num + den)
    (hhigh : 2 * num ≤ 2 * (s * den) + den)
    (htie : s % 2 = 1 → 2 * (s * den) < 2 * num + den ∧ 2 * num < 2 * (s * den) + den) :
    roundHalfEven num den = s := by
  have hnum : den * (num / den) + num % den = num := Nat.div_add_mod num den
  have hr : num % den < den := Nat.mod_lt _ hden
  unfold roundHalfEven
  dsimp only
  generalize num / den = q at *
  generalize num % den = r at *
  have hq : s = q ∨ s = q + 1 := by
    have h1 : q ≤ s := by
      by_contra hlt
      have : (s + 1) * den ≤ q * den := Nat.mul_le_mul_right _ (by omega)
      nlinarith
    have h2 : s ≤ q + 1 := by
      by_contra hlt
      have : (q + 2) * den ≤ s * den := Nat.mul_le_mul_right _ (by omega)
      nlinarith
    omega
  rw [Nat.mul_comm] at hnum
  rcases hq with rfl | rfl
  · split
    · rfl
    · split
      · omega
      · have : s % 2 = 0 := by
          by_contra hodd
          have := htie (by omega)
          omega
        omega
  · rw [Nat.add_mul] at hlow hhigh htie
    split
    · omega
    · split
      · rfl
      · have : (q + 1) % 2 = 0 := by
          by_contra hodd
          have := htie (by omega)
          omega
        omega

theorem log2_div {k : Nat} (hden : 0 < den) (hlow : 2 ^ k * den ≤ num)
    (hhigh : num < 2 ^ (k + 1) * den) : Nat.log2 (num / den) = k := by
  have hlow' : 2 ^ k ≤ num / den := (Nat.le_div_iff_mul_le hden).2 hlow
  have hhigh' : num / den < 2 ^ (k + 1) := (Nat.div_lt_iff_lt_mul hden).2 hhigh
  have hpos : 0 < 2 ^ k := by positivity
  exact (Nat.log2_eq_iff (by omega)).2 ⟨hlow', hhigh'⟩

/-- A ratio of units lies between the midpoints around a magnitude; it may be one of them if the
last bit of the magnitude is zero. -/
structure RoundsTo (num den m : Nat) : Prop where
  low : (unitsOfBits (m - 1) + unitsOfBits m) * den ≤ 2 * num
  high : 2 * num ≤ (unitsOfBits m + unitsOfBits (m + 1)) * den
  strict : m % 2 = 1 → (unitsOfBits (m - 1) + unitsOfBits m) * den < 2 * num ∧
    2 * num < (unitsOfBits m + unitsOfBits (m + 1)) * den

/-- A ratio with `e` bits beyond the significand is rounded to a multiple of `2^e` units. -/
theorem nearestBits_eq_of_multiple {e s : Nat} (hden : 0 < den)
    (hleading : e = 0 ∨ leadingBit * (den * 2 ^ e) ≤ num)
    (hnum : num < 2 * leadingBit * (den * 2 ^ e))
    (hlow : 2 * (s * (den * 2 ^ e)) ≤ 2 * num + den * 2 ^ e)
    (hhigh : 2 * num ≤ 2 * (s * (den * 2 ^ e)) + den * 2 ^ e)
    (htie : s % 2 = 1 → 2 * (s * (den * 2 ^ e)) < 2 * num + den * 2 ^ e ∧
      2 * num < 2 * (s * (den * 2 ^ e)) + den * 2 ^ e) :
    nearestBits num den = min (e * leadingBit + s) infinityBits := by
  have hup : num < 2 ^ (53 + e) * den := by
    rw [pow_add, leadingBit_eq] at *
    linarith
  have he : Nat.log2 (num / den) - 52 = e := by
    rcases Nat.eq_zero_or_pos e with rfl | hpos
    · have hlt : num / den < 2 ^ 53 := (Nat.div_lt_iff_lt_mul hden).2 hup
      rcases Nat.eq_zero_or_pos (num / den) with hz | hz
      · rw [hz, Nat.log2_zero]
      · have := (Nat.log2_lt (by omega)).2 hlt
        omega
    · have hlow : 2 ^ (52 + e) * den ≤ num := by
        have := hleading.resolve_left (by omega)
        rw [pow_add]
        rw [leadingBit_eq] at this
        linarith
      rw [log2_div hden hlow (by rwa [Nat.add_right_comm])]
      omega
  have hround := roundHalfEven_eq (by positivity) hlow hhigh htie
  simp only [nearestBits, he, Nat.shiftLeft_eq, hround]

/-- Just below a power of two, rounding up carries into the next exponent. -/
theorem nearestBits_eq_of_carry {e : Nat} (hden : 0 < den)
    (hlow : ((2 * leadingBit - 1) * 2 ^ e + leadingBit * 2 ^ (e + 1)) * den ≤ 2 * num)
    (hbelow : num < leadingBit * (den * 2 ^ (e + 1))) :
    nearestBits num den = min ((e + 1) * leadingBit + leadingBit) infinityBits := by
  have hdown : ((2 * leadingBit - 1) * 2 ^ e + leadingBit * 2 ^ (e + 1)) * den + den * 2 ^ e =
      2 * (2 * leadingBit * (den * 2 ^ e)) := by
    obtain ⟨t, ht⟩ := Nat.exists_eq_add_of_le' leadingBit_pos
    rw [ht, show 2 * (t + 1) - 1 = 2 * t + 1 by omega]
    ring
  have htwice : leadingBit * (den * 2 ^ (e + 1)) = 2 * leadingBit * (den * 2 ^ e) := by ring
  have hpos : 0 < den * 2 ^ e := by positivity
  have hle : leadingBit * (den * 2 ^ e) + den * 2 ^ e ≤ 2 * leadingBit * (den * 2 ^ e) := by
    rw [← Nat.succ_mul]
    exact Nat.mul_le_mul_right _ (by decide)
  have hsum : (e + 1) * leadingBit + leadingBit = e * leadingBit + 2 * leadingBit := by ring
  rw [hsum]
  exact nearestBits_eq_of_multiple hden (.inr (by omega)) (by omega) (by omega) (by omega)
    (by omega)

/-- Twice the midpoint above a magnitude. -/
theorem midpoint_succ (m den : Nat) :
    (unitsOfBits m + unitsOfBits (m + 1)) * den =
      2 * (significandOf m * (den * 2 ^ exponentOf m)) + den * 2 ^ exponentOf m := by
  rw [unitsOfBits_succ, unitsOfBits_eq m]
  ring

/-- Beyond the finite magnitudes, a ratio rounds to infinity. -/
theorem nearestBits_eq_of_roundsTo (hm : 0 < m) (hden : 0 < den) (h : RoundsTo num den m) :
    nearestBits num den = min m infinityBits := by
  have hparts := significandOf_add m
  have hlt := significandOf_lt m
  have heven : leadingBit % 2 = 0 := by decide
  obtain ⟨hlow, hhigh, hstrict⟩ := h
  rw [midpoint_succ] at hhigh hstrict
  rw [unitsOfBits_eq m] at hlow hstrict
  have hpos : 0 < den * 2 ^ exponentOf m := by positivity
  have hnum : num < 2 * leadingBit * (den * 2 ^ exponentOf m) := by
    have : (significandOf m + 1) * (den * 2 ^ exponentOf m) ≤
      2 * leadingBit * (den * 2 ^ exponentOf m) := Nat.mul_le_mul_right _ hlt
    linarith
  have hodd : significandOf m % 2 = 1 → m % 2 = 1 := by
    have : exponentOf m * leadingBit % 2 = 0 := by
      rw [Nat.mul_mod, heven, Nat.mul_zero, Nat.zero_mod]
    omega
  rw [← hparts]
  rcases unitsOfBits_pred hm with ⟨hone, hleading, hpred⟩ | ⟨e, he, hs, hpred⟩
  · -- the midpoint below is half a multiple away
    have hdown :
        ((significandOf m - 1) * 2 ^ exponentOf m + significandOf m * 2 ^ exponentOf m) * den +
          den * 2 ^ exponentOf m = 2 * (significandOf m * (den * 2 ^ exponentOf m)) := by
      obtain ⟨t, ht⟩ := Nat.exists_eq_add_of_le' hone
      rw [ht, Nat.add_sub_cancel]
      ring
    rw [hpred] at hlow hstrict
    refine nearestBits_eq_of_multiple hden ?_ hnum (by omega) hhigh fun hs => ?_
    · refine hleading.imp_right fun hl => ?_
      have := Nat.mul_le_mul_right (den * 2 ^ exponentOf m) (Nat.succ_le_of_lt hl)
      rw [Nat.succ_mul] at this
      omega
    · have := hstrict (hodd hs)
      omega
  · -- the midpoint below is a quarter of a multiple away
    rw [hpred] at hlow
    rw [hs, he] at hhigh hlow ⊢
    rw [he] at hpos hnum
    by_cases hbelow : leadingBit * (den * 2 ^ (e + 1)) ≤ num
    · exact nearestBits_eq_of_multiple hden (.inr hbelow) hnum (by omega) hhigh (by omega)
    · exact nearestBits_eq_of_carry hden hlow (not_le.1 hbelow)

/-- A magnitude is nearest to its own value. -/
theorem roundsTo_unitsOfBits (hm : 0 < m) : RoundsTo (unitsOfBits m) 1 m := by
  have hlow := unitsOfBits_lt_succ (m - 1)
  rw [Nat.sub_add_cancel hm] at hlow
  have hhigh := unitsOfBits_lt_succ m
  exact ⟨by omega, by omega, fun _ => by omega⟩

theorem ofRatio_natCast (num den : Nat) :
    ofRatio num den = ofSignBits false (nearestBits num den) := by
  rw [ofRatio, Int.natAbs_natCast, decide_eq_false (by omega)]

theorem ofRatio_eq_of_roundsTo (hm : 0 < m) (hfin : m < infinityBits) (hden : 0 < den)
    (h : RoundsTo num den m) : ofRatio num den = ofSignBits false m := by
  rw [ofRatio_natCast, nearestBits_eq_of_roundsTo hm hden h, min_eq_left hfin.le]

/-- Values of finite magnitudes are not rounded. -/
theorem ofUnits_unitsOfBits (hfin : m < infinityBits) :
    ofUnits (unitsOfBits m : Int) = ofSignBits false m := by
  rcases Nat.eq_zero_or_pos m with rfl | hm
  · decide
  · exact ofRatio_eq_of_roundsTo hm hfin Nat.one_pos (roundsTo_unitsOfBits hm)

end GateIR.Binary64

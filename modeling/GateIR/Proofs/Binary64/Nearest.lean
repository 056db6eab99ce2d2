import GateIR.Proofs.Binary64.Rounding

/-!
# Every ratio rounds to a double

**Theorem (`exists_roundsTo`).** Every ratio lies between the midpoints around some magnitude, so
`RoundsTo` describes all of rounding: where that magnitude is finite it is the rounded ratio
(`nearestBits_eq`), and a ratio below a midpoint rounds below it (`nearestBits_lt`).

**Theorem (`exists_unitsOfBits_mod`).** The remainder of a double by a power of two is a double, so
it is not rounded.
-/

namespace GateIR.Binary64

variable {m k num den : Nat}

/-! ## Existence -/

theorem unitsOfBits_zero : unitsOfBits 0 = 0 := rfl

/-- The largest magnitude that is not above a ratio. -/
theorem exists_magnitude_le (num : Nat) (hden : 0 < den) :
    ∃ m, unitsOfBits m * den ≤ num ∧ num < unitsOfBits (m + 1) * den := by
  have hzero : unitsOfBits 0 * den ≤ num := by
    rw [unitsOfBits_zero, Nat.zero_mul]
    exact Nat.zero_le _
  let p := fun m => unitsOfBits m * den ≤ num
  refine ⟨Nat.findGreatest p num, Nat.findGreatest_spec (P := p) (Nat.zero_le _) hzero, ?_⟩
  by_contra hnext
  have hnext : p (Nat.findGreatest p num + 1) := not_lt.1 hnext
  have hunits : Nat.findGreatest p num + 1 ≤ unitsOfBits (Nat.findGreatest p num + 1) :=
    unitsOfBits_strictMono.le_apply
  have hbound := (hunits.trans (Nat.le_mul_of_pos_right _ hden)).trans hnext
  exact Nat.not_succ_le_self _ (Nat.le_findGreatest hbound hnext)

/-- A ratio that is not above the midpoint rounds down. -/
theorem roundsTo_down (hden : 0 < den) (hlow : unitsOfBits m * den ≤ num)
    (hmid : 2 * num ≤ (unitsOfBits m + unitsOfBits (m + 1)) * den)
    (htie : m % 2 = 1 → 2 * num < (unitsOfBits m + unitsOfBits (m + 1)) * den) :
    RoundsTo num den m := by
  have hprev : unitsOfBits (m - 1) * den ≤ unitsOfBits m * den :=
    Nat.mul_le_mul_right _ (unitsOfBits_strictMono.monotone (Nat.sub_le _ _))
  refine ⟨?_, hmid, fun hodd => ⟨?_, htie hodd⟩⟩
  · rw [Nat.add_mul]
    omega
  · have hprev : unitsOfBits (m - 1) * den < unitsOfBits m * den :=
      Nat.mul_lt_mul_of_pos_right (unitsOfBits_strictMono (by omega)) hden
    rw [Nat.add_mul]
    omega

/-- A ratio that is not below the midpoint rounds up. -/
theorem roundsTo_up (hden : 0 < den) (hhigh : num < unitsOfBits (m + 1) * den)
    (hmid : (unitsOfBits m + unitsOfBits (m + 1)) * den ≤ 2 * num)
    (htie : (m + 1) % 2 = 1 → (unitsOfBits m + unitsOfBits (m + 1)) * den < 2 * num) :
    RoundsTo num den (m + 1) := by
  have hnext : unitsOfBits (m + 1) * den < unitsOfBits (m + 1 + 1) * den :=
    Nat.mul_lt_mul_of_pos_right (unitsOfBits_lt_succ _) hden
  have hbelow : 2 * num < (unitsOfBits (m + 1) + unitsOfBits (m + 1 + 1)) * den := by
    rw [Nat.add_mul]
    omega
  exact ⟨hmid, hbelow.le, fun hodd => ⟨htie hodd, hbelow⟩⟩

/-- **Every ratio rounds to some magnitude.** -/
theorem exists_roundsTo (num : Nat) (hden : 0 < den) : ∃ m, RoundsTo num den m := by
  obtain ⟨m, hlow, hhigh⟩ := exists_magnitude_le num hden
  rcases lt_trichotomy (2 * num) ((unitsOfBits m + unitsOfBits (m + 1)) * den) with h | h | h
  · exact ⟨m, roundsTo_down hden hlow h.le fun _ => h⟩
  · by_cases heven : m % 2 = 0
    · exact ⟨m, roundsTo_down hden hlow h.le fun hodd => by omega⟩
    · exact ⟨m + 1, roundsTo_up hden hhigh h.ge fun hodd => by omega⟩
  · exact ⟨m + 1, roundsTo_up hden hhigh h.le fun _ => h⟩

/-! ## The rounded ratio -/

theorem nearestBits_le_infinityBits : nearestBits num den ≤ infinityBits := Nat.min_le_right _ _

/-- A ratio rounds to its magnitude, or to infinity where that is smaller. -/
theorem nearestBits_eq_min (hden : 0 < den) (h : RoundsTo num den m) :
    nearestBits num den = min m infinityBits := by
  rcases Nat.eq_zero_or_pos m with rfl | hm
  · have hhigh := h.high
    have hone : unitsOfBits (0 + 1) = 1 := by decide
    rw [unitsOfBits_zero, hone] at hhigh
    have hunit : nearestBits num den = min (0 * leadingBit + 0) infinityBits := by
      have hleading := Nat.mul_le_mul_right den leadingBit_pos
      refine nearestBits_eq_of_multiple hden (.inl rfl) ?_ (by omega) ?_ (by omega)
      · rw [pow_zero, Nat.mul_one, Nat.mul_assoc]
        omega
      · rw [pow_zero, Nat.mul_one]
        omega
    rw [hunit, Nat.zero_mul]
  · exact nearestBits_eq_of_roundsTo hm hden h

theorem nearestBits_eq (hfin : m < infinityBits) (hden : 0 < den) (h : RoundsTo num den m) :
    nearestBits num den = m := by
  rw [nearestBits_eq_min hden h, min_eq_left hfin.le]

theorem nearestBits_zero (hden : 0 < den) : nearestBits 0 den = 0 := by
  have hzero : RoundsTo 0 den 0 :=
    roundsTo_down hden (by simp [unitsOfBits_zero]) (by simp) (by simp)
  exact nearestBits_eq (by decide) hden hzero

/-- A ratio below a midpoint rounds below it. -/
theorem RoundsTo.lt (h : RoundsTo num den m)
    (hlow : 2 * num < (unitsOfBits (k - 1) + unitsOfBits k) * den) : m < k := by
  by_contra hle
  have hle := not_lt.1 hle
  have hprev := unitsOfBits_strictMono.monotone (Nat.sub_le_sub_right hle 1)
  have hsum := Nat.add_le_add hprev (unitsOfBits_strictMono.monotone hle)
  have hlow' := (Nat.mul_le_mul_right den hsum).trans h.low
  omega

theorem nearestBits_lt (hfin : k ≤ infinityBits) (hden : 0 < den)
    (h : 2 * num < (unitsOfBits (k - 1) + unitsOfBits k) * den) : nearestBits num den < k := by
  obtain ⟨m, hm⟩ := exists_roundsTo num hden
  have hlt := hm.lt h
  rwa [nearestBits_eq (hlt.trans_le hfin) hden hm]

/-- A ratio that is not above a magnitude does not round above it. -/
theorem RoundsTo.le (h : RoundsTo num den m) (hden : 0 < den) (hk : num ≤ unitsOfBits k * den) :
    m ≤ k := by
  have hnext := Nat.mul_lt_mul_of_pos_right (unitsOfBits_lt_succ k) hden
  have hlt : m < k + 1 := by
    refine h.lt ?_
    rw [Nat.add_sub_cancel, Nat.add_mul]
    omega
  exact Nat.le_of_lt_succ hlt

theorem nearestBits_le (hfin : k < infinityBits) (hden : 0 < den)
    (h : num ≤ unitsOfBits k * den) : nearestBits num den ≤ k := by
  obtain ⟨m, hm⟩ := exists_roundsTo num hden
  have hle := hm.le hden h
  rwa [nearestBits_eq (hle.trans_lt hfin) hden hm]

/-- Values of finite magnitudes are not rounded. -/
theorem nearestBits_unitsOfBits (hfin : m < infinityBits) : nearestBits (unitsOfBits m) 1 = m := by
  rcases Nat.eq_zero_or_pos m with rfl | hm
  · exact nearestBits_zero Nat.one_pos
  · exact nearestBits_eq hfin Nat.one_pos (roundsTo_unitsOfBits hm)

/-! ## Exact remainders -/

/-- A significand with any exponent is a magnitude. -/
theorem exists_unitsOfBits {s : Nat} (hs : s < 2 * leadingBit) (e : Nat) :
    ∃ m, unitsOfBits m = s * 2 ^ e := by
  induction e generalizing s with
  | zero =>
    refine ⟨s, ?_⟩
    have he : exponentOf s = 0 := by
      unfold exponentOf leadingBit at *
      omega
    rw [unitsOfBits_eq, significandOf, he, Nat.zero_mul, Nat.sub_zero]
  | succ e ih =>
    by_cases hleading : s < leadingBit
    · obtain ⟨m, hm⟩ := ih (s := 2 * s) (by omega)
      exact ⟨m, by rw [hm]; ring⟩
    · refine ⟨(e + 1) * leadingBit + s, ?_⟩
      have he : exponentOf ((e + 1) * leadingBit + s) = e + 1 := by
        unfold exponentOf leadingBit at *
        omega
      rw [unitsOfBits_eq, significandOf, he, Nat.add_sub_cancel_left]

/-- **The remainder by a power of two is exact.** -/
theorem exists_unitsOfBits_mod (m j : Nat) : ∃ r ≤ m, unitsOfBits r = unitsOfBits m % 2 ^ j := by
  have hr : ∃ r, unitsOfBits r = unitsOfBits m % 2 ^ j := by
    rw [unitsOfBits_eq m]
    rcases Nat.le_total j (exponentOf m) with hj | hj
    · have hdvd : 2 ^ j ∣ significandOf m * 2 ^ exponentOf m :=
        (pow_dvd_pow 2 hj).mul_left _
      exact ⟨0, by rw [Nat.mod_eq_zero_of_dvd hdvd, unitsOfBits_zero]⟩
    · have hpow : 2 ^ j = 2 ^ (j - exponentOf m) * 2 ^ exponentOf m := by
        rw [← pow_add, Nat.sub_add_cancel hj]
      rw [hpow, Nat.mul_mod_mul_right]
      exact exists_unitsOfBits ((Nat.mod_le _ _).trans_lt (significandOf_lt m)) _
  obtain ⟨r, hr⟩ := hr
  exact ⟨r, unitsOfBits_strictMono.le_iff_le.1 (hr.trans_le (Nat.mod_le _ _)), hr⟩

end GateIR.Binary64

import GateIR.Proofs.Binary64.Decimal

/-!
# Shortest decimals read back

**Theorem (`ofDecimal_shortestDecimal`).** The shortest decimal of a finite magnitude reads back to
it.

The search for it only ever gives points of the rounding interval, and every point of the interval
rounds to the magnitude.
-/

namespace GateIR.Binary64

variable {m k n : Nat}

/-! ## Scales -/

theorem tenPow_add (a b : Nat) : tenPow (a + b) = tenPow a * tenPow b := Nat.pow_add 10 a b

theorem exists_decimalsPerUnit : ∃ n, n = 1074 ∧ decimalsPerUnit = 5 ^ n := by
  refine ⟨_, rfl, ?_⟩
  delta decimalsPerUnit
  generalize 1074 = n
  rfl

theorem decimalsPerUnit_pos : 0 < decimalsPerUnit := by
  obtain ⟨n, -, hn⟩ := exists_decimalsPerUnit
  rw [hn]
  positivity

theorem cast_decimalsPerUnit : (decimalsPerUnit : ℚ) = 5 ^ (1074 : ℤ) := by
  obtain ⟨n, hn, hd⟩ := exists_decimalsPerUnit
  rw [hd, Nat.cast_pow, Nat.cast_ofNat, ← zpow_natCast, hn]
  rfl

/-! ## The rounding interval -/

theorem RoundingInterval.contains_iff {i : RoundingInterval} (h : i.low ≤ i.high) :
    i.contains n ↔ i.low ≤ 2 * n ∧ 2 * n ≤ i.high ∧
      (i.closed = false → i.low < 2 * n ∧ 2 * n < i.high) := by
  unfold contains
  cases i.closed with
  | true =>
    simp only [Bool.or_eq_true, Bool.and_eq_true, decide_eq_true_eq, true_and, reduceCtorEq,
      false_imp_iff, and_true]
    omega
  | false =>
    simp only [Bool.or_eq_true, Bool.and_eq_true, decide_eq_true_eq, reduceCtorEq, false_and,
      or_false, true_imp_iff]
    omega

theorem contains_iff : (RoundingInterval.ofBits m).contains n ↔
    (unitsOfBits (m - 1) + unitsOfBits m) * decimalsPerUnit ≤ 2 * n ∧
      2 * n ≤ (unitsOfBits m + unitsOfBits (m + 1)) * decimalsPerUnit ∧
      (m % 2 = 1 → (unitsOfBits (m - 1) + unitsOfBits m) * decimalsPerUnit < 2 * n ∧
        2 * n < (unitsOfBits m + unitsOfBits (m + 1)) * decimalsPerUnit) := by
  have hpred := unitsOfBits_strictMono.monotone (Nat.sub_le m 1)
  have hsucc := unitsOfBits_lt_succ m
  rw [RoundingInterval.contains_iff (Nat.mul_le_mul_right _ (by omega))]
  simp [RoundingInterval.ofBits]

/-- A point of the interval rounds to the magnitude. -/
theorem roundsTo_of_contains (h : (RoundingInterval.ofBits m).contains n) :
    RoundsTo n decimalsPerUnit m := by
  obtain ⟨hlow, hhigh, hstrict⟩ := contains_iff.1 h
  exact ⟨hlow, hhigh, hstrict⟩

theorem contains_value (hm : 0 < m) :
    (RoundingInterval.ofBits m).contains ((RoundingInterval.ofBits m).value / 2) := by
  have hlow := unitsOfBits_lt_succ (m - 1)
  rw [Nat.sub_add_cancel hm] at hlow
  have hhigh := unitsOfBits_lt_succ m
  have hvalue : 2 * ((RoundingInterval.ofBits m).value / 2) =
      2 * unitsOfBits m * decimalsPerUnit := by
    rw [RoundingInterval.ofBits, Nat.mul_assoc, Nat.mul_div_cancel_left _ (by decide)]
  have hlow' : (unitsOfBits (m - 1) + unitsOfBits m) * decimalsPerUnit <
      2 * unitsOfBits m * decimalsPerUnit :=
    Nat.mul_lt_mul_of_pos_right (by omega) decimalsPerUnit_pos
  have hhigh' : 2 * unitsOfBits m * decimalsPerUnit <
      (unitsOfBits m + unitsOfBits (m + 1)) * decimalsPerUnit :=
    Nat.mul_lt_mul_of_pos_right (by omega) decimalsPerUnit_pos
  rw [contains_iff, hvalue]
  exact ⟨hlow'.le, hhigh'.le, fun _ => ⟨hlow', hhigh'⟩⟩

/-! ## The search -/

namespace RoundingInterval

variable {i : RoundingInterval}

theorem contains_of_gridPoint? (h : i.gridPoint? n = some k) : i.contains (k * tenPow n) := by
  unfold gridPoint? at h
  dsimp only at h
  split at h
  · next hb =>
    cases h
    exact (Bool.and_eq_true_iff.1 hb).1
  · split at h
    · next ha =>
      cases h
      exact ha
    · cases h

/-- The search ends with a point of the interval. -/
theorem contains_coarsest (h : i.contains (i.value / 2)) (start : Nat) :
    ∃ n : Nat, (i.coarsest start).exponent = (n : Int) - 1074 ∧
      i.contains ((i.coarsest start).mantissa * tenPow n) := by
  induction start with
  | zero => exact ⟨0, rfl, by simpa [coarsest, tenPow] using h⟩
  | succ n ih =>
    unfold coarsest
    split
    · next k hk => exact ⟨n + 1, rfl, contains_of_gridPoint? hk⟩
    · exact ih

end RoundingInterval

/-! ## Reading a point of the interval -/

/-- A point of the interval reads back to the magnitude. -/
theorem ofDecimal_of_contains {d : Decimal} (hm : 0 < m) (hfin : m < infinityBits)
    (hn : d.exponent = (n : Int) - 1074)
    (h : (RoundingInterval.ofBits m).contains (d.mantissa * tenPow n)) :
    ofDecimal d = ofSignBits false m := by
  have hten : (5 : ℚ) * 2 = 10 := by norm_num
  have hscale : (decimalsPerUnit : ℚ) * oneUnits = 10 ^ (1074 : ℤ) := by
    rw [cast_decimalsPerUnit, cast_oneUnits, ← mul_zpow, hten]
  have hvalue : d.value = (d.mantissa * tenPow n : Nat) / decimalsPerUnit / oneUnits := by
    rw [div_div, hscale, Decimal.value, hn, zpow_sub₀ (by norm_num), zpow_natCast, Nat.cast_mul,
      cast_tenPow, mul_div_assoc]
  rw [ofDecimal_eq_ofRatio decimalsPerUnit_pos hvalue]
  exact ofRatio_eq_of_roundsTo hm hfin decimalsPerUnit_pos (roundsTo_of_contains h)

theorem contains_shortestDecimal (hm : 0 < m) :
    ∃ n : Nat, (shortestDecimal m).exponent = (n : Int) - 1074 ∧
      (RoundingInterval.ofBits m).contains ((shortestDecimal m).mantissa * tenPow n) := by
  rw [shortestDecimal, if_neg (by omega)]
  exact RoundingInterval.contains_coarsest (contains_value hm) _

theorem ofDecimal_shortestDecimal (hfin : m < infinityBits) :
    ofDecimal (shortestDecimal m) = ofSignBits false m := by
  rcases Nat.eq_zero_or_pos m with rfl | hm
  · rfl
  · obtain ⟨n, hn, h⟩ := contains_shortestDecimal hm
    exact ofDecimal_of_contains hm hfin hn h

end GateIR.Binary64

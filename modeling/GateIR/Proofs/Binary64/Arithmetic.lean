import GateIR.Proofs.Binary64.Nearest

/-!
# Double arithmetic

The IEEE 754 operations on all doubles: the exact result is rounded once, to nearest with ties to
even. An exact sum of zero is `+0` unless both terms are `-0`. A remainder has the sign of the
dividend and is exact. Comparisons are numeric: the two zeros are equal, and NaN is not equal to
anything.

**Numbers by sign and magnitude.** A double is its sign and its magnitude (`ofSignBits_magnitude`),
and all operations act on these two.
-/

namespace GateIR.Binary64

/-! ## Operations -/

def nan : Binary64 := ⟨0x7ff8000000000000⟩

def negativeZero : Binary64 := ⟨0x8000000000000000⟩

def isNaN (x : Binary64) : Bool := infinityBits < x.magnitude

def add (x y : Binary64) : Binary64 :=
  match x.units?, y.units? with
  | some m, some n =>
    if m + n = 0 then ofSignBits (x.isNegative && y.isNegative) 0 else ofUnits (m + n)
  | none, some _ => x
  | some _, none => y
  | none, none => if x.isNaN then x else if y.isNaN || x = y then y else nan

def sub (x y : Binary64) : Binary64 := x.add y.neg

def mul (x y : Binary64) : Binary64 :=
  let negative := x.isNegative != y.isNegative
  match x.units?, y.units? with
  | some m, some n => ofSignBits negative (nearestBits (m.natAbs * n.natAbs) oneUnits)
  | _, _ =>
    if x.isNaN then x else if y.isNaN then y
    else if x.magnitude = 0 ∨ y.magnitude = 0 then nan
    else ofSignBits negative infinityBits

def div (x y : Binary64) : Binary64 :=
  let negative := x.isNegative != y.isNegative
  match x.units?, y.units? with
  | some m, some n =>
    if n ≠ 0 then ofSignBits negative (nearestBits (m.natAbs * oneUnits) n.natAbs)
    else if m = 0 then nan
    else ofSignBits negative infinityBits
  | none, some _ => if x.isNaN then x else ofSignBits negative infinityBits
  | some _, none => if y.isNaN then y else ofSignBits negative 0
  | none, none => if x.isNaN then x else if y.isNaN then y else nan

/-- The remainder of the quotient that is rounded towards zero. -/
def rem (x y : Binary64) : Binary64 :=
  match x.units?, y.units? with
  | some m, some n =>
    if n = 0 then nan else ofSignBits x.isNegative (nearestBits (m.natAbs % n.natAbs) 1)
  | none, _ => if x.isNaN then x else if y.isNaN then y else nan
  | some _, none => if y.isNaN then y else x

/-! ## Comparisons -/

/-- The place of a number; both zeros share one, since magnitudes are ordered as their bits are. -/
def rank (x : Binary64) : Int := if x.isNegative then -x.magnitude else x.magnitude

instance : LT Binary64 := ⟨fun x y => x.isNaN = false ∧ y.isNaN = false ∧ x.rank < y.rank⟩

instance : LE Binary64 := ⟨fun x y => x.isNaN = false ∧ y.isNaN = false ∧ x.rank ≤ y.rank⟩

/-- Numeric equality. -/
def Equals (x y : Binary64) : Prop := x.isNaN = false ∧ y.isNaN = false ∧ x.rank = y.rank

instance (x y : Binary64) : Decidable (x < y) :=
  inferInstanceAs (Decidable (x.isNaN = false ∧ y.isNaN = false ∧ x.rank < y.rank))

instance (x y : Binary64) : Decidable (x ≤ y) :=
  inferInstanceAs (Decidable (x.isNaN = false ∧ y.isNaN = false ∧ x.rank ≤ y.rank))

instance (x y : Binary64) : Decidable (x.Equals y) :=
  inferInstanceAs (Decidable (x.isNaN = false ∧ y.isNaN = false ∧ x.rank = y.rank))

/-! ## Sign and magnitude -/

section Parts

variable {m : Nat} (negative : Bool)

/-- Flipping the bit above a number adds it. -/
theorem xor_two_pow {n : Nat} (h : m < 2 ^ n) : m ^^^ 2 ^ n = 2 ^ n + m := by
  apply Nat.eq_of_testBit_eq
  intro i
  rw [Nat.testBit_xor, Nat.testBit_two_pow]
  rcases Nat.lt_trichotomy i n with hi | rfl | hi
  · simp [Nat.testBit_two_pow_add_gt hi, hi.ne']
  · rw [Nat.testBit_two_pow_add_eq]
    simp
  · have hsum : 2 ^ n + m < 2 ^ i := by
      have := Nat.pow_le_pow_right (n := 2) (by decide) hi
      rw [pow_succ] at this
      omega
    rw [Nat.testBit_lt_two_pow hsum, Nat.testBit_lt_two_pow (by omega)]
    simp [hi.ne]

theorem toNat_ofSignBits (h : m < signBit) :
    (ofSignBits negative m).bits.toNat = if negative then signBit + m else m := by
  have hsize : signBit + signBit = UInt64.size := by decide
  refine UInt64.toNat_ofNat_of_lt ?_
  split <;> omega

theorem magnitude_ofSignBits (h : m < signBit) : (ofSignBits negative m).magnitude = m := by
  rw [magnitude, toNat_ofSignBits negative h]
  split
  · rw [Nat.add_mod_left, Nat.mod_eq_of_lt h]
  · exact Nat.mod_eq_of_lt h

theorem isNegative_ofSignBits (h : m < signBit) :
    (ofSignBits negative m).isNegative = negative := by
  rw [isNegative, toNat_ofSignBits negative h]
  cases negative with
  | false => exact decide_eq_false (not_le.2 h)
  | true => exact decide_eq_true (Nat.le_add_right _ _)

theorem neg_ofSignBits (h : m < signBit) :
    (ofSignBits negative m).neg = ofSignBits (!negative) m := by
  have hx : m ^^^ signBit = signBit + m := xor_two_pow (n := 63) h
  unfold neg ofSignBits
  rw [Binary64.mk.injEq, ← UInt64.ofNat_xor]
  cases negative with
  | false => exact congrArg UInt64.ofNat hx
  | true =>
    refine congrArg UInt64.ofNat ?_
    show (signBit + m) ^^^ signBit = m
    rw [← hx, Nat.xor_assoc, Nat.xor_self, Nat.xor_zero]

theorem units?_ofSignBits (h : m < infinityBits) :
    (ofSignBits negative m).units? =
      some (if negative then -(unitsOfBits m : Int) else unitsOfBits m) := by
  have hsign : m < signBit := h.trans (by decide)
  rw [units?, isFinite, magnitude_ofSignBits negative hsign, isNegative_ofSignBits negative hsign,
    if_pos (decide_eq_true h)]

theorem units?_infinity : (ofSignBits negative infinityBits).units? = none := by
  cases negative <;> decide

theorem isNaN_ofSignBits (h : m ≤ infinityBits) : (ofSignBits negative m).isNaN = false := by
  rw [isNaN, magnitude_ofSignBits negative (h.trans_lt (by decide))]
  exact decide_eq_false (not_lt.2 h)

theorem rank_ofSignBits (h : m < signBit) :
    (ofSignBits negative m).rank = if negative then -(m : Int) else m := by
  rw [rank, magnitude_ofSignBits negative h, isNegative_ofSignBits negative h]

end Parts

theorem ofSignBits_magnitude (x : Binary64) : ofSignBits x.isNegative x.magnitude = x := by
  have hsize : signBit + signBit = UInt64.size := by decide
  have hlt := x.bits.toNat_lt_size
  have hbits : (if x.isNegative then signBit + x.magnitude else x.magnitude) = x.bits.toNat := by
    unfold isNegative magnitude
    by_cases h : signBit ≤ x.bits.toNat
    · rw [if_pos (by simpa using h), Nat.mod_eq_sub_mod h, Nat.mod_eq_of_lt (by omega)]
      omega
    · rw [if_neg (by simpa using h), Nat.mod_eq_of_lt (by omega)]
  rw [ofSignBits, hbits, UInt64.ofNat_toNat]

theorem isFinite_iff {x : Binary64} : x.isFinite ↔ x.magnitude < infinityBits := decide_eq_true_iff

/-- A finite number is its sign and a finite magnitude. -/
theorem exists_ofSignBits {x : Binary64} {n : Int} (h : x.units? = some n) :
    ∃ negative, ∃ m < infinityBits, x = ofSignBits negative m ∧
      n = if negative then -(unitsOfBits m : Int) else unitsOfBits m := by
  have hfin : x.isFinite := by
    by_contra hfin
    rw [units?, if_neg hfin] at h
    cases h
  refine ⟨x.isNegative, x.magnitude, isFinite_iff.1 hfin, x.ofSignBits_magnitude.symm, ?_⟩
  rw [units?, if_pos hfin] at h
  exact (Option.some.inj h).symm

/-! ## Values -/

section Values

variable {x y : Binary64} {m n : Int}

theorem oneUnits_pos : 0 < oneUnits := by decide +kernel

theorem units?_signedZero (negative : Bool) : (ofSignBits negative 0).units? = some 0 := by
  cases negative <;> decide

/-- Values of finite numbers are not rounded. -/
theorem units?_ofUnits (h : x.units? = some m) : (ofUnits m).units? = some m := by
  obtain ⟨negative, k, hk, -, rfl⟩ := exists_ofSignBits h
  have habs : (if negative then -(unitsOfBits k : Int) else unitsOfBits k).natAbs =
      unitsOfBits k := by
    cases negative <;> simp
  rw [ofUnits, ofRatio, habs, nearestBits_unitsOfBits hk, units?_ofSignBits _ hk]
  cases negative <;> simp

theorem units?_neg (h : x.units? = some m) : x.neg.units? = some (-m) := by
  obtain ⟨negative, k, hk, rfl, rfl⟩ := exists_ofSignBits h
  rw [neg_ofSignBits negative (hk.trans (by decide)), units?_ofSignBits _ hk]
  cases negative <;> simp

/-- A sum is the rounded exact sum, up to the sign of zero. -/
theorem units?_add (hx : x.units? = some m) (hy : y.units? = some n) :
    (x.add y).units? = (ofUnits (m + n)).units? := by
  rw [add, hx, hy]
  dsimp only
  split
  · next hzero =>
    rw [hzero, units?_signedZero]
    decide
  · rfl

/-- A quotient by a positive number is the rounded exact quotient, up to the sign of zero. -/
theorem units?_div {d : Nat} (hx : x.units? = some m) (hy : y.units? = some (d : Int))
    (hd : 0 < d) (hpos : y.isNegative = false) :
    (x.div y).units? = (ofRatio (m * oneUnits) d).units? := by
  have hdiv : x.div y = ofSignBits x.isNegative (nearestBits (m.natAbs * oneUnits) d) := by
    rw [div, hx, hy, hpos]
    dsimp only
    rw [if_pos (by omega), Int.natAbs_natCast, Bool.bne_false]
  obtain ⟨negative, k, hk, rfl, rfl⟩ := exists_ofSignBits hx
  rw [hdiv, isNegative_ofSignBits negative (hk.trans (by decide)), ofRatio, Int.natAbs_mul,
    Int.natAbs_natCast]
  rcases Nat.eq_zero_or_pos k with rfl | hk
  · have hzero : (if negative then -(unitsOfBits 0 : Int) else unitsOfBits 0) = 0 := by
      rw [unitsOfBits_zero]
      simp
    rw [hzero, Int.natAbs_zero, Nat.zero_mul, nearestBits_zero hd, units?_signedZero,
      units?_signedZero]
  · have hunits : 0 < unitsOfBits k := unitsOfBits_strictMono hk
    have hone := oneUnits_pos
    have hsign :
        decide ((if negative then -(unitsOfBits k : Int) else unitsOfBits k) * oneUnits < 0) =
          negative := by
      cases negative with
      | false =>
        exact decide_eq_false (not_lt.2 (mul_nonneg (Int.natCast_nonneg _) (Int.natCast_nonneg _)))
      | true => exact decide_eq_true (mul_neg_of_neg_of_pos (by simpa using hunits) (by omega))
    rw [hsign]

end Values

end GateIR.Binary64

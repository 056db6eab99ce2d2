import GateIR.Json.Attribute
import GateIR.Proofs.Angle.Doubles
import GateIR.Proofs.Text.Parsing

/-!
# Every produced angle is canonical

Angles come from doubles, radians, JSON data and text, and from earlier angles by arithmetic. A run
of such operations (`Operation`, `run`) can be carried out on angles or on bare doubles.

**Step (`result?_map`).** An operation on doubles gives the coefficient of what it gives on angles.

**Theorem (`produced_canonical`).** In a run of any length, the doubles are the coefficients of the
angles, each is finite, at least `0`, below `2` and not `-0`, and its product with `π` is at least
`0` and below `2π`. So two of the angles are equal bit for bit when their coefficients are equal
numbers.

The product with `π` is rounded. The largest coefficient is `2 - 2^-52`, and the exact product then
lies further below `2π` than half the distance of `2π` to the double before it.
-/

namespace GateIR

open Text (Token Lexeme DerivesNumber DerivesMagnitude DerivesAngle)

/-! ## Canonical doubles -/

namespace Binary64

/-- A finite number in `[0, 2)` that is not `-0`. -/
structure Canonical (x : Binary64) : Prop where
  finite : x.isFinite
  nonneg : zero ≤ x
  lt_two : x < two
  ne_negativeZero : x ≠ negativeZero

end Binary64

namespace Angle

open Binary64 (Canonical ofSignBits nearestBits unitsOfBits oneUnits infinityBits)

variable (a b : Angle)

theorem isNaN_coefficient : a.coefficient.isNaN = false := by
  rw [Binary64.isNaN, magnitude_coefficient]
  exact decide_eq_false (not_lt.2 a.bits_lt_infinityBits.le)

theorem rank_coefficient : a.coefficient.rank = a.bits := by
  rw [Binary64.rank, a.isNegative_coefficient, a.magnitude_coefficient]
  rfl

theorem canonical_coefficient : Canonical a.coefficient where
  finite := by
    rw [Binary64.isFinite_iff, magnitude_coefficient]
    exact a.bits_lt_infinityBits
  nonneg := by
    refine ⟨by decide, a.isNaN_coefficient, ?_⟩
    rw [rank_coefficient, Binary64.rank_zero]
    exact Int.natCast_nonneg _
  lt_two := by
    have hrank : Binary64.two.rank = (Binary64.two.bits.toNat : Int) := by decide
    refine ⟨a.isNaN_coefficient, by decide, ?_⟩
    rw [rank_coefficient, hrank]
    exact_mod_cast a.bits_lt
  ne_negativeZero := by
    intro h
    have hneg := a.isNegative_coefficient
    rw [h] at hneg
    exact absurd hneg (by decide)

/-- Equality of coefficients as numbers is equality of bits. -/
theorem eq_iff_equals {a b : Angle} : a = b ↔ a.coefficient.Equals b.coefficient := by
  constructor
  · rintro rfl
    exact ⟨a.isNaN_coefficient, a.isNaN_coefficient, rfl⟩
  · intro h
    have hrank := h.2.2
    rw [rank_coefficient, rank_coefficient, Int.ofNat_inj] at hrank
    have hcoefficient : a.coefficient = b.coefficient :=
      congrArg Binary64.mk (UInt64.toNat_inj.1 hrank)
    cases a
    cases b
    congr

/-! ## Radians -/

theorem two_mul_pi : Binary64.two.mul .pi = ⟨0x401921fb54442d18⟩ := by decide +kernel

/-- Even the product of the largest coefficient with `π` lies below the midpoint before `2π`. -/
theorem units_mul_pi_lt :
    2 * (a.units * unitsOfBits Binary64.pi.bits.toNat) <
      (unitsOfBits (0x401921fb54442d18 - 1) + unitsOfBits 0x401921fb54442d18) * oneUnits := by
  have hle : a.units ≤ unitsOfBits (Binary64.two.bits.toNat - 1) :=
    Binary64.unitsOfBits_strictMono.monotone (Nat.le_sub_one_of_lt a.bits_lt)
  have hlargest : 2 * (unitsOfBits (Binary64.two.bits.toNat - 1) *
      unitsOfBits Binary64.pi.bits.toNat) <
      (unitsOfBits (0x401921fb54442d18 - 1) + unitsOfBits 0x401921fb54442d18) * oneUnits := by
    decide +kernel
  exact (Nat.mul_le_mul_left 2 (Nat.mul_le_mul_right _ hle)).trans_lt hlargest

theorem radians_bounds : Binary64.zero ≤ a.radians ∧ a.radians < Binary64.two.mul .pi := by
  have hlt := Binary64.nearestBits_lt (by decide) Binary64.oneUnits_pos a.units_mul_pi_lt
  have hradians : a.radians = ofSignBits false (nearestBits
      (a.units * unitsOfBits Binary64.pi.bits.toNat) oneUnits) := by
    rw [radians, Binary64.ofRatio_natCast]
  generalize nearestBits (a.units * unitsOfBits Binary64.pi.bits.toNat) oneUnits = k at *
  have hnan := Binary64.isNaN_ofSignBits false (hlt.le.trans (by decide))
  have hrank : (ofSignBits false k).rank = k :=
    Binary64.rank_ofSignBits false (hlt.trans (by decide))
  rw [hradians, two_mul_pi]
  refine ⟨⟨by decide, hnan, ?_⟩, ⟨hnan, by decide, ?_⟩⟩
  · rw [hrank, Binary64.rank_zero]
    exact Int.natCast_nonneg _
  · have hrankTwoPi : (⟨0x401921fb54442d18⟩ : Binary64).rank = 0x401921fb54442d18 := by decide
    rw [hrank, hrankTwoPi]
    exact_mod_cast hlt

end Angle

/-! ## Angles in text, as doubles -/

namespace Binary64

open Text.Parser (coefficient?)

/-- The number that the tokens of an angle without its sign stand for. -/
def magnitude? : List Token → Option Binary64
  | [] => some zero
  | [.pi] => some one
  | [t] => if coefficient? t = some zero then some zero else none
  | [t, .pi] => coefficient? t
  | _ => none

/-- The number that the tokens of an angle stand for. -/
def number? : List Token → Option Binary64
  | .symbol .minus :: ts => (magnitude? ts).map neg
  | ts => magnitude? ts

/-- The reduced number of an angle in text. -/
def parseReduced (text : String) : Option Binary64 := do
  let ls ← (Lexeme.ofText text).toOption
  let x ← number? (ls.map Lexeme.token)
  return x.reduceTwo

theorem magnitude?_eq_some_iff {ts : List Token} {x : Binary64} :
    magnitude? ts = some x ↔ DerivesMagnitude ts x := by
  constructor
  · intro h
    unfold magnitude? at h
    split at h
    · cases h
      exact .empty
    · cases h
      exact .pi
    · split at h
      · next hzero =>
        cases h
        exact .zero (Text.Parser.coefficient?_eq_some_iff.1 hzero)
      · cases h
    · exact .multiple (Text.Parser.coefficient?_eq_some_iff.1 h)
    · cases h
  · intro h
    cases h with
    | empty => rfl
    | pi => rfl
    | @zero t ht =>
      have hzero := Text.Parser.coefficient?_eq_some_iff.2 ht
      cases t with
      | pi => cases hzero
      | _ => simp [magnitude?, hzero]
    | @multiple t _ ht =>
      have hx := Text.Parser.coefficient?_eq_some_iff.2 ht
      cases t <;> exact hx

/-- A number without sign does not start with one. -/
theorem number?_of_magnitude {ts : List Token} {x : Binary64} (h : DerivesMagnitude ts x) :
    number? ts = some x := by
  have hmagnitude := magnitude?_eq_some_iff.2 h
  unfold number?
  split
  · cases h with
    | zero ht => exact absurd rfl (Text.Parser.ne_symbol_of_derivesNumber ht .minus)
    | multiple ht => exact absurd rfl (Text.Parser.ne_symbol_of_derivesNumber ht .minus)
  · exact hmagnitude

/-- An angle is the reduced number that its tokens stand for. -/
theorem derivesAngle_iff {ts : List Token} {a : Angle} :
    DerivesAngle ts a ↔ ∃ x, number? ts = some x ∧ .reduce x = a := by
  constructor
  · intro h
    cases h with
    | unsigned hx => exact ⟨_, number?_of_magnitude hx, rfl⟩
    | negative hx => exact ⟨_, congrArg (Option.map neg) (magnitude?_eq_some_iff.2 hx), rfl⟩
  · intro h
    obtain ⟨x, hx, rfl⟩ := h
    unfold number? at hx
    split at hx
    · obtain ⟨y, hy, rfl⟩ := Option.map_eq_some_iff.1 hx
      exact .negative (magnitude?_eq_some_iff.1 hy)
    · exact .unsigned (magnitude?_eq_some_iff.1 hx)

/-- Angles in text are read as reduced numbers. -/
theorem map_coefficient_parse (text : String) :
    (Angle.parse text).toOption.map Angle.coefficient = parseReduced text := by
  cases hlex : Lexeme.ofText text with
  | error e =>
    rw [Angle.parse, Text.Parser.parse, parseReduced, hlex]
    rfl
  | ok ls =>
    have hall : Text.Takes (ls.map Lexeme.token) ls [] := by
      have htake := Text.Takes.map_token ls []
      rwa [List.append_nil] at htake
    rw [Angle.parse, parseReduced, hlex]
    cases hnumber : number? (ls.map Lexeme.token) with
    | some x =>
      have hends : Text.Parser.EndsAngle [] := by simp [Text.Parser.EndsAngle]
      have hrun := Text.Parser.angle_complete (derivesAngle_iff.2 ⟨x, hnumber, rfl⟩) hall hends
      rw [(Text.Parser.parse_eq_ok_iff hlex).2 hrun]
      simp [Except.toOption, hnumber, Angle.coefficient_reduce]
    | none =>
      cases hparse : Text.Parser.angle.parse text with
      | error e => simp [Except.toOption, hnumber]
      | ok a =>
        obtain ⟨ts, hts, htake⟩ := Text.Parser.angle_sound
          ((Text.Parser.parse_eq_ok_iff hlex).1 hparse)
        obtain ⟨used, rfl, hls⟩ := Text.Takes.iff_exists.1 htake
        obtain ⟨x, hx, -⟩ := derivesAngle_iff.1 hts
        rw [List.append_nil] at hls
        rw [hls, hx] at hnumber
        cases hnumber

end Binary64

/-! ## Runs of operations -/

/-- The operations on angles, as a representation of angles has them. -/
structure AngleArithmetic (α : Type) where
  reduce : Binary64 → α
  ofRadians : Binary64 → α
  decode : Json → Option α
  parse : String → Option α
  add : α → α → α
  sub : α → α → α
  neg : α → α

namespace AngleArithmetic

def angles : AngleArithmetic Angle where
  reduce := .reduce
  ofRadians := .ofRadians
  decode := Codec.decode
  parse text := (Angle.parse text).toOption
  add a b := a + b
  sub a b := a - b
  neg a := -a

/-- Angles as bare doubles, every result of double arithmetic reduced. -/
def doubles : AngleArithmetic Binary64 where
  reduce := .reduceTwo
  ofRadians r := (r.div .pi).reduceTwo
  decode j := (Codec.decode j).map Binary64.reduceTwo
  parse := Binary64.parseReduced
  add x y := (x.add y).reduceTwo
  sub x y := (x.sub y).reduceTwo
  neg x := x.neg.reduceTwo

end AngleArithmetic

/-- An operation on angles; angles that were made before go by their positions. -/
inductive AngleOperation where
  | reduce (x : Binary64)
  | ofRadians (r : Binary64)
  | decode (j : Json)
  | parse (text : String)
  | add (i j : Nat)
  | sub (i j : Nat)
  | neg (i : Nat)

namespace AngleOperation

variable {α : Type}

/-- The new angle, if there is one. -/
def result? (A : AngleArithmetic α) (made : List α) : AngleOperation → Option α
  | reduce x => some (A.reduce x)
  | ofRadians r => some (A.ofRadians r)
  | decode j => A.decode j
  | parse text => A.parse text
  | add i j => return A.add (← made[i]?) (← made[j]?)
  | sub i j => return A.sub (← made[i]?) (← made[j]?)
  | neg i => return A.neg (← made[i]?)

/-- All angles that the operations make, in order. -/
def run (A : AngleArithmetic α) (ops : List AngleOperation) : List α :=
  ops.foldl (fun made op => made ++ (op.result? A made).toList) []

open AngleArithmetic (angles doubles)

/-- **Step.** Operations on doubles give the coefficients of what they give on angles. -/
theorem result?_map (op : AngleOperation) (made : List Angle) :
    op.result? doubles (made.map Angle.coefficient) =
      (op.result? angles made).map Angle.coefficient := by
  cases op with
  | reduce x => exact congrArg some (Angle.coefficient_reduce x).symm
  | ofRadians r => exact congrArg some (Angle.coefficient_ofRadians r).symm
  | decode j =>
    change (Codec.decode j).map Binary64.reduceTwo =
      ((Codec.decode j).map Angle.reduce).map Angle.coefficient
    rw [Option.map_map]
    exact congrFun (congrArg Option.map (funext fun x => (Angle.coefficient_reduce x).symm)) _
  | parse text => exact (Binary64.map_coefficient_parse text).symm
  | add i j =>
    simp only [result?, List.getElem?_map]
    cases made[i]? <;> cases made[j]? <;> try rfl
    exact congrArg some (Angle.coefficient_add _ _).symm
  | sub i j =>
    simp only [result?, List.getElem?_map]
    cases made[i]? <;> cases made[j]? <;> try rfl
    exact congrArg some (Angle.coefficient_sub _ _).symm
  | neg i =>
    simp only [result?, List.getElem?_map]
    cases made[i]? with
    | none => rfl
    | some a => exact congrArg some (Angle.coefficient_neg a).symm

/-- **Run.** -/
theorem run_map (ops : List AngleOperation) :
    run doubles ops = (run angles ops).map Angle.coefficient := by
  induction ops using List.reverseRecOn with
  | nil => rfl
  | append_singleton ops op ih =>
    have hlast {α : Type} (A : AngleArithmetic α) :
        run A (ops ++ [op]) = run A ops ++ (op.result? A (run A ops)).toList := by
      simp [run]
    rw [hlast, hlast, ih, result?_map, List.map_append]
    cases op.result? angles (run angles ops) <;> rfl

/-- **Every produced angle is canonical.** -/
theorem produced_canonical (ops : List AngleOperation) :
    run doubles ops = (run angles ops).map Angle.coefficient ∧
      (∀ x ∈ run doubles ops, x.Canonical) ∧
      (∀ a ∈ run angles ops, a.radians = a.coefficient.mul .pi ∧ .zero ≤ a.radians ∧
        a.radians < Binary64.two.mul .pi) ∧
      ∀ a ∈ run angles ops, ∀ b ∈ run angles ops,
        a = b ↔ a.coefficient.Equals b.coefficient := by
  have hrun := run_map ops
  refine ⟨hrun, ?_, ?_, fun a _ b _ => Angle.eq_iff_equals⟩
  · intro x hx
    rw [hrun] at hx
    obtain ⟨a, -, rfl⟩ := List.mem_map.1 hx
    exact a.canonical_coefficient
  · exact fun a _ => ⟨a.radians_eq_mul, a.radians_bounds⟩

end AngleOperation

end GateIR

import GateIR.Proofs.Angle.Numeral

/-!
# Numerals of digits alone

Digits may stand for the width of an integer type, for the number of qubits of a gate type, for an
integer attribute and for the coefficient of an angle. The digits of a width belong to a word, all
others are a token, and the token of twenty digits or more is a double, whatever number they spell.

Each place reads all strings of digits by one equation: `parse_width`, `parse_arity`,
`parse_natural` and `parse_minus` for integers, `parse_coefficient` and `parse_minus_coefficient`
for angles.

**Theorem (`leadingZeros_ignored_or_refused`).** Zeros in front of a width or of a coefficient
change nothing. Where an integer token is needed they change nothing up to nineteen digits, zeros
included, and a longer numeral is refused.

So it is not true that zeros may be put in front of any numeral (`not_forall_parse_leadingZeros`).
-/

namespace GateIR

open Text Text.Parser
open Binary64 (ofDecimal)

variable {ds : List Char} {ts : List Token} {text : String}

namespace Text

/-! ## Tokens -/

theorem spells_digits (hne : ds ≠ []) (hdigits : ∀ c ∈ ds, c.isDigit) :
    Spells ds [.ofNumeral ⟨ds, none, none⟩] := fun _ _ h =>
  scan_token (read?_digits_append hne hdigits h.numeral)

theorem spells_width (hdigits : ∀ c ∈ ds, c.isDigit) :
    Spells ('i' :: ds) [.word (String.ofList ('i' :: ds))] := by
  intro line rest h
  have hword : ∀ c ∈ ds, Token.continuesWord c := fun c hc => by
    simp [Token.continuesWord, Char.isAlphanum, hdigits c hc]
  rw [List.cons_append, scan_word rfl rfl hword h]
  simp [Token.ofWord]

theorem spells_arity (hne : ds ≠ []) (hdigits : ∀ c ∈ ds, c.isDigit) :
    Spells ("!gate.type<" ++ String.ofList ds ++ ">").toList
      ([.symbol .bang, .word "gate", .symbol .dot, .word "type"] ++
        angled [.ofNumeral ⟨ds, none, none⟩]) := by
  intro line rest h
  have hgreater : StopsAt continuesToken ('>' :: rest) := by
    simp [continuesToken, Token.continuesWord]
  have hnumber := spells_digits hne hdigits line _ hgreater
  simp [angled, scan_cons, Token.read?, Token.startsWord, Token.continuesWord, Symbol.ofChar?,
    Token.ofWord, hnumber]

/-! ## Integers in parsers -/

/-- What is said of digits that are a double, where something else is expected. -/
def tooLong (expected : String) (ds : List Char) : Error :=
  .unexpectedToken 1 expected (ofDecimal ⟨digitsValue ds, 0⟩).text

namespace Parser

/-- A text is answered as its tokens are, when none of them is left. -/
theorem parse_of_run {α : Type} {p : Parser α} {x : Except Error α} (h : Spells text.toList ts)
    (hrun : p.run (ts.map (Lexeme.mk · 1)) = (·, []) <$> x) : p.parse text = x := by
  rw [parse, ofText_of_spells h]
  cases x with
  | ok a => simp [andThen, hrun, finish, bind, Except.bind, pure, Except.pure]
  | error e => simp [andThen, hrun, bind, Except.bind]

theorem run_word32 (ds : List Char) (rest : List Lexeme) :
    word32.run (⟨.ofNumeral ⟨ds, none, none⟩, 1⟩ :: rest) =
      if ds.length < 20 then
        if digitsValue ds < UInt32.size then .ok (.ofNat (digitsValue ds), rest)
        else .error (.unexpectedToken 1 "32-bit integer" (digitsValue ds).repr)
      else .error (tooLong "integer" ds) := by
  rw [ofNumeral_digits]
  split
  · simp only [word32, run_bind, andThen, run_integer]
    split <;> rfl
  · rfl

theorem run_int64 (n : Nat) :
    int64.run [⟨.int n, 1⟩] =
      if n < 2 ^ 63 then .ok (.ofInt n, [])
      else .error (.unexpectedToken 1 "64-bit integer" n.repr) := by
  have hrange : (Int64.minValue.toInt ≤ (n : Int) ∧ (n : Int) ≤ Int64.maxValue.toInt) ↔
      n < 2 ^ 63 := by
    rw [Int64.toInt_minValue, Int64.toInt_maxValue]
    omega
  simp only [int64, run_bind, andThen, run_accept, reduceCtorEq, if_false, run_integer,
    Bool.false_eq_true, hrange]
  split <;> rfl

theorem run_int64_minus (n : Nat) :
    int64.run [⟨.symbol .minus, 1⟩, ⟨.int n, 1⟩] =
      if n ≤ 2 ^ 63 then .ok (.ofInt (-n), [])
      else .error (.unexpectedToken 1 "64-bit integer" (-n : Int).repr) := by
  have hrange : (Int64.minValue.toInt ≤ -(n : Int) ∧ -(n : Int) ≤ Int64.maxValue.toInt) ↔
      n ≤ 2 ^ 63 := by
    rw [Int64.toInt_minValue, Int64.toInt_maxValue]
    omega
  simp only [int64, run_bind, andThen, run_accept, if_true, run_integer, hrange]
  split <;> rfl

end Parser

end Text

/-! ## Places -/

/-- A letter and digits are no type when they spell too large a number. -/
theorem Ty.ofWord?_eq_none {kind : Char} (hdigits : ∀ c ∈ ds, c.isDigit)
    (h : ¬ digitsValue ds < UInt32.size) : Ty.ofWord? (String.ofList (kind :: ds)) = none := by
  rw [Ty.ofWord?, if_neg (ofList_ne_index hdigits), String.toList_ofList]
  exact if_neg fun hwidth => h hwidth.2.2

theorem parse_width (hne : ds ≠ []) (hdigits : ∀ c ∈ ds, c.isDigit) :
    Ty.parse ("i" ++ String.ofList ds) =
      if digitsValue ds < UInt32.size then .ok (.int (.ofNat (digitsValue ds)))
      else .error (.unknownType ("i" ++ String.ofList ds)) := by
  have htext : "i" ++ String.ofList ds = String.ofList ('i' :: ds) := String.toList_inj.1 (by simp)
  have hspells : Spells (String.ofList ('i' :: ds)).toList [.word (String.ofList ('i' :: ds))] := by
    rw [String.toList_ofList]
    exact spells_width hdigits
  rw [htext]
  refine parse_of_run hspells ?_
  simp only [ty, List.map_cons, List.map_nil, run_bind, andThen, token, lexeme, run_pure]
  by_cases hsize : digitsValue ds < UInt32.size
  · rw [ofWord?_ofList hne hdigits hsize, if_pos hsize]
    rfl
  · rw [Ty.ofWord?_eq_none hdigits hsize, if_neg hsize]
    rfl

theorem parse_arity (hne : ds ≠ []) (hdigits : ∀ c ∈ ds, c.isDigit) :
    Ty.parse ("!gate.type<" ++ String.ofList ds ++ ">") =
      if ds.length < 20 then
        if digitsValue ds < UInt32.size then .ok (.gate (.ofNat (digitsValue ds)))
        else .error (.unexpectedToken 1 "32-bit integer" (digitsValue ds).repr)
      else .error (tooLong "integer" ds) := by
  refine parse_of_run (spells_arity hne hdigits) ?_
  simp only [ty, markedTy, angled, List.cons_append, List.nil_append, List.map_cons, List.map_nil,
    run_bind, andThen, token, lexeme, run_pure, run_identifier, String.reduceEq, if_false, if_true,
    run_expect, run_keyword, run_word32]
  split_ifs <;> rfl

/-- An integer attribute without a sign. -/
theorem parse_natural (hne : ds ≠ []) (hdigits : ∀ c ∈ ds, c.isDigit) :
    Attribute.parse (String.ofList ds) =
      if ds.length < 20 then
        if digitsValue ds < 2 ^ 63 then .ok (.int (.ofInt (digitsValue ds)))
        else .error (.unexpectedToken 1 "64-bit integer" (digitsValue ds).repr)
      else .error (tooLong "attribute" ds) := by
  have hspells : Spells (String.ofList ds).toList [.ofNumeral ⟨ds, none, none⟩] := by
    rw [String.toList_ofList]
    exact spells_digits hne hdigits
  refine parse_of_run hspells ?_
  rw [ofNumeral_digits]
  split
  · simp only [attr, List.map_cons, List.map_nil, run_bind, andThen, run_peek, run_int64]
    split_ifs <;> rfl
  · rfl

/-- A minus may stand before zero too, although zero is printed without one. -/
theorem parse_minus (hne : ds ≠ []) (hdigits : ∀ c ∈ ds, c.isDigit) :
    Attribute.parse ("-" ++ String.ofList ds) =
      if ds.length < 20 then
        if digitsValue ds ≤ 2 ^ 63 then .ok (.int (.ofInt (-(digitsValue ds))))
        else .error (.unexpectedToken 1 "64-bit integer" (-(digitsValue ds) : Int).repr)
      else .error (tooLong "integer" ds) := by
  have hspells : Spells ("-" ++ String.ofList ds).toList
      [.symbol .minus, .ofNumeral ⟨ds, none, none⟩] := by
    simpa using (spells_digits hne hdigits).minus
  refine parse_of_run hspells ?_
  rw [ofNumeral_digits]
  split
  · simp only [attr, List.map_cons, List.map_nil, run_bind, andThen, run_peek, run_int64_minus]
    split_ifs <;> rfl
  · rfl

theorem parse_coefficient (hne : ds ≠ []) (hdigits : ∀ c ∈ ds, c.isDigit) :
    Angle.parse (String.ofList ds ++ "pi") = .ok (.reduce (ofDecimal ⟨digitsValue ds, 0⟩)) := by
  simpa [Numeral.text, Numeral.value_digits] using
    parse_multiple (Numeral.valid_digits hne hdigits)

theorem parse_minus_coefficient (hne : ds ≠ []) (hdigits : ∀ c ∈ ds, c.isDigit) :
    Angle.parse ("-" ++ String.ofList ds ++ "pi") =
      .ok (.reduce (ofDecimal ⟨digitsValue ds, 0⟩).neg) := by
  simpa [Numeral.text, Numeral.value_digits] using
    parse_negative_multiple (Numeral.valid_digits hne hdigits)

/-! ## Leading zeros -/

@[simp] theorem tooLong_padded (k : Nat) (expected : String) :
    tooLong expected (padded k ds) = tooLong expected ds := by
  rw [tooLong, tooLong, digitsValue_padded]

/-- **Leading zeros are ignored, or the numeral is refused.** -/
theorem leadingZeros_ignored_or_refused (hne : ds ≠ []) (hdigits : ∀ c ∈ ds, c.isDigit) (k : Nat) :
    (∀ t, Ty.parse ("i" ++ String.ofList (padded k ds)) = .ok t ↔
      Ty.parse ("i" ++ String.ofList ds) = .ok t) ∧
    (∃ a, Angle.parse (String.ofList ds ++ "pi") = .ok a ∧
      Angle.parse (String.ofList (padded k ds) ++ "pi") = .ok a) ∧
    (∃ a, Angle.parse ("-" ++ String.ofList ds ++ "pi") = .ok a ∧
      Angle.parse ("-" ++ String.ofList (padded k ds) ++ "pi") = .ok a) ∧
    if k + ds.length < 20 then
      Ty.parse ("!gate.type<" ++ String.ofList (padded k ds) ++ ">") =
        Ty.parse ("!gate.type<" ++ String.ofList ds ++ ">") ∧
      Attribute.parse (String.ofList (padded k ds)) = Attribute.parse (String.ofList ds) ∧
      Attribute.parse ("-" ++ String.ofList (padded k ds)) =
        Attribute.parse ("-" ++ String.ofList ds)
    else
      Ty.parse ("!gate.type<" ++ String.ofList (padded k ds) ++ ">") =
        .error (tooLong "integer" ds) ∧
      Attribute.parse (String.ofList (padded k ds)) = .error (tooLong "attribute" ds) ∧
      Attribute.parse ("-" ++ String.ofList (padded k ds)) = .error (tooLong "integer" ds) := by
  have hne' : padded k ds ≠ [] := padded_ne_nil hne
  have hdigits' : ∀ c ∈ padded k ds, c.isDigit := isDigit_padded hdigits
  refine ⟨fun t => ?_, ⟨_, parse_coefficient hne hdigits, ?_⟩,
    ⟨_, parse_minus_coefficient hne hdigits, ?_⟩, ?_⟩
  · rw [parse_width hne hdigits, parse_width hne' hdigits', digitsValue_padded]
    split
    · rfl
    · simp
  · rw [parse_coefficient hne' hdigits', digitsValue_padded]
  · rw [parse_minus_coefficient hne' hdigits', digitsValue_padded]
  · rw [parse_arity hne' hdigits', parse_natural hne' hdigits', parse_minus hne' hdigits']
    simp only [length_padded, digitsValue_padded, tooLong_padded]
    split
    · next h =>
      have hlength : ds.length < 20 := by omega
      rw [parse_arity hne hdigits, parse_natural hne hdigits, parse_minus hne hdigits,
        if_pos hlength, if_pos hlength, if_pos hlength]
      exact ⟨rfl, rfl, rfl⟩
    · exact ⟨rfl, rfl, rfl⟩

/-- Up to nineteen digits the zeros are ignored, and the twentieth is one too many. -/
theorem leadingZeros_ignored_or_refused_one :
    ['1'] ≠ [] ∧ (∀ c ∈ ['1'], c.isDigit) ∧
      Ty.parse "!gate.type<0000000000000000001>" = Ty.parse "!gate.type<1>" ∧
      Ty.parse "!gate.type<00000000000000000001>" =
        .error (.unexpectedToken 1 "integer" "1") ∧
      (∀ t, Ty.parse "i00000000000000000001" = .ok t ↔ Ty.parse "i1" = .ok t) ∧
      ∃ a, Angle.parse "1pi" = .ok a ∧ Angle.parse "00000000000000000001pi" = .ok a := by
  have hne : ['1'] ≠ [] := by decide
  have hdigits : ∀ c ∈ ['1'], c.isDigit := List.all_eq_true.1 (by decide)
  have hfound : tooLong "integer" ['1'] = .unexpectedToken 1 "integer" "1" := by decide +kernel
  obtain ⟨-, -, -, hshort⟩ := leadingZeros_ignored_or_refused hne hdigits 18
  obtain ⟨hwidth, hangle, -, hlong⟩ := leadingZeros_ignored_or_refused hne hdigits 19
  rw [if_pos (by decide)] at hshort
  rw [if_neg (by decide), hfound] at hlong
  exact ⟨hne, hdigits, hshort.1, hlong.1, hwidth, hangle⟩

/-- A number of qubits with nineteen zeros in front is no integer. -/
theorem not_forall_parse_leadingZeros :
    ¬ ∀ (ds : List Char) (k : Nat), ds ≠ [] → (∀ c ∈ ds, c.isDigit) →
      ∀ t, Ty.parse ("!gate.type<" ++ String.ofList ds ++ ">") = .ok t →
        Ty.parse ("!gate.type<" ++ String.ofList (padded k ds) ++ ">") = .ok t := by
  intro h
  have hdigits : ∀ c ∈ ['1'], c.isDigit := List.all_eq_true.1 (by decide)
  have hone : Ty.parse ("!gate.type<" ++ String.ofList ['1'] ++ ">") = .ok (.gate 1) := by
    decide +kernel
  have hpadded := h ['1'] 19 (by decide) hdigits _ hone
  revert hpadded
  decide +kernel

end GateIR

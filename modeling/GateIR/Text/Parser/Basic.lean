import GateIR.Text.Lexeme

/-!
# Parsers

A parser takes lexemes from the front of a list, and gives a value or an error. The type holds the fact
that the lexemes left over are never more than those there were, so that a parser that takes a lexeme
in each round can be repeated.

`Parser.Consumes` is the stronger property of taking at least one lexeme. A sequence has it as soon as
one of its parts has.
-/

namespace GateIR.Text

/-- A parser of lexemes. -/
structure Parser (α : Type) where
  run : List Lexeme → Except Error (α × List Lexeme)
  length_le : ∀ {ts a rest}, run ts = .ok (a, rest) → rest.length ≤ ts.length

namespace Parser

variable {α β : Type}

/-! ## Sequences -/

/-- Runs a parser, then another on what it leaves. -/
def andThen (p : Parser α) (f : α → Parser β) (ts : List Lexeme) :
    Except Error (β × List Lexeme) :=
  match p.run ts with
  | .ok (a, rest) => (f a).run rest
  | .error e => .error e

theorem andThen_eq_ok {p : Parser α} {f : α → Parser β} {ts rest : List Lexeme} {b : β} :
    p.andThen f ts = .ok (b, rest) ↔
      ∃ a mid, p.run ts = .ok (a, mid) ∧ (f a).run mid = .ok (b, rest) := by
  unfold andThen
  cases p.run ts with
  | ok r => obtain ⟨a, mid⟩ := r; simp [and_assoc]
  | error e => simp

instance : Monad Parser where
  pure a := ⟨fun ts => .ok (a, ts), fun h => by cases h; exact Nat.le_refl _⟩
  bind p f := ⟨p.andThen f, fun h => by
    obtain ⟨a, mid, hp, hf⟩ := andThen_eq_ok.1 h
    exact Nat.le_trans ((f a).length_le hf) (p.length_le hp)⟩

@[simp] theorem run_pure (a : α) (ts : List Lexeme) : (pure a : Parser α).run ts = .ok (a, ts) := rfl

@[simp] theorem run_bind (p : Parser α) (f : α → Parser β) (ts : List Lexeme) :
    (p >>= f).run ts = p.andThen f ts := rfl

/-- Takes at least one lexeme when it succeeds. -/
def Consumes (p : Parser α) : Prop :=
  ∀ ts a rest, p.run ts = .ok (a, rest) → rest.length < ts.length

theorem Consumes.bind_left {p : Parser α} (hp : p.Consumes) (f : α → Parser β) :
    (p >>= f).Consumes := fun _ _ _ h => by
  obtain ⟨a, mid, hp', hf⟩ := andThen_eq_ok.1 h
  exact Nat.lt_of_le_of_lt ((f a).length_le hf) (hp _ _ _ hp')

theorem Consumes.bind_right (p : Parser α) {f : α → Parser β} (hf : ∀ a, (f a).Consumes) :
    (p >>= f).Consumes := fun _ _ _ h => by
  obtain ⟨a, mid, hp, hf'⟩ := andThen_eq_ok.1 h
  exact Nat.lt_of_lt_of_le (hf a _ _ _ hf') (p.length_le hp)

/-! ## Single lexemes -/

/-- Fails. -/
def fail (e : Error) : Parser α := ⟨fun _ => .error e, nofun⟩

/-- Looks at the lexemes without taking any. -/
def lookahead (f : List Lexeme → α) : Parser α :=
  ⟨fun ts => .ok (f ts, ts), fun h => by cases h; exact Nat.le_refl _⟩

/-- The next token, if there is one. -/
def peek : Parser (Option Token) := lookahead fun ts => ts.head?.map (·.token)

/-- Takes a lexeme whose token is accepted, and gives its line too; two texts say what was expected
when there is none and when there is another. -/
def lexeme (atEnd expected : String) (f : Token → Option α) : Parser (α × Nat) where
  run
    | [] => .error (.unexpectedEnd atEnd)
    | t :: ts =>
      match f t.token with
      | some a => .ok ((a, t.line), ts)
      | none => .error (.unexpectedToken t.line expected t.token.text)
  length_le {ts a rest} h := by
    split at h
    · cases h
    · split at h <;> cases h
      exact Nat.le_succ _

theorem consumes_lexeme (atEnd expected : String) (f : Token → Option α) :
    (lexeme atEnd expected f).Consumes := fun ts a rest h => by
  unfold lexeme at h
  dsimp only at h
  split at h
  · cases h
  · split at h <;> cases h
    exact Nat.lt_succ_self _

/-- Takes a lexeme if there is one and its token is accepted. -/
def lexeme? (f : Token → Option α) : Parser (Option (α × Nat)) where
  run
    | [] => .ok (none, [])
    | t :: ts =>
      match f t.token with
      | some a => .ok (some (a, t.line), ts)
      | none => .ok (none, t :: ts)
  length_le {ts a rest} h := by
    split at h
    · cases h; exact Nat.le_refl _
    · split at h <;> cases h
      · exact Nat.le_succ _
      · exact Nat.le_refl _

/-- Takes a token of one kind. -/
def token (expected : String) (f : Token → Option α) : Parser α :=
  lexeme expected expected f >>= fun (a, _) => pure a

theorem consumes_token (expected : String) (f : Token → Option α) :
    (token expected f).Consumes := Consumes.bind_left (consumes_lexeme _ _ _) _

/-- Takes a given token, and gives its line. -/
def expectAt (t : Token) : Parser Nat :=
  lexeme ("expected " ++ t.text) t.text (fun u => if u = t then some () else none) >>=
    fun (_, line) => pure line

/-- Takes a given token. -/
def expect (t : Token) : Parser Unit := expectAt t >>= fun _ => pure ()

/-- Takes a given token if it comes next, and says whether it did. -/
def accept (t : Token) : Parser Bool :=
  lexeme? (fun u => if u = t then some () else none) >>= fun o => pure o.isSome

/-- Takes a given word. -/
def keyword (name : String) : Parser Unit :=
  token ("'" ++ name ++ "'") fun t => if t = .word name then some () else none

/-- Takes a word. -/
def identifier : Parser String :=
  token "identifier" fun
    | .word name => some name
    | _ => none

/-- Takes the name of a value. -/
def valueName : Parser String :=
  token "value" fun
    | .value name => some name
    | _ => none

/-- Takes an integer, and gives its line too. -/
def integer : Parser (Nat × Nat) :=
  lexeme "integer" "integer" fun
    | .int n => some n
    | _ => none

/-! ## Repetition -/

/-- One or more items with commas between them. -/
def separated (p : Parser α) (ts : List Lexeme) : Except Error (List α × List Lexeme) :=
  match _h : p.run ts with
  | .error e => .error e
  | .ok (a, ⟨.symbol .comma, _⟩ :: rest) =>
    match separated p rest with
    | .ok (as, rest) => .ok (a :: as, rest)
    | .error e => .error e
  | .ok (a, rest) => .ok ([a], rest)
termination_by ts.length
decreasing_by
  have := p.length_le ‹_›
  simp only [List.length_cons] at this
  omega

theorem length_separated {p : Parser α} {ts rest : List Lexeme} {as : List α}
    (h : separated p ts = .ok (as, rest)) : rest.length ≤ ts.length := by
  fun_induction separated p ts generalizing as rest with
  | case1 => cases h
  | case2 ts a line mid hp as' rest' hr ih =>
    cases h
    have := p.length_le hp
    have := ih hr
    simp only [List.length_cons] at *
    omega
  | case3 => cases h
  | case4 ts a mid _ hp => cases h; exact p.length_le hp

/-- One or more items with commas between them. -/
def commaSeparated (p : Parser α) : Parser (List α) := ⟨separated p, length_separated⟩

/-- Items up to a closing token, which is left in place; a text says what is missing when the lexemes
end before it. -/
def itemsUntil (close : Token) (atEnd : String) (p : Parser α) (hp : p.Consumes) (ts : List Lexeme) :
    Except Error (List α × List Lexeme) :=
  match ts with
  | [] => .error (.unexpectedEnd atEnd)
  | t :: more =>
    if t.token = close then .ok ([], t :: more)
    else
      match _h : p.run (t :: more) with
      | .error e => .error e
      | .ok (a, rest) =>
        match itemsUntil close atEnd p hp rest with
        | .ok (as, rest) => .ok (a :: as, rest)
        | .error e => .error e
termination_by ts.length
decreasing_by exact hp _ _ _ ‹_›

theorem length_itemsUntil {close : Token} {atEnd : String} {p : Parser α} {hp : p.Consumes}
    {ts rest : List Lexeme} {as : List α} (h : itemsUntil close atEnd p hp ts = .ok (as, rest)) :
    rest.length ≤ ts.length := by
  fun_induction itemsUntil close atEnd p hp ts generalizing as rest with
  | case1 => cases h
  | case2 => cases h; exact Nat.le_refl _
  | case3 => cases h
  | case4 t more _ a mid hr as' rest' hu ih =>
    cases h
    exact Nat.le_trans (ih hu) (p.length_le hr)
  | case5 => cases h

/-- Items up to a closing token, which is left in place. -/
def manyUntil (close : Token) (atEnd : String) (p : Parser α) (hp : p.Consumes) : Parser (List α) :=
  ⟨itemsUntil close atEnd p hp, length_itemsUntil⟩

/-! ## Whole texts -/

/-- Fails unless all lexemes have been taken. -/
def finish : Parser Unit where
  run
    | [] => .ok ((), [])
    | t :: _ => .error (.unexpectedToken t.line "end of input" t.token.text)
  length_le {ts a rest} h := by
    split at h <;> cases h
    exact Nat.le_refl _

/-- Reads a whole text. -/
def parse (p : Parser α) (text : String) : Except Error α := do
  let ts ← Lexeme.ofText text
  let (a, _) ← (p >>= fun a => finish >>= fun _ => pure a).run ts
  return a

end Parser

end GateIR.Text

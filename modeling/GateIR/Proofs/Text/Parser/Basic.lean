import GateIR.Proofs.Text.Grammar
import GateIR.Text.Parser.Basic

/-!
# Recognizing tokens and lists

A parser recognizes a rule (`Recognizes`) when its runs are just the derivations of the rule: it
succeeds with a value on lexemes that start with tokens which derive the value, and leaves the rest
of them (`Takes`).

Each single lexeme is recognized by what it is. A list with commas is recognized where no comma goes
on, since the parser takes as many items as there are.
-/

namespace GateIR.Text

/-! ## Taking tokens -/

/-- The lexemes start with the given tokens, and the rest is left. -/
inductive Takes : List Token → List Lexeme → List Lexeme → Prop
  | nil {rest : List Lexeme} : Takes [] rest rest
  | cons {t : Token} {ts : List Token} {line : Nat} {ls rest : List Lexeme} :
      Takes ts ls rest → Takes (t :: ts) (⟨t, line⟩ :: ls) rest

namespace Takes

variable {t : Token} {ts us : List Token} {ls mid rest : List Lexeme}

@[simp] theorem nil_iff : Takes [] ls rest ↔ ls = rest := by
  constructor
  · intro h
    cases h
    rfl
  · intro h
    subst h
    exact .nil

@[simp] theorem cons_iff :
    Takes (t :: ts) ls rest ↔ ∃ line more, ls = ⟨t, line⟩ :: more ∧ Takes ts more rest := by
  constructor
  · intro h
    cases h with
    | cons h => exact ⟨_, _, rfl, h⟩
  · intro h
    rcases h with ⟨line, more, rfl, h⟩
    exact .cons h

theorem map_token (used rest : List Lexeme) :
    Takes (used.map Lexeme.token) (used ++ rest) rest := by
  induction used with
  | nil => exact .nil
  | cons l used ih => exact .cons ih

/-- What is taken are lexemes with the given tokens. -/
theorem iff_exists :
    Takes ts ls rest ↔ ∃ used : List Lexeme, used.map Lexeme.token = ts ∧ ls = used ++ rest := by
  constructor
  · intro h
    induction h with
    | nil => exact ⟨[], rfl, rfl⟩
    | @cons t ts line ls rest _ ih =>
      obtain ⟨used, rfl, rfl⟩ := ih
      exact ⟨⟨t, line⟩ :: used, rfl, rfl⟩
  · intro h
    rcases h with ⟨used, rfl, rfl⟩
    exact map_token used rest

theorem append (h : Takes ts ls mid) (h' : Takes us mid rest) : Takes (ts ++ us) ls rest := by
  induction h with
  | nil => exact h'
  | cons _ ih => exact .cons (ih h')

theorem append_iff :
    Takes (ts ++ us) ls rest ↔ ∃ mid, Takes ts ls mid ∧ Takes us mid rest := by
  constructor
  · intro h
    obtain ⟨used, hused, rfl⟩ := iff_exists.1 h
    obtain ⟨first, second, rfl, rfl, rfl⟩ := List.map_eq_append_iff.1 hused
    rw [List.append_assoc]
    exact ⟨_, map_token first _, map_token second rest⟩
  · intro h
    rcases h with ⟨mid, h, h'⟩
    exact h.append h'

theorem angled_iff :
    Takes (angled ts) ls rest ↔ ∃ line more close, ls = ⟨.symbol .less, line⟩ :: more ∧
      Takes ts more (⟨.symbol .greater, close⟩ :: rest) := by
  simp only [angled, cons_iff, append_iff, nil_iff]
  constructor
  · intro h
    rcases h with ⟨line, more, rfl, _, h, close, _, rfl, rfl⟩
    exact ⟨line, more, close, rfl, h⟩
  · intro h
    rcases h with ⟨line, more, close, rfl, h⟩
    exact ⟨line, more, rfl, _, h, close, _, rfl, rfl⟩

theorem gateName_iff {name : String} :
    Takes (gateName name) ls rest ↔ ∃ l1 l2 l3 l4, ls =
      ⟨.symbol .hash, l1⟩ :: ⟨.word "gate", l2⟩ :: ⟨.symbol .dot, l3⟩ :: ⟨.word name, l4⟩ ::
        rest := by
  simp [gateName]

theorem opcode_iff {dialect name : String} :
    Takes (opcode dialect name) ls rest ↔ ∃ l1 l2 l3,
      ls = ⟨.word dialect, l1⟩ :: ⟨.symbol .dot, l2⟩ :: ⟨.word name, l3⟩ :: rest := by
  simp [opcode]

end Takes

namespace Parser

variable {α : Type} {line : Nat} {ts : List Token} {ls rest : List Lexeme}

/-- The parser takes just what the rule derives. -/
structure Recognizes (p : Parser α) (derives : List Token → α → Prop) : Prop where
  sound {ls rest : List Lexeme} {a : α} : p.run ls = .ok (a, rest) →
    ∃ ts, derives ts a ∧ Takes ts ls rest
  complete {ls rest : List Lexeme} {ts : List Token} {a : α} : derives ts a → Takes ts ls rest →
    p.run ls = .ok (a, rest)

theorem Recognizes.run_eq_ok_iff {p : Parser α} {derives : List Token → α → Prop}
    (h : Recognizes p derives) {a : α} :
    p.run ls = .ok (a, rest) ↔ ∃ ts, derives ts a ∧ Takes ts ls rest := by
  constructor
  · exact h.sound
  · intro hex
    obtain ⟨ts, ha, htake⟩ := hex
    exact h.complete ha htake

/-! ## Single lexemes -/

theorem lexeme_eq_ok_iff {atEnd expected : String} {f : Token → Option α} {a : α} :
    (lexeme atEnd expected f).run ls = .ok ((a, line), rest) ↔
      ∃ t, f t = some a ∧ ls = ⟨t, line⟩ :: rest := by
  cases ls with
  | nil => simp [lexeme]
  | cons l ls =>
    obtain ⟨t, n⟩ := l
    cases h : f t with
    | none =>
      simp only [lexeme, h, reduceCtorEq, List.cons.injEq, Lexeme.mk.injEq, false_iff]
      intro hex
      obtain ⟨u, hu, ⟨rfl, -⟩, -⟩ := hex
      rw [h] at hu
      cases hu
    | some b => simp_all [lexeme, and_assoc]

theorem token_eq_ok_iff {expected : String} {f : Token → Option α} {a : α} :
    (token expected f).run ls = .ok (a, rest) ↔ ∃ t, f t = some a ∧ Takes [t] ls rest := by
  simp only [token, run_bind, andThen_eq_ok]
  constructor
  · intro h
    obtain ⟨⟨b, line⟩, mid, hlexeme, hpure⟩ := h
    obtain ⟨t, ht, rfl⟩ := lexeme_eq_ok_iff.1 hlexeme
    cases hpure
    exact ⟨t, ht, .cons .nil⟩
  · intro h
    obtain ⟨t, ht, h⟩ := h
    obtain ⟨line, more, rfl, hmore⟩ := Takes.cons_iff.1 h
    obtain rfl := Takes.nil_iff.1 hmore
    exact ⟨(a, line), more, lexeme_eq_ok_iff.2 ⟨t, ht, rfl⟩, rfl⟩

/-- Taking the only token that is accepted with a given answer. -/
theorem token_eq_ok_iff_takes {expected : String} {f : Token → Option α} {a : α} {t : Token}
    (h : ∀ u, f u = some a ↔ u = t) :
    (token expected f).run ls = .ok (a, rest) ↔ Takes [t] ls rest := by
  rw [token_eq_ok_iff]
  simp [h]

theorem expectAt_eq_ok_iff {t : Token} :
    (expectAt t).run ls = .ok (line, rest) ↔ ls = ⟨t, line⟩ :: rest := by
  simp [expectAt, andThen_eq_ok, lexeme_eq_ok_iff]

theorem expect_eq_ok_iff {t : Token} {u : Unit} :
    (expect t).run ls = .ok (u, rest) ↔ Takes [t] ls rest := by
  simp [expect, andThen_eq_ok, expectAt_eq_ok_iff]

theorem keyword_eq_ok_iff {name : String} {u : Unit} :
    (keyword name).run ls = .ok (u, rest) ↔ Takes [.word name] ls rest :=
  token_eq_ok_iff_takes (by simp)

theorem identifier_eq_ok_iff {name : String} :
    identifier.run ls = .ok (name, rest) ↔ Takes [.word name] ls rest :=
  token_eq_ok_iff_takes fun u => by cases u <;> simp

theorem valueName_eq_ok_iff {name : String} :
    valueName.run ls = .ok (name, rest) ↔ Takes [.value name] ls rest :=
  token_eq_ok_iff_takes fun u => by cases u <;> simp

theorem integer_eq_ok_iff {n : Nat} :
    integer.run ls = .ok ((n, line), rest) ↔ ls = ⟨.int n, line⟩ :: rest := by
  rw [integer, lexeme_eq_ok_iff]
  constructor
  · intro h
    obtain ⟨t, ht, rfl⟩ := h
    cases t <;> simp_all
  · intro h
    exact ⟨_, rfl, h⟩

/-- Whether a token comes next. -/
theorem accept_eq_ok_iff {t : Token} {b : Bool} :
    (accept t).run ls = .ok (b, rest) ↔
      b = true ∧ Takes [t] ls rest ∨ b = false ∧ ls = rest ∧ ∀ l ∈ ls.head?, l.token ≠ t := by
  cases ls with
  | nil => simp [accept, andThen, lexeme?]
  | cons l ls =>
    obtain ⟨u, line⟩ := l
    by_cases h : u = t
    · simp [accept, andThen, lexeme?, h]
    · simp [accept, andThen, lexeme?, h]

theorem lexeme?_eq_ok_iff {f : Token → Option α} {o : Option (α × Nat)} :
    (lexeme? f).run ls = .ok (o, rest) ↔
      (∃ t a line, o = some (a, line) ∧ f t = some a ∧ ls = ⟨t, line⟩ :: rest) ∨
        o = none ∧ ls = rest ∧ ∀ l ∈ ls.head?, f l.token = none := by
  cases ls with
  | nil => simp [lexeme?, @eq_comm _ o]
  | cons l ls =>
    obtain ⟨u, line⟩ := l
    cases h : f u with
    | none => simp [lexeme?, h, @eq_comm _ o]
    | some b => simp [lexeme?, h, @eq_comm _ o]

/-! ## Known lexemes -/

@[simp] theorem run_expectAt (t : Token) :
    (expectAt t).run (⟨t, line⟩ :: rest) = .ok (line, rest) :=
  expectAt_eq_ok_iff.2 rfl

@[simp] theorem run_expect (t : Token) : (expect t).run (⟨t, line⟩ :: rest) = .ok ((), rest) :=
  expect_eq_ok_iff.2 (.cons .nil)

@[simp] theorem run_accept (t u : Token) : (accept t).run (⟨u, line⟩ :: rest) =
    if u = t then .ok (true, rest) else .ok (false, ⟨u, line⟩ :: rest) := by
  by_cases h : u = t <;> simp [accept, andThen, lexeme?, h]

@[simp] theorem run_keyword (name : String) :
    (keyword name).run (⟨.word name, line⟩ :: rest) = .ok ((), rest) :=
  keyword_eq_ok_iff.2 (.cons .nil)

@[simp] theorem run_identifier (name : String) :
    identifier.run (⟨.word name, line⟩ :: rest) = .ok (name, rest) :=
  identifier_eq_ok_iff.2 (.cons .nil)

@[simp] theorem run_valueName (name : String) :
    valueName.run (⟨.value name, line⟩ :: rest) = .ok (name, rest) :=
  valueName_eq_ok_iff.2 (.cons .nil)

@[simp] theorem run_integer (n : Nat) :
    integer.run (⟨.int n, line⟩ :: rest) = .ok ((n, line), rest) :=
  integer_eq_ok_iff.2 rfl

@[simp] theorem run_peek (t : Token) :
    peek.run (⟨t, line⟩ :: rest) = .ok (some t, ⟨t, line⟩ :: rest) := rfl

theorem run_peek_of_takes {t : Token} (h : Takes (t :: ts) ls rest) :
    peek.run ls = .ok (some t, ls) := by
  obtain ⟨line, more, rfl, -⟩ := Takes.cons_iff.1 h
  rfl

/-! ## Lists -/

/-- The lexemes do not go on with a comma. -/
def NoComma (ts : List Lexeme) : Prop := ∀ t ∈ ts.head?, t.token ≠ .symbol .comma

@[simp] theorem noComma_cons {t : Lexeme} {ts : List Lexeme} :
    NoComma (t :: ts) ↔ t.token ≠ .symbol .comma := by
  simp [NoComma]

theorem separated_of_comma {p : Parser α} {ts more : List Lexeme} {a : α}
    (h : p.run ts = .ok (a, ⟨.symbol .comma, line⟩ :: more)) :
    separated p ts = match separated p more with
      | .ok (as, rest) => .ok (a :: as, rest)
      | .error e => .error e := by
  rw [separated]
  split
  · next heq => rw [h] at heq; cases heq
  · next heq => rw [h] at heq; cases heq; rfl
  · next hne heq =>
    rw [h] at heq
    cases heq
    exact absurd rfl (hne _ _)

theorem separated_of_noComma {p : Parser α} {ts : List Lexeme} {a : α}
    (h : p.run ts = .ok (a, rest)) (hrest : NoComma rest) : separated p ts = .ok ([a], rest) := by
  rw [separated]
  split
  · next heq => rw [h] at heq; cases heq
  · next heq =>
    rw [h] at heq
    cases heq
    simp at hrest
  · next heq => rw [h] at heq; cases heq; rfl

section Lists

variable {p : Parser α} {derives : List Token → α → Prop} {as : List α}

theorem separated_sound (hp : Recognizes p derives) (h : separated p ls = .ok (as, rest)) :
    (∃ ts, DerivesList derives ts as ∧ Takes ts ls rest) ∧ NoComma rest := by
  fun_induction separated p ls generalizing as rest with
  | case1 => cases h
  | case2 ls a line mid hrun as' rest' hmid ih =>
    cases h
    obtain ⟨ts, ha, htake⟩ := hp.sound hrun
    obtain ⟨⟨us, has, hmore⟩, hrest⟩ := ih hmid
    exact ⟨⟨_, .cons ha has, htake.append (.cons hmore)⟩, hrest⟩
  | case3 => cases h
  | case4 ls a mid hne hrun =>
    cases h
    obtain ⟨ts, ha, htake⟩ := hp.sound hrun
    refine ⟨⟨ts, .one ha, htake⟩, ?_⟩
    intro l hl hcomma
    obtain ⟨more, rfl⟩ := List.head?_eq_some_iff.1 hl
    obtain ⟨t, line⟩ := l
    subst hcomma
    exact hne _ _ rfl

theorem separated_complete (hp : Recognizes p derives) (has : DerivesList derives ts as)
    (h : Takes ts ls rest) (hrest : NoComma rest) : separated p ls = .ok (as, rest) := by
  induction has generalizing ls with
  | one ha => exact separated_of_noComma (hp.complete ha h) hrest
  | cons ha _ ih =>
    obtain ⟨mid, htake, hmid⟩ := Takes.append_iff.1 h
    obtain ⟨line, more, rfl, hmore⟩ := Takes.cons_iff.1 hmid
    rw [separated_of_comma (hp.complete ha htake), ih hmore]

/-- A list ends where no comma goes on. -/
theorem commaSeparated_eq_ok_iff (hp : Recognizes p derives) :
    (commaSeparated p).run ls = .ok (as, rest) ↔
      (∃ ts, DerivesList derives ts as ∧ Takes ts ls rest) ∧ NoComma rest := by
  constructor
  · exact separated_sound hp
  · intro h
    obtain ⟨⟨ts, has, h⟩, hrest⟩ := h
    exact separated_complete hp has h hrest

end Lists

theorem valueName_recognizes : Recognizes valueName DerivesName where
  sound h := ⟨_, rfl, valueName_eq_ok_iff.1 h⟩
  complete hname h := valueName_eq_ok_iff.2 (hname ▸ h)

end Parser

end GateIR.Text

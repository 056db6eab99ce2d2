import GateIR.Proofs.Text.Parser.Program

/-!
# The first token that is refused

A parser is prompt (`Prompt`) when every error with a line is about the first lexeme that cannot stand.
The error is the same if nothing comes after this lexeme, and if the lexemes end before it, more is
wanted (`RefusesAt`). For this to hold of a sequence, what the first part takes must not depend on how
much follows (`TakesAt`).

Each combinator has one lemma, and a parser is prompt because it is put together from prompt ones
(`prompt_program`). Two parsers need more than that.

- An angle may be empty. Before a coefficient that lacks its `pi`, an angle has been read already, and
  no more is wanted unless something has to follow (`refusesAt_angle`, `prompt_angle_bind`).
- A gate may be refused when all of an angle has been taken. The error is about the closing bracket,
  the last lexeme that was taken, so the bracket and the refusal are treated as one step
  (`prompt_gateDialect_bind`).

**Whole parsers (`Pinpoints`).** What a parser of a whole text takes is also taken by itself, so that
the first lexeme behind it is the one that is left over.
-/

namespace GateIR.Text

/-! ## Errors that report a token -/

namespace Error

/-- The line that an error names. -/
def line? : Error → Option Nat
  | unexpectedToken line _ _ => some line
  | missingPi line _ => some line
  | _ => none

/-- What is expected where a token is refused although its kind would do. -/
def special : List String :=
  ["32-bit integer", "64-bit integer", "gate attribute", "end of input"]

/-- The error reports the token. -/
inductive Reports : Error → Token → Prop
  /-- A token of another kind is expected. -/
  | kind {line : Nat} {expected : String} {t : Token} : expected ∉ special →
      Reports (.unexpectedToken line expected t.text) t
  /-- The numeral does not fit in 32 bits. -/
  | wide {line n : Nat} : UInt32.size ≤ n →
      Reports (.unexpectedToken line "32-bit integer" n.repr) (.int n)
  /-- The numeral does not fit in 64 bits, with the sign that is read before it. -/
  | signed {line n : Nat} {signed : Int} : signed.natAbs = n →
      ¬ (Int64.minValue.toInt ≤ signed ∧ signed ≤ Int64.maxValue.toInt) →
      Reports (.unexpectedToken line "64-bit integer" signed.repr) (.int n)
  /-- The bracket closes an angle where a gate is required. -/
  | angle {line : Nat} {a : Angle} :
      Reports (.unexpectedToken line "gate attribute" (Attribute.angle a).text) (.symbol .greater)
  /-- The numeral is the coefficient that lacks its `pi`. -/
  | coefficient {line : Nat} {t : Token} {x : Binary64} : Parser.coefficient? t = some x →
      x ≠ .zero → Reports (.missingPi line x) t

end Error

namespace Parser

variable {α β γ : Type} {p q : Parser α} {f : α → Parser β} {ls mid rest : List Lexeme} {a : α}
  {e : Error}

/-! ## Sequences -/

theorem ext (h : ∀ ls, p.run ls = q.run ls) : p = q := by
  cases p
  cases q
  congr
  exact funext h

theorem pure_bind (a : α) (f : α → Parser β) : pure a >>= f = f a := rfl

theorem run_fail (e : Error) (ls : List Lexeme) : (fail e : Parser α).run ls = .error e := rfl

theorem fail_bind (e : Error) (f : α → Parser β) : fail e >>= f = fail e := ext fun _ => rfl

theorem bind_assoc (p : Parser α) (f : α → Parser β) (g : β → Parser γ) :
    p >>= f >>= g = p >>= fun a => f a >>= g := by
  refine ext fun ls => ?_
  show andThen (p >>= f) g ls = p.andThen (fun a => f a >>= g) ls
  rw [andThen, run_bind, andThen, andThen]
  cases p.run ls <;> rfl

theorem run_bind_of_ok (h : p.run ls = .ok (a, mid)) : (p >>= f).run ls = (f a).run mid := by
  rw [run_bind, andThen, h]

theorem run_bind_of_error (h : p.run ls = .error e) : (p >>= f).run ls = .error e := by
  rw [run_bind, andThen, h]

theorem run_bind_eq_error_iff : (p >>= f).run ls = .error e ↔
    p.run ls = .error e ∨ ∃ a mid, p.run ls = .ok (a, mid) ∧ (f a).run mid = .error e := by
  rw [run_bind, andThen]
  cases p.run ls with
  | ok r =>
    obtain ⟨a, mid⟩ := r
    simp
  | error e => simp

/-! ## Prompt parsers -/

/-- The lexemes come to an end too early. -/
def Ends (r : Except Error (α × List Lexeme)) : Prop :=
  ∃ expected, r = .error (.unexpectedEnd expected)

/-- The lexemes are the start of something. -/
def Viable (r : Except Error (α × List Lexeme)) : Prop := Ends r ∨ ∃ a, r = .ok (a, [])

/-- What is taken is taken in front of every part of the rest. Without a rest, it is taken or more is
wanted. -/
def TakesAt (p : Parser α) (ls : List Lexeme) : Prop :=
  ∀ a rest, p.run ls = .ok (a, rest) → ∃ used, ls = used ++ rest ∧
    (∀ part, part <+: rest → part ≠ [] → p.run (used ++ part) = .ok (a, part)) ∧
    (p.run used = .ok (a, []) ∨ Ends (p.run used))

/-- An error with a line reports a lexeme. It is the same error without the lexemes behind this one;
a given property says what the parser does with those in front. -/
def RefusesAt (p : Parser α) (before : Except Error (α × List Lexeme) → Prop) (ls : List Lexeme) :
    Prop :=
  ∀ e, p.run ls = .error e → e.line? ≠ none → ∃ front l after, ls = front ++ l :: after ∧
    e.line? = some l.line ∧ e.Reports l.token ∧ p.run (front ++ [l]) = .error e ∧
    before (p.run front)

/-- The parser refuses the first lexeme that cannot stand. -/
structure PromptAt (p : Parser α) (ls : List Lexeme) : Prop where
  takes : p.TakesAt ls
  refuses : p.RefusesAt Ends ls

def Prompt (p : Parser α) : Prop := ∀ ls, p.PromptAt ls

theorem ends_bind (h : Ends (p.run ls)) : Ends ((p >>= f).run ls) := by
  obtain ⟨expected, h⟩ := h
  exact ⟨expected, run_bind_of_error h⟩

theorem line?_of_ends {r : Except Error (α × List Lexeme)} (h : Ends r) (he : r = .error e) :
    e.line? = none := by
  obtain ⟨expected, rfl⟩ := h
  cases he
  rfl

theorem TakesAt.bind (hp : p.TakesAt ls)
    (hf : ∀ a mid, p.run ls = .ok (a, mid) → (f a).TakesAt mid) : (p >>= f).TakesAt ls := by
  intro b rest h
  obtain ⟨a, mid, hrun, hfa⟩ := andThen_eq_ok.1 h
  obtain ⟨front, rfl, hfront, hwhole⟩ := hp a mid hrun
  obtain ⟨more, rfl, hmore, hend⟩ := hf a mid hrun b rest hfa
  refine ⟨front ++ more, (List.append_assoc ..).symm, fun part hpart hne => ?_, ?_⟩
  · have hprefix := (List.prefix_append_right_inj more).2 hpart
    rw [List.append_assoc, run_bind_of_ok (hfront _ hprefix (by simp [hne]))]
    exact hmore part hpart hne
  · by_cases hnil : more = []
    · subst hnil
      rw [List.append_nil]
      rcases hwhole with hok | hends
      · rwa [run_bind_of_ok hok]
      · exact .inr (ends_bind hends)
    · rwa [run_bind_of_ok (hfront more (List.prefix_append more rest) hnil)]

/-- The second part refuses after what the first one took. -/
theorem RefusesAt.bind {before : Except Error (α × List Lexeme) → Prop} (hp : p.RefusesAt before ls)
    (hbefore : ∀ front, before (p.run front) → Ends ((p >>= f).run front)) (ht : p.TakesAt ls)
    (hf : ∀ a mid, p.run ls = .ok (a, mid) → (f a).RefusesAt Ends mid) :
    (p >>= f).RefusesAt Ends ls := by
  intro e h hline
  rcases run_bind_eq_error_iff.1 h with he | ⟨a, mid, hrun, he⟩
  · obtain ⟨front, l, after, rfl, hl, hreports, hthrough, hfront⟩ := hp e he hline
    exact ⟨front, l, after, rfl, hl, hreports, run_bind_of_error hthrough, hbefore front hfront⟩
  · obtain ⟨used, rfl, htakes, hwhole⟩ := ht a mid hrun
    obtain ⟨front, l, after, rfl, hl, hreports, hthrough, hends⟩ := hf a mid hrun e he hline
    refine ⟨used ++ front, l, after, (List.append_assoc ..).symm, hl, hreports, ?_, ?_⟩
    · have hprefix : front ++ [l] <+: front ++ l :: after := ⟨after, by simp⟩
      rwa [List.append_assoc, run_bind_of_ok (htakes _ hprefix (by simp))]
    · by_cases hnil : front = []
      · subst hnil
        rw [List.append_nil]
        rcases hwhole with hok | hends'
        · rwa [run_bind_of_ok hok]
        · exact ends_bind hends'
      · rwa [run_bind_of_ok (htakes front (List.prefix_append front _) hnil)]

theorem PromptAt.bind (hp : p.PromptAt ls)
    (hf : ∀ a mid, p.run ls = .ok (a, mid) → (f a).PromptAt mid) : (p >>= f).PromptAt ls where
  takes := hp.takes.bind fun a mid h => (hf a mid h).takes
  refuses := hp.refuses.bind (fun _ => ends_bind) hp.takes fun a mid h => (hf a mid h).refuses

theorem Prompt.bind (hp : p.Prompt) (hf : ∀ a, (f a).Prompt) : (p >>= f).Prompt :=
  fun ls => (hp ls).bind fun a mid _ => hf a mid

theorem prompt_pure (a : α) : (pure a : Parser α).Prompt := by
  intro ls
  constructor
  · intro b rest h
    cases h
    exact ⟨[], rfl, fun part _ _ => rfl, .inl rfl⟩
  · intro e h
    cases h

theorem prompt_fail (h : e.line? = none) : (fail e : Parser α).Prompt := by
  intro ls
  constructor
  · intro a rest hrun
    cases hrun
  · intro e' hrun hline
    cases hrun
    exact absurd h hline

/-! ## Parsers that look ahead -/

/-- A parser may be replaced by one that does the same on all parts of the lexemes. On no lexemes at
all, it may want more instead. -/
theorem PromptAt.congr (hq : q.PromptAt ls)
    (hsame : ∀ part, part <+: ls → part ≠ [] → p.run part = q.run part)
    (hnil : p.run [] = q.run [] ∨ Ends (p.run [])) : p.PromptAt ls := by
  have hcases : ∀ part, part <+: ls → p.run part = q.run part ∨ Ends (p.run part) := by
    intro part hpart
    by_cases hne : part = []
    · exact hne ▸ hnil
    · exact .inl (hsame part hpart hne)
  constructor
  · intro a rest h
    rcases hcases ls List.prefix_rfl with hrun | ⟨expected, hrun⟩
    · obtain ⟨used, rfl, htakes, hwhole⟩ := hq.takes a rest (hrun ▸ h)
      refine ⟨used, rfl, fun part hpart hne => ?_, ?_⟩
      · rw [hsame _ ((List.prefix_append_right_inj used).2 hpart) (by simp [hne])]
        exact htakes part hpart hne
      · rcases hcases used (List.prefix_append used rest) with hused | hused
        · rwa [hused]
        · exact .inr hused
    · rw [h] at hrun
      cases hrun
  · intro e h hline
    rcases hcases ls List.prefix_rfl with hrun | hends
    · obtain ⟨front, l, after, rfl, hl, hreports, hthrough, hfront⟩ := hq.refuses e (hrun ▸ h) hline
      refine ⟨front, l, after, rfl, hl, hreports, ?_, ?_⟩
      · rwa [hsame _ ⟨after, by simp⟩ (by simp)]
      · rcases hcases front (List.prefix_append front _) with hused | hused
        · rwa [hused]
        · exact hused
    · exact absurd (line?_of_ends hends h) hline

theorem promptAt_nil (h : Ends (p.run [])) : p.PromptAt [] := by
  obtain ⟨expected, h⟩ := h
  constructor
  · intro a rest hrun
    rw [h] at hrun
    cases hrun
  · intro e hrun hline
    rw [h] at hrun
    cases hrun
    exact absurd rfl hline

/-- The first lexeme decides what is done. -/
theorem PromptAt.of_cons {l : Lexeme} (hq : q.PromptAt (l :: ls))
    (hsame : ∀ more, p.run (l :: more) = q.run (l :: more)) (hnil : Ends (p.run [])) :
    p.PromptAt (l :: ls) := by
  refine hq.congr (fun part hpart hne => ?_) (.inr hnil)
  obtain ⟨l', more, rfl⟩ := List.exists_cons_of_ne_nil hne
  obtain ⟨rfl, -⟩ := List.cons_prefix_cons.1 hpart
  exact hsame more

/-- Some lexemes decide what is done behind them. -/
theorem PromptAt.append (hq : q.PromptAt rest) (front : List Lexeme)
    (hsame : ∀ more, p.run (front ++ more) = q.run more) : p.PromptAt (front ++ rest) := by
  constructor
  · intro a rest' h
    obtain ⟨used, rfl, htakes, hwhole⟩ := hq.takes a rest' (hsame rest ▸ h)
    refine ⟨front ++ used, (List.append_assoc ..).symm, fun part hpart hne => ?_, ?_⟩
    · rw [List.append_assoc, hsame]
      exact htakes part hpart hne
    · rwa [hsame]
  · intro e h hline
    obtain ⟨before, l, after, rfl, hl, hreports, hthrough, hbefore⟩ :=
      hq.refuses e (hsame rest ▸ h) hline
    refine ⟨front ++ before, l, after, (List.append_assoc ..).symm, hl, hreports, ?_, ?_⟩
    · rwa [List.append_assoc, hsame]
    · rwa [hsame]

/-! ## Single lexemes -/

/-- A parser of one lexeme refuses that lexeme. -/
theorem prompt_of_single (hnil : Ends (p.run []))
    (h : ∀ l, (∃ a, ∀ rest, p.run (l :: rest) = .ok (a, rest)) ∨
      ∃ e, (∀ rest, p.run (l :: rest) = .error e) ∧
        (e.line? ≠ none → e.line? = some l.line ∧ e.Reports l.token)) : p.Prompt := by
  intro ls
  cases ls with
  | nil => exact promptAt_nil hnil
  | cons l ls =>
    rcases h l with ⟨a, hrun⟩ | ⟨e, hrun, hreports⟩
    · exact (prompt_pure a ls).append [l] hrun
    · constructor
      · intro b rest hb
        rw [hrun] at hb
        cases hb
      · intro e' he hline
        rw [hrun] at he
        cases he
        obtain ⟨hl, ht⟩ := hreports hline
        exact ⟨[], l, ls, rfl, hl, ht, hrun [], hnil⟩

theorem prompt_lexeme {expected : String} (h : expected ∉ Error.special) (atEnd : String)
    (f : Token → Option α) : (lexeme atEnd expected f).Prompt := by
  refine prompt_of_single ⟨atEnd, rfl⟩ fun l => ?_
  cases hl : f l.token with
  | some a => exact .inl ⟨(a, l.line), fun rest => by simp [lexeme, hl]⟩
  | none => exact .inr ⟨_, fun rest => by simp only [lexeme, hl], fun _ => ⟨rfl, .kind h⟩⟩

theorem prompt_lexeme? (f : Token → Option α) : (lexeme? f).Prompt := by
  intro ls
  cases ls with
  | nil => exact (prompt_pure none []).congr (by simp) (.inl rfl)
  | cons l ls =>
    cases hl : f l.token with
    | some a =>
      refine (prompt_pure (some (a, l.line)) ls).append [l] fun more => ?_
      simp [lexeme?, hl]
    | none =>
      refine (prompt_pure none (l :: ls)).congr (fun part hpart hne => ?_) (.inl rfl)
      obtain ⟨l', more, rfl⟩ := List.exists_cons_of_ne_nil hne
      obtain ⟨rfl, -⟩ := List.cons_prefix_cons.1 hpart
      simp [lexeme?, hl]

theorem prompt_token {expected : String} (h : expected ∉ Error.special) (f : Token → Option α) :
    (token expected f).Prompt :=
  (prompt_lexeme h _ f).bind fun _ => prompt_pure _

theorem prompt_expectAt {t : Token} (h : t.text ∉ Error.special) : (expectAt t).Prompt :=
  (prompt_lexeme h _ _).bind fun _ => prompt_pure _

theorem prompt_expect {t : Token} (h : t.text ∉ Error.special) : (expect t).Prompt :=
  (prompt_expectAt h).bind fun _ => prompt_pure _

theorem prompt_symbol (s : Symbol) : (expect (.symbol s)).Prompt :=
  prompt_expect (by cases s <;> decide)

theorem prompt_accept (t : Token) : (accept t).Prompt :=
  (prompt_lexeme? _).bind fun _ => prompt_pure _

theorem prompt_identifier : identifier.Prompt := prompt_token (by decide) _

theorem prompt_valueName : valueName.Prompt := prompt_token (by decide) _

/-! ## Angles -/

theorem exists_run_accept (t : Token) (ls : List Lexeme) :
    ∃ b rest, (accept t).run ls = .ok (b, rest) := by
  cases ls with
  | nil => exact ⟨false, [], rfl⟩
  | cons l ls =>
    rw [run_accept]
    split <;> exact ⟨_, _, rfl⟩

theorem exists_run_lexeme? (f : Token → Option α) (ls : List Lexeme) :
    ∃ o rest, (lexeme? f).run ls = .ok (o, rest) := by
  cases ls with
  | nil => exact ⟨none, [], rfl⟩
  | cons l ls =>
    cases hl : f l.token with
    | none => exact ⟨none, l :: ls, by simp only [lexeme?, hl]⟩
    | some a => exact ⟨some (a, l.line), ls, by simp only [lexeme?, hl]⟩

theorem takesAt_angle (ls : List Lexeme) : angle.TakesAt ls := by
  refine (prompt_accept _ ls).takes.bind fun negative mid _ => ?_
  refine (prompt_lexeme? _ mid).takes.bind fun coefficient mid' _ => ?_
  refine (prompt_accept _ mid').takes.bind fun hasPi mid'' _ => ?_
  have hvalue (x : Binary64) :
      (pure (Angle.reduce (if negative then x.neg else x)) : Parser Angle).TakesAt mid'' :=
    (prompt_pure _ _).takes
  dsimp only
  split
  · exact hvalue _
  · exact hvalue _
  · exact hvalue _
  · split
    · exact hvalue _
    · intro a rest h
      cases h

/-- Only a coefficient is refused, and there is nothing before it but a sign. -/
theorem exists_coefficient_of_angle (h : angle.run ls = .error e) :
    ∃ front t line after x, ls = front ++ ⟨t, line⟩ :: after ∧
      (front = [] ∨ ∃ line, front = [⟨.symbol .minus, line⟩]) ∧
      coefficient? t = some x ∧ x ≠ .zero ∧ e = .missingPi line x := by
  obtain ⟨negative, mid, hsign⟩ := exists_run_accept (.symbol .minus) ls
  obtain ⟨coefficient, mid', hcoefficient⟩ := exists_run_lexeme? coefficient? mid
  obtain ⟨hasPi, mid'', hpi⟩ := exists_run_accept .pi mid'
  rw [angle, run_bind_of_ok hsign, run_bind_of_ok hcoefficient, run_bind_of_ok hpi] at h
  rcases lexeme?_eq_ok_iff.1 hcoefficient with ⟨t, x, line, rfl, ht, rfl⟩ | ⟨rfl, rfl, -⟩
  · cases hasPi with
    | true => cases h
    | false =>
      dsimp only at h
      split at h
      · cases h
      · next hx =>
        cases h
        rcases accept_eq_ok_iff.1 hsign with ⟨-, hminus⟩ | ⟨-, rfl, -⟩
        · obtain ⟨line', more, rfl, hmore⟩ := Takes.cons_iff.1 hminus
          obtain rfl := Takes.nil_iff.1 hmore
          exact ⟨[⟨.symbol .minus, line'⟩], t, line, mid', x, rfl, .inr ⟨line', rfl⟩, ht, hx, rfl⟩
        · exact ⟨[], t, line, mid', x, rfl, .inl rfl, ht, hx, rfl⟩
  · cases hasPi <;> cases h

theorem refusesAt_angle (ls : List Lexeme) : angle.RefusesAt Viable ls := by
  intro e h _
  obtain ⟨front, t, line, after, x, rfl, hfront, ht, hx, rfl⟩ := exists_coefficient_of_angle h
  refine ⟨front, ⟨t, line⟩, after, rfl, rfl, .coefficient ht hx, ?_, .inr ?_⟩
  · have hne : t ≠ .symbol .minus := ne_symbol_of_derivesNumber (coefficient?_eq_some_iff.1 ht) _
    have hpi : (accept .pi).run [] = .ok (false, []) := rfl
    rcases hfront with rfl | ⟨line', rfl⟩
    · simp [angle, andThen, lexeme?, hne, ht, hpi, hx, run_fail]
    · simp [angle, andThen, lexeme?, ht, hpi, hx, run_fail]
  · rcases hfront with rfl | ⟨line', rfl⟩
    · exact ⟨_, rfl⟩
    · exact ⟨_, rfl⟩

theorem prompt_angle_bind {f : Angle → Parser β} (hf : ∀ a, (f a).Prompt)
    (hnil : ∀ a, Ends ((f a).run [])) : (angle >>= f).Prompt := by
  intro ls
  constructor
  · exact (takesAt_angle ls).bind fun a mid _ => (hf a mid).takes
  · refine (refusesAt_angle ls).bind (fun front h => ?_) (takesAt_angle ls) fun a mid _ =>
      (hf a mid).refuses
    rcases h with hends | ⟨a, hok⟩
    · exact ends_bind hends
    · rw [run_bind_of_ok hok]
      exact hnil a

/-- What is done with the closing bracket decides. -/
theorem prompt_bracketedAngle_bind {f : Angle × Nat → Parser β}
    (hf : ∀ a, (expectAt (.symbol .greater) >>= fun close => f (a, close)).Prompt) :
    (bracketedAngle >>= f).Prompt := by
  simp only [bracketedAngle, bind_assoc, pure_bind]
  refine (prompt_symbol .less).bind fun _ => prompt_angle_bind hf fun a => ?_
  exact ends_bind ⟨_, rfl⟩

/-! ## Gates -/

theorem prompt_greater : (expectAt (.symbol .greater)).Prompt := prompt_expectAt (by decide)

theorem prompt_gateDialect_bind {f : GateDialect → Parser β} (hgate : ∀ g, (f (.gate g)).Prompt)
    (hangle : ∀ a, (expectAt (.symbol .greater) >>= fun close => f (.angle a close)).Prompt) :
    (gateDialect >>= f).Prompt := by
  simp only [gateDialect, bind_assoc]
  refine (prompt_symbol .hash).bind fun _ => (prompt_token (by decide) _).bind fun _ => ?_
  refine (prompt_symbol .dot).bind fun _ => prompt_identifier.bind fun name => ?_
  split
  · simp only [bind_assoc, pure_bind]
    exact prompt_bracketedAngle_bind fun a => prompt_greater.bind fun _ => hgate _
  · split
    · simp only [bind_assoc, pure_bind]
      exact prompt_bracketedAngle_bind hangle
    · split
      · exact hgate _
      · rw [fail_bind]
        exact prompt_fail rfl

/-- A closing bracket is what is expected, and then it is refused. -/
theorem prompt_gate : gate.Prompt := by
  refine prompt_gateDialect_bind prompt_pure fun a => prompt_of_single ⟨_, rfl⟩ fun l => .inr ?_
  obtain ⟨t, line⟩ := l
  by_cases h : t = .symbol .greater
  · subst h
    exact ⟨_, fun rest => rfl, fun _ => ⟨rfl, .angle⟩⟩
  · have hrun (rest : List Lexeme) : (expectAt (.symbol .greater)).run (⟨t, line⟩ :: rest) =
        .error (.unexpectedToken line ">" t.text) := by
      simp only [expectAt, lexeme, run_bind, andThen, if_neg h]
      rfl
    exact ⟨_, fun rest => run_bind_of_error (hrun rest), fun _ => ⟨rfl, .kind (by decide)⟩⟩

/-! ## Types -/

theorem prompt_word32 : word32.Prompt := by
  refine prompt_of_single ⟨_, rfl⟩ fun l => ?_
  obtain ⟨t, line⟩ := l
  cases t with
  | int n =>
    by_cases hn : n < UInt32.size
    · exact .inl ⟨.ofNat n, fun rest => by simp [word32, andThen, hn]⟩
    · refine .inr ⟨.unexpectedToken line "32-bit integer" n.repr, fun rest => ?_, fun _ => ?_⟩
      · simp [word32, andThen, hn, run_fail]
      · exact ⟨rfl, .wide (not_lt.1 hn)⟩
  | _ => exact .inr ⟨_, fun rest => rfl, fun _ => ⟨rfl, .kind (by decide)⟩⟩

theorem prompt_markedTy : markedTy.Prompt := by
  refine prompt_identifier.bind fun name => ?_
  split
  · exact prompt_pure _
  · split
    · refine (prompt_symbol .dot).bind fun _ => (prompt_token (by decide) _).bind fun _ => ?_
      refine (prompt_symbol .less).bind fun _ => prompt_word32.bind fun n => ?_
      exact (prompt_symbol .greater).bind fun _ => prompt_pure _
    · exact prompt_fail rfl

theorem prompt_ty : ty.Prompt := by
  refine (prompt_token (by decide) _).bind fun start => ?_
  split
  · exact prompt_markedTy
  · split
    · exact prompt_pure _
    · exact prompt_fail rfl

/-! ## Attributes -/

theorem prompt_int64 : int64.Prompt := by
  refine (prompt_accept _).bind fun negative => prompt_of_single ⟨_, rfl⟩ fun l => ?_
  obtain ⟨t, line⟩ := l
  cases t with
  | int n =>
    obtain ⟨signed, hsigned⟩ : ∃ signed : Int, signed = if negative then -(n : Int) else n :=
      ⟨_, rfl⟩
    have habs : signed.natAbs = n := by
      rw [hsigned]
      cases negative <;> simp
    by_cases h : Int64.minValue.toInt ≤ signed ∧ signed ≤ Int64.maxValue.toInt
    · refine .inl ⟨.ofInt signed, fun rest => ?_⟩
      rw [run_bind_of_ok (run_integer n)]
      simp only [← hsigned, if_pos h, run_pure]
    · refine .inr ⟨.unexpectedToken line "64-bit integer" signed.repr, fun rest => ?_, fun _ => ?_⟩
      · rw [run_bind_of_ok (run_integer n)]
        simp only [← hsigned, if_neg h, run_fail]
      · exact ⟨rfl, .signed habs h⟩
  | _ => exact .inr ⟨_, fun rest => rfl, fun _ => ⟨rfl, .kind (by decide)⟩⟩

theorem prompt_attr : attr.Prompt := by
  intro ls
  cases ls with
  | nil => exact promptAt_nil ⟨_, rfl⟩
  | cons l ls =>
    obtain ⟨t, line⟩ := l
    have hty : (ty >>= fun t => pure (.ty t) : Parser Attribute).Prompt :=
      prompt_ty.bind fun _ => prompt_pure _
    have hint : (int64 >>= fun n => pure (.int n) : Parser Attribute).Prompt :=
      prompt_int64.bind fun _ => prompt_pure _
    have hnone : (token "attribute" fun _ => none : Parser Attribute).Prompt :=
      prompt_token (by decide) _
    -- The first token says what kind of attribute follows.
    cases t with
    | word name => exact (hty _).of_cons (fun _ => rfl) ⟨_, rfl⟩
    | int n => exact (hint _).of_cons (fun _ => rfl) ⟨_, rfl⟩
    | symbol s =>
      cases s with
      | hash =>
        refine (prompt_gateDialect_bind (fun g => ?_) (fun a => ?_) _).of_cons (fun _ => rfl)
          ⟨_, rfl⟩
        · exact prompt_pure _
        · exact prompt_greater.bind fun _ => prompt_pure _
      | bang => exact (hty _).of_cons (fun _ => rfl) ⟨_, rfl⟩
      | minus => exact (hint _).of_cons (fun _ => rfl) ⟨_, rfl⟩
      | _ => exact (hnone _).of_cons (fun _ => rfl) ⟨_, rfl⟩
    | _ => exact (hnone _).of_cons (fun _ => rfl) ⟨_, rfl⟩

/-! ## Lists -/

theorem run_commaSeparated (p : Parser α) (ls : List Lexeme) :
    (commaSeparated p).run ls = separated p ls := rfl

theorem run_manyUntil (close : Token) (atEnd : String) (hc : p.Consumes) (ls : List Lexeme) :
    (manyUntil close atEnd p hc).run ls = itemsUntil close atEnd p hc ls := rfl

/-- A list goes on where a comma follows. -/
theorem commaSeparated_eq (p : Parser α) : commaSeparated p = p >>= fun a =>
    accept (.symbol .comma) >>= fun more =>
      if more then commaSeparated p >>= fun as => pure (a :: as) else pure [a] := by
  refine ext fun ls => ?_
  show separated p ls = _
  cases hrun : p.run ls with
  | error e =>
    rw [run_bind_of_error hrun, separated]
    split <;> simp_all
  | ok r =>
    obtain ⟨a, mid⟩ := r
    rw [run_bind_of_ok hrun]
    by_cases hcomma : NoComma mid
    · have hnone : (accept (.symbol .comma)).run mid = .ok (false, mid) :=
        accept_eq_ok_iff.2 (.inr ⟨rfl, rfl, hcomma⟩)
      rw [run_bind_of_ok hnone, separated_of_noComma hrun hcomma]
      rfl
    · obtain ⟨line, more, rfl⟩ : ∃ line more, mid = ⟨.symbol .comma, line⟩ :: more := by
        cases mid with
        | nil => simp [NoComma] at hcomma
        | cons l more =>
          obtain ⟨t, line⟩ := l
          obtain rfl : t = .symbol .comma := by simpa using hcomma
          exact ⟨line, more, rfl⟩
      have hsome : (accept (.symbol .comma)).run (⟨.symbol .comma, line⟩ :: more) =
          .ok (true, more) := accept_eq_ok_iff.2 (.inl ⟨rfl, .cons .nil⟩)
      rw [run_bind_of_ok hsome, if_pos rfl, separated_of_comma hrun, run_bind, andThen,
        run_commaSeparated]
      cases separated p more <;> rfl

theorem prompt_commaSeparated (hp : p.Prompt) : (commaSeparated p).Prompt := by
  intro ls
  induction hn : ls.length using Nat.strong_induction_on generalizing ls with
  | h n ih =>
    subst hn
    rw [commaSeparated_eq]
    refine (hp ls).bind fun a mid hmid => (prompt_accept _ mid).bind fun more mid' hmore => ?_
    split
    · next h =>
      subst h
      have hlength : mid'.length < ls.length := by
        have hmid' := p.length_le hmid
        rcases accept_eq_ok_iff.1 hmore with ⟨-, htake⟩ | ⟨h, -⟩
        · obtain ⟨line, more, rfl, hrest⟩ := Takes.cons_iff.1 htake
          obtain rfl := Takes.nil_iff.1 hrest
          exact Nat.lt_of_succ_le hmid'
        · cases h
      exact (ih _ hlength mid' rfl).bind fun _ _ _ => prompt_pure _ _
    · exact prompt_pure _ _

/-- The closing token, or the end, is looked for before each item. -/
theorem prompt_manyUntil {close : Token} {atEnd : String} (hp : p.Prompt) (hc : p.Consumes) :
    (manyUntil close atEnd p hc).Prompt := by
  intro ls
  have hnil : (manyUntil close atEnd p hc).run [] = .error (.unexpectedEnd atEnd) := by
    rw [run_manyUntil, itemsUntil]
  induction hn : ls.length using Nat.strong_induction_on generalizing ls with
  | h n ih =>
    subst hn
    cases ls with
    | nil => exact promptAt_nil ⟨_, hnil⟩
    | cons l ls =>
      by_cases hclose : l.token = close
      · refine (prompt_pure [] _).of_cons (fun more => ?_) ⟨_, hnil⟩
        rw [run_manyUntil, itemsUntil, if_pos hclose]
        rfl
      · have hitems : (p >>= fun a => manyUntil close atEnd p hc >>= fun as =>
            pure (a :: as)).PromptAt (l :: ls) :=
          (hp _).bind fun a mid hmid => (ih _ (hc _ _ _ hmid) mid rfl).bind fun _ _ _ =>
            prompt_pure _ _
        refine hitems.of_cons (fun more => ?_) ⟨_, hnil⟩
        rw [run_manyUntil, itemsUntil, if_neg hclose]
        split
        · next e he => rw [run_bind_of_error he]
        · next a mid hmid =>
          rw [run_bind_of_ok hmid, run_bind, andThen, run_manyUntil]
          cases itemsUntil close atEnd p hc mid <;> rfl

/-! ## Operands -/

theorem exists_names_of_operandsAhead (h : operandsAhead ls) :
    ∃ ts names line rest, DerivesList DerivesName ts names ∧
      Takes ts ls (⟨.symbol .colon, line⟩ :: rest) := by
  fun_induction operandsAhead ls with
  | case1 name l₁ l₂ rest ih =>
    obtain ⟨ts, names, line, more, hnames, htake⟩ := ih h
    exact ⟨_, name :: names, line, more, .cons rfl hnames, .cons (.cons htake)⟩
  | case2 name l₁ line rest => exact ⟨_, [name], line, rest, .one rfl, .cons .nil⟩
  | case3 => cases h

/-- Operands that are looked for are read up to their colon, and then their types are. -/
theorem exists_operands (h : operandsAhead ls) : ∃ names front rest, ls = front ++ rest ∧
    ∀ more, operands.run (front ++ more) =
      (commaSeparated ty >>= fun types => pure (names, types)).run more := by
  obtain ⟨ts, names, line, rest, hnames, htake⟩ := exists_names_of_operandsAhead h
  obtain ⟨used, rfl, rfl⟩ := Takes.iff_exists.1 htake
  refine ⟨names, used ++ [⟨.symbol .colon, line⟩], rest, by simp, fun more => ?_⟩
  have htake := Takes.map_token used (⟨.symbol .colon, line⟩ :: more)
  have hahead := operandsAhead_names hnames htake (by simp)
  have hcolon : NoComma (⟨.symbol .colon, line⟩ :: more) := by simp
  have hrun := (commaSeparated_eq_ok_iff valueName_recognizes).2 ⟨⟨_, hnames, htake⟩, hcolon⟩
  simp [operands, andThen, lookahead, hahead, hrun]

theorem operandsAhead_append {part : List Lexeme} (h : operandsAhead part) (rest : List Lexeme) :
    operandsAhead (part ++ rest) := by
  fun_induction operandsAhead part with
  | case1 name l₁ l₂ more ih =>
    rw [List.cons_append, List.cons_append, operandsAhead]
    exact ih h
  | case2 => rfl
  | case3 => cases h

theorem prompt_operands : operands.Prompt := by
  intro ls
  cases h : operandsAhead ls with
  | true =>
    obtain ⟨names, front, rest, rfl, hrun⟩ := exists_operands h
    have htypes : (commaSeparated ty >>= fun types => pure (names, types)).Prompt :=
      (prompt_commaSeparated prompt_ty).bind fun _ => prompt_pure _
    exact (htypes rest).append front hrun
  | false =>
    refine (prompt_pure ([], []) ls).congr (fun part hpart _ => ?_) (.inl rfl)
    have hahead : operandsAhead part = false := by
      obtain ⟨rest, rfl⟩ := hpart
      refine Bool.eq_false_iff.2 fun hpart => ?_
      rw [operandsAhead_append hpart] at h
      cases h
    simp [operands, andThen, lookahead, hahead]

/-! ## Instructions -/

theorem prompt_bracketed (hp : p.Prompt) : (bracketed p).Prompt := by
  refine (prompt_symbol .less).bind fun _ => hp.bind fun a => ?_
  exact (prompt_symbol .greater).bind fun _ => prompt_pure a

theorem prompt_quaternion : quaternion.Prompt := by
  have hvalue := prompt_valueName
  have hplus := prompt_symbol .plus
  refine (prompt_bracketed prompt_ty).bind fun t => ?_
  refine hvalue.bind fun real => hplus.bind fun _ => ?_
  refine hvalue.bind fun i => (prompt_token (by decide) _).bind fun _ => hplus.bind fun _ => ?_
  refine hvalue.bind fun j => (prompt_token (by decide) _).bind fun _ => hplus.bind fun _ => ?_
  exact hvalue.bind fun k => (prompt_token (by decide) _).bind fun _ => prompt_pure _

theorem prompt_compose : compose.Prompt := by
  refine prompt_valueName.bind fun lhs => (prompt_symbol .comma).bind fun _ => ?_
  refine prompt_valueName.bind fun rhs => (prompt_symbol .colon).bind fun _ => ?_
  exact prompt_ty.bind fun _ => prompt_pure _

theorem prompt_xzs : xzs.Prompt := by
  refine prompt_valueName.bind fun x => (prompt_symbol .comma).bind fun _ => ?_
  refine prompt_valueName.bind fun z => (prompt_symbol .comma).bind fun _ => ?_
  exact prompt_valueName.bind fun _ => prompt_pure _

theorem prompt_bodyOf (dialect name : String) : (bodyOf dialect name).Prompt := by
  have happly {α : Type} {p : Parser α} (hp : p.Prompt) (g : α → List String → List Ty → Body) :
      (bracketed p >>= fun a => operands >>= fun x => pure (g a x.1 x.2)).Prompt :=
    (prompt_bracketed hp).bind fun _ => prompt_operands.bind fun _ => prompt_pure _
  unfold bodyOf
  split
  · exact prompt_gate.bind fun _ => prompt_pure _
  · exact prompt_quaternion
  · exact prompt_compose
  · exact prompt_xzs
  · exact happly prompt_attr _
  · exact happly prompt_valueName _
  · exact prompt_valueName.bind fun _ => prompt_pure _
  · exact happly prompt_attr _
  · exact prompt_valueName.bind fun _ => prompt_pure _
  · exact prompt_fail rfl

theorem prompt_body : body.Prompt := by
  refine prompt_identifier.bind fun dialect => (prompt_symbol .dot).bind fun _ => ?_
  exact prompt_identifier.bind fun name => prompt_bodyOf dialect name

/-! ## Programs -/

theorem prompt_statement : statement.Prompt := by
  intro ls
  cases ls with
  | nil => exact promptAt_nil ⟨_, rfl⟩
  | cons l ls =>
    obtain ⟨t, line⟩ := l
    have hbody (results : List String) :
        (body >>= fun b => pure (⟨results, b, line⟩ : Statement)).Prompt :=
      prompt_body.bind fun _ => prompt_pure _
    have hnames : (commaSeparated valueName >>= fun names => expect (.symbol .equals) >>= fun _ =>
        body >>= fun b => pure (⟨names, b, line⟩ : Statement)).Prompt :=
      (prompt_commaSeparated prompt_valueName).bind fun names =>
        (prompt_symbol .equals).bind fun _ => hbody names
    cases t with
    | value name =>
      refine (hnames _).of_cons (fun more => ?_) ⟨_, rfl⟩
      show ((commaSeparated valueName >>= fun names => expect (.symbol .equals) >>= fun _ =>
        pure names) >>= fun results => body >>= fun b =>
          pure (⟨results, b, line⟩ : Statement)).run _ = _
      simp only [bind_assoc, pure_bind]
    | _ => exact (hbody [] _).of_cons (fun _ => rfl) ⟨_, rfl⟩

theorem prompt_argument : argument.Prompt := by
  refine prompt_valueName.bind fun name => (prompt_symbol .colon).bind fun _ => ?_
  exact prompt_ty.bind fun _ => prompt_pure _

theorem prompt_arguments : arguments.Prompt := by
  intro ls
  have hrun (l : Lexeme) (more : List Lexeme) : arguments.run (l :: more) =
      (if some l.token = some (.symbol .closeParen) then pure [] else commaSeparated argument).run
        (l :: more) := rfl
  have hnil : Ends (arguments.run []) := by
    show Ends ((commaSeparated argument).run [])
    rw [commaSeparated_eq]
    exact ends_bind ⟨_, rfl⟩
  cases ls with
  | nil => exact promptAt_nil hnil
  | cons l ls =>
    by_cases h : l.token = .symbol .closeParen
    · refine (prompt_pure [] _).of_cons (fun more => ?_) hnil
      rw [hrun, if_pos (congrArg some h)]
    · refine (prompt_commaSeparated prompt_argument _).of_cons (fun more => ?_) hnil
      rw [hrun, if_neg (by simpa using h)]

theorem prompt_program : program.Prompt := by
  refine (prompt_expect (by decide)).bind fun _ => (prompt_symbol .openParen).bind fun _ => ?_
  refine prompt_arguments.bind fun as => (prompt_symbol .closeParen).bind fun _ => ?_
  refine (prompt_symbol .openBrace).bind fun _ => ?_
  refine (prompt_manyUntil prompt_statement _).bind fun ss => ?_
  exact (prompt_symbol .closeBrace).bind fun _ => prompt_pure _

/-! ## Whole texts -/

/-- What is taken stands for itself, and is taken in front of any lexeme. What is refused is the first
lexeme that cannot stand. -/
structure Pinpoints (p : Parser α) : Prop where
  takes {ls rest : List Lexeme} {a : α} : p.run ls = .ok (a, rest) → ∃ used, ls = used ++ rest ∧
    p.run used = .ok (a, []) ∧ ∀ l, [l] <+: rest → p.run (used ++ [l]) = .ok (a, [l])
  refuses (ls : List Lexeme) : p.RefusesAt Viable ls

theorem TakesAt.exists_used (h : p.TakesAt ls)
    (hwhole : ∀ used, ls = used ++ rest → p.run used = .ok (a, []))
    (hrun : p.run ls = .ok (a, rest)) :
    ∃ used, ls = used ++ rest ∧ p.run used = .ok (a, []) ∧
      ∀ l, [l] <+: rest → p.run (used ++ [l]) = .ok (a, [l]) := by
  obtain ⟨used, rfl, htakes, -⟩ := h a rest hrun
  exact ⟨used, rfl, hwhole used rfl, fun l hl => htakes [l] hl (by simp)⟩

theorem Prompt.pinpoints (hp : p.Prompt)
    (hwhole : ∀ used rest a, p.run (used ++ rest) = .ok (a, rest) → p.run used = .ok (a, [])) :
    p.Pinpoints where
  takes {ls rest a} hrun :=
    (hp ls).takes.exists_used (fun used h => hwhole used rest a (h ▸ hrun)) hrun
  refuses ls := by
    intro e he hline
    obtain ⟨front, l, after, hls, hl, hreports, hthrough, hfront⟩ := (hp ls).refuses e he hline
    exact ⟨front, l, after, hls, hl, hreports, hthrough, .inl hfront⟩

/-- Tokens that are taken in front of a rest make up what is there without it. -/
theorem takes_used {ts : List Token} {used : List Lexeme} (h : Takes ts (used ++ rest) rest) :
    Takes ts used [] := by
  obtain ⟨used', rfl, hused⟩ := Takes.iff_exists.1 h
  obtain rfl := List.append_cancel_right hused
  have hall := Takes.map_token used []
  rwa [List.append_nil] at hall

/-- What a rule derives stands for itself. -/
theorem Recognizes.run_used {derives : List Token → α → Prop} (h : Recognizes p derives)
    {used : List Lexeme} (hrun : p.run (used ++ rest) = .ok (a, rest)) :
    p.run used = .ok (a, []) := by
  obtain ⟨ts, ha, htake⟩ := h.sound hrun
  exact h.complete ha (takes_used htake)

theorem pinpoints_angle : angle.Pinpoints where
  takes {ls rest a} hrun := by
    refine (takesAt_angle ls).exists_used (fun used h => ?_) hrun
    subst h
    obtain ⟨ts, ha, htake⟩ := angle_sound hrun
    exact angle_complete ha (takes_used htake) (by simp [EndsAngle])
  refuses := refusesAt_angle

theorem pinpoints_gate : gate.Pinpoints :=
  prompt_gate.pinpoints fun _ _ _ => gate_recognizes.run_used

theorem pinpoints_ty : ty.Pinpoints := prompt_ty.pinpoints fun _ _ _ => ty_recognizes.run_used

theorem pinpoints_attr : attr.Pinpoints :=
  prompt_attr.pinpoints fun _ _ _ => attr_recognizes.run_used

theorem pinpoints_program : program.Pinpoints := by
  refine prompt_program.pinpoints fun used rest a hrun => ?_
  obtain ⟨used', hderives, hused⟩ := exists_derives_of_run hrun
  obtain rfl := List.append_cancel_right hused
  exact program_complete hderives

end Parser

end GateIR.Text

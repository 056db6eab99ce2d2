import GateIR.Proofs.Text.Parser.Prompt
import GateIR.Proofs.Text.Position
import GateIR.Text.Read

/-!
# Lines that are reported

**Theorem (`lines_of_tokens`).** A statement has the line of its first token. An error with a line
has the line of the token that is refused: the one that was found, a numeral that is too large or
lacks its `pi`, the bracket that closes an angle in the place of a gate, or what comes after the end.
This holds of every text, whatever comments and line ends it has.

The line of a token is counted in the text (`Place`). Which token a statement or an error is about is
said by reading the text up to the token. In front of a statement, a closing brace makes it a program
with the statements before. In front of a refused token, the text is read or is the start of a text
that is read, and with the token it is refused by the same error.

Resolving reports no lines (`Unlined`), so an error with a line comes from the parser also where a
circuit is read.
-/

namespace GateIR.Text

/-! ## Refused tokens -/

/-- How a text is refused at a token. -/
inductive Place.Refused {α : Type} (read : String → Except Error α) (p : Place) (t : Token)
    (e : Error) : Prop
  /-- The text before the token can still become one that is read, but not with the token. -/
  | inside : e.Reports t →
      (∃ a, read p.front = .ok a) ∨ (∃ expected, read p.front = .error (.unexpectedEnd expected)) →
      read p.through = .error e → p.Refused read t e
  /-- The text before the token is read, and nothing may follow. -/
  | behind : e = .unexpectedToken p.line "end of input" t.text → (∃ a, read p.front = .ok a) →
      read p.through = .error e → p.Refused read t e

/-- The line is that of the token at which the text is refused. -/
def Blames {α : Type} (read : String → Except Error α) (text : String) (e : Error) (line : Nat) :
    Prop :=
  ∃ (p : Place) (t : Token), p.text = text ∧ p.Holds t ∧ p.Refused read t e ∧ line = p.line

namespace Parser

variable {α : Type} {p : Parser α} {text : String} {ls : List Lexeme} {e : Error}

theorem parse_eq_error_iff (h : Lexeme.ofText text = .ok ls) : p.parse text = .error e ↔
    p.run ls = .error e ∨ ∃ a l rest, p.run ls = .ok (a, l :: rest) ∧
      e = .unexpectedToken l.line "end of input" l.token.text := by
  rw [parse, h]
  cases hrun : p.run ls with
  | error e' => simp [andThen, hrun, bind, Except.bind]
  | ok r =>
    obtain ⟨b, rest⟩ := r
    cases rest with
    | nil => simp [andThen, hrun, finish, bind, Except.bind, pure, Except.pure]
    | cons l rest => simp [andThen, hrun, finish, bind, Except.bind, eq_comm]

/-- The start of something is read, or more of it is wanted. -/
theorem parse_of_viable (h : Lexeme.ofText text = .ok ls) (hrun : Viable (p.run ls)) :
    (∃ a, p.parse text = .ok a) ∨ ∃ expected, p.parse text = .error (.unexpectedEnd expected) := by
  rcases hrun with ⟨expected, hends⟩ | ⟨a, hok⟩
  · exact .inr ⟨expected, (parse_eq_error_iff h).2 (.inl hends)⟩
  · exact .inl ⟨a, (parse_eq_ok_iff h).2 hok⟩

theorem exists_ofText_of_line? (h : p.parse text = .error e) (hline : e.line? ≠ none) :
    ∃ ls, Lexeme.ofText text = .ok ls := by
  rcases bind_eq_error_iff.1 h with hls | ⟨ls, hls, -⟩
  · obtain ⟨_, -, rfl⟩ := mapError_eq_error_iff.1 hls
    exact absurd rfl hline
  · exact ⟨ls, hls⟩

/-- **An error with a line blames the token at which the text is refused.** -/
theorem Pinpoints.blames (hp : p.Pinpoints) {line : Nat} (hline : e.line? = some line)
    (h : p.parse text = .error e) : Blames p.parse text e line := by
  have hne : e.line? ≠ none := by simp [hline]
  obtain ⟨ls, hls⟩ := exists_ofText_of_line? h hne
  rcases (parse_eq_error_iff hls).1 h with hrun | ⟨a, l, rest, hrun, rfl⟩
  · obtain ⟨front, l, after, rfl, hl, hreports, hthrough, hfront⟩ := hp.refuses ls e hrun hne
    obtain ⟨place, hplace⟩ := exists_place hls
    refine ⟨place, l.token, hplace.text_eq, hplace.holds, .inside hreports ?_ ?_, ?_⟩
    · exact parse_of_viable hplace.front hfront
    · exact (parse_eq_error_iff hplace.through).2 (.inl hthrough)
    · rw [← hplace.line_eq]
      exact Option.some.inj (hline.symm.trans hl)
  · obtain ⟨used, rfl, hused, htakes⟩ := hp.takes hrun
    obtain ⟨place, hplace⟩ := exists_place hls
    have hthrough := htakes l ⟨rest, rfl⟩
    refine ⟨place, l.token, hplace.text_eq, hplace.holds, .behind ?_ ⟨a, ?_⟩ ?_, ?_⟩
    · rw [hplace.line_eq]
    · exact (parse_eq_ok_iff hplace.front).2 hused
    · exact (parse_eq_error_iff hplace.through).2 (.inr ⟨a, l, [], hthrough, rfl⟩)
    · rw [← hplace.line_eq]
      exact (Option.some.inj hline).symm

end Parser

/-! ## Statements -/

theorem DerivesStatements.exists_split {ls : List Lexeme} {earlier later : List Statement}
    {s : Statement} (h : DerivesStatements ls (earlier ++ s :: later)) :
    ∃ front used after, ls = front ++ (used ++ after) ∧ DerivesStatements front earlier ∧
      DerivesStatement used s := by
  induction earlier generalizing ls with
  | nil =>
    cases h with
    | cons hs _ => exact ⟨[], _, _, rfl, .nil, hs⟩
  | cons first earlier ih =>
    cases h with
    | cons hfirst hrest =>
      obtain ⟨front, used, after, rfl, hfront, hs⟩ := ih hrest
      exact ⟨_, used, after, (List.append_assoc ..).symm, .cons hfirst hfront, hs⟩

/-- **A statement has the line of its first token.** In its place, a closing brace would end the
program. -/
theorem exists_place_of_statement {text : String} {p : Program} (h : Program.parse text = .ok p)
    {earlier later : List Statement} {s : Statement} (hs : p.statements = earlier ++ s :: later) :
    ∃ (place : Place) (t : Token) (ts : List Token), place.text = text ∧ place.Holds t ∧
      DerivesDefinition (t :: ts) s.results s.body ∧
      Program.parse place.closed = .ok ⟨p.arguments, earlier⟩ ∧ s.line = place.line := by
  obtain ⟨ls, hls, hderives⟩ := exists_derives_of_parse h
  cases hderives with
  | @mk header body close ts as ss hheader has hss hclose =>
    obtain rfl : ss = earlier ++ s :: later := hs
    obtain ⟨front, used, after, rfl, hfront, hused⟩ := hss.exists_split
    cases hused with
    | @mk first more results b hdef =>
      have hsplit : header ++ (front ++ (first :: more ++ after) ++ [close]) =
          (header ++ front) ++ first :: (more ++ (after ++ [close])) := by simp
      rw [hsplit] at hls
      obtain ⟨place, hplace⟩ := exists_place hls
      refine ⟨place, first.token, _, hplace.text_eq, hplace.holds, hdef, ?_, hplace.line_eq⟩
      refine (Parser.parse_eq_ok_iff hplace.closed).2 (Parser.program_complete ?_)
      rw [List.append_assoc]
      exact .mk hheader has hfront rfl

/-! ## Resolving -/

namespace Resolve

variable {α β : Type}

/-- The step reports no line. -/
def Unlined (x : Resolve α) : Prop := ∀ s e, x.run s = .error e → e.line? = none

theorem unlined_pure (a : α) : Unlined (pure a) := by
  intro s e h
  cases h

theorem unlined_throw {e : Error} (h : e.line? = none) : Unlined (throw e : Resolve α) := by
  intro s e' h'
  cases h'
  exact h

theorem Unlined.bind {x : Resolve α} {f : α → Resolve β} (hx : Unlined x)
    (hf : ∀ a, Unlined (f a)) : Unlined (x >>= f) := by
  intro s e h
  rw [StateT.run_bind] at h
  rcases bind_eq_error_iff.1 h with he | ⟨⟨a, t⟩, -, he⟩
  · exact hx s e he
  · exact hf a t e he

theorem unlined_get : Unlined (get : Resolve Scope) := by
  intro s e h
  cases h

theorem unlined_set (s : Scope) : Unlined (set s : Resolve PUnit) := by
  intro t e h
  cases h

theorem unlined_forM {f : α → Resolve Unit} (hf : ∀ a, Unlined (f a)) (as : List α) :
    Unlined (forM as f) := by
  induction as with
  | nil => exact unlined_pure ()
  | cons a as ih =>
    rw [List.forM_cons]
    exact (hf a).bind fun _ => ih

theorem unlined_mapM {f : α → Resolve β} (hf : ∀ a, Unlined (f a)) (as : List α) :
    Unlined (as.mapM f) := by
  induction as with
  | nil => exact unlined_pure []
  | cons a as ih =>
    rw [List.mapM_cons]
    exact (hf a).bind fun _ => ih.bind fun _ => unlined_pure _

theorem unlined_ofCircuit (r : Except CircuitError α) : Unlined (ofCircuit r) := by
  cases r with
  | ok a => exact unlined_pure a
  | error e => exact unlined_throw rfl

theorem unlined_build (b : Builder α) : Unlined (build b) :=
  unlined_get.bind fun _ => (unlined_set _).bind fun _ => unlined_ofCircuit _

theorem unlined_define (name : String) (v : Value) : Unlined (define name v) := by
  refine unlined_get.bind fun s => ?_
  split
  · exact unlined_throw rfl
  · exact unlined_set _

theorem unlined_value (name : String) : Unlined (value name) := by
  refine unlined_get.bind fun s => ?_
  split
  · exact unlined_pure _
  · exact unlined_throw rfl

theorem unlined_typedValue (name : String) (declared : Ty) : Unlined (typedValue name declared) := by
  refine (unlined_value name).bind fun v => unlined_get.bind fun s => ?_
  refine (unlined_ofCircuit _).bind fun actual => ?_
  split
  · exact unlined_pure v
  · exact unlined_throw rfl

theorem unlined_typedValues (instruction : String) (names : List String) (types : List Ty) :
    Unlined (typedValues instruction names types) := by
  unfold typedValues
  split
  · exact unlined_mapM (fun _ => unlined_typedValue _ _) _
  · exact unlined_throw rfl

theorem unlined_body (b : Body) : Unlined (body b) := by
  have hbuild {α : Type} (x : Builder α) (f : α → List Value) :
      Unlined (build x >>= fun a => pure (f a)) := (unlined_build x).bind fun _ => unlined_pure _
  cases b with
  | constant g => exact hbuild _ _
  | quaternion t real i j k =>
    refine (unlined_typedValue real t).bind fun _ => (unlined_typedValue i t).bind fun _ => ?_
    refine (unlined_typedValue j t).bind fun _ => (unlined_typedValue k t).bind fun _ => ?_
    exact hbuild _ _
  | compose lhs rhs t =>
    exact (unlined_value lhs).bind fun _ => (unlined_value rhs).bind fun _ => hbuild _ _
  | xzs x z phase =>
    refine (unlined_value x).bind fun _ => (unlined_value z).bind fun _ => ?_
    exact (unlined_value phase).bind fun _ => hbuild _ _
  | qrefGate a qubits types => exact (unlined_typedValues _ qubits types).bind fun _ => hbuild _ _
  | qrefDynGate g qubits types =>
    refine (unlined_typedValues _ qubits types).bind fun _ => ?_
    exact (unlined_value g).bind fun _ => hbuild _ _
  | qrefMeasure q => exact (unlined_value q).bind fun _ => hbuild _ _
  | qssaGate a qubits types =>
    exact (unlined_typedValues _ qubits types).bind fun _ => unlined_build _
  | qssaMeasure q => exact (unlined_value q).bind fun _ => hbuild _ _

theorem unlined_program (p : Program) : Unlined (program p) := by
  have hargument (a : Argument) : Unlined (argument a) :=
    (unlined_build _).bind fun v => unlined_define a.name v
  have hstatement (s : Statement) : Unlined (statement s) := by
    unfold statement
    split
    · exact (unlined_body s.body).bind fun values =>
        unlined_forM (fun _ => unlined_define _ _) _
    · exact unlined_throw rfl
  exact (unlined_forM hargument _).bind fun _ => unlined_forM hstatement _

end Resolve

/-- An error with a line comes from the parser. -/
theorem parse_of_parse_circuit {text : String} {e : Error} (h : Circuit.parse text = .error e)
    (hline : e.line? ≠ none) : Program.parse text = .error e := by
  rcases bind_eq_error_iff.1 h with hparse | ⟨p, -, hcircuit⟩
  · exact hparse
  · rcases bind_eq_error_iff.1 hcircuit with hrun | ⟨_, -, hpure⟩
    · exact absurd (Resolve.unlined_program p _ e hrun) hline
    · cases hpure

/-! ## All lines -/

/-- **Lines point at the token that they are about.** -/
theorem lines_of_tokens (text : String) :
    (∀ p, Program.parse text = .ok p → ∀ earlier s later, p.statements = earlier ++ s :: later →
      ∃ (place : Place) (t : Token) (ts : List Token), place.text = text ∧ place.Holds t ∧
        DerivesDefinition (t :: ts) s.results s.body ∧
        Program.parse place.closed = .ok ⟨p.arguments, earlier⟩ ∧ s.line = place.line) ∧
    ∀ e line, e.line? = some line →
      (Angle.parse text = .error e → Blames Angle.parse text e line) ∧
      (Gate.parse text = .error e → Blames Gate.parse text e line) ∧
      (Ty.parse text = .error e → Blames Ty.parse text e line) ∧
      (Attribute.parse text = .error e → Blames Attribute.parse text e line) ∧
      (Program.parse text = .error e → Blames Program.parse text e line) ∧
      (Circuit.parse text = .error e →
        Program.parse text = .error e ∧ Blames Program.parse text e line) := by
  refine ⟨fun p h earlier s later => exists_place_of_statement h, fun e line hline => ?_⟩
  refine ⟨Parser.pinpoints_angle.blames hline, Parser.pinpoints_gate.blames hline,
    Parser.pinpoints_ty.blames hline, Parser.pinpoints_attr.blames hline,
    Parser.pinpoints_program.blames hline, fun h => ?_⟩
  have hparse := parse_of_parse_circuit h (by simp [hline])
  exact ⟨hparse, Parser.pinpoints_program.blames hline hparse⟩

/-- A measurement behind comments and line ends of both kinds. -/
def measuredLate : String :=
  "// α\r\ncircuit(%q : // β\n !qubit) \x7b\r\n\n%b,\n%r = qssa.measure %q \x7d"

/-- An angle where a gate is required, on several lines. -/
def angleForGate : String := "#gate // α\n.angle<\r\n-pi // >\n>"

theorem lines_of_tokens_late :
    (∃ p s, Program.parse measuredLate = .ok p ∧ p.statements = [s] ∧ ∃ (place : Place) (t : Token),
      place.text = measuredLate ∧ place.Holds t ∧ s.line = place.line ∧ place.line = 5) ∧
    ∃ e, Gate.parse angleForGate = .error e ∧ Blames Gate.parse angleForGate e 4 := by
  have hparse : Program.parse measuredLate =
      .ok ⟨[⟨"q", .qubit⟩], [⟨["b", "r"], .qssaMeasure "q", 5⟩]⟩ := by decide +kernel
  have hgate : Gate.parse angleForGate =
      .error (.unexpectedToken 4 "gate attribute" "#gate.angle<pi>") := by decide +kernel
  obtain ⟨hstatements, -⟩ := lines_of_tokens measuredLate
  obtain ⟨place, t, ts, htext, hholds, -, -, hline⟩ := hstatements _ hparse [] _ [] rfl
  obtain ⟨-, herrors⟩ := lines_of_tokens angleForGate
  have hblames := (herrors _ _ rfl).2.1 hgate
  exact ⟨⟨_, _, hparse, rfl, place, t, htext, hholds, hline, hline.symm⟩, _, hgate, hblames⟩

end GateIR.Text

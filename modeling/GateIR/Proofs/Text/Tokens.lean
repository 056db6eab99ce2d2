import GateIR.Proofs.Angle
import GateIR.Proofs.Text.Numeral
import GateIR.Text.Program

/-!
# The tokens of printed text

**Tokens.** Each kind of syntax has the tokens that its printed text is made of, from types up to
whole statements.

**Theorem (`spells_statement`).** The printed text of a statement spells its tokens: scanning it in
front of any text that does not run on gives just these tokens, all on one line.

Names have to be made of word characters, and an operand list has to have its types; a printed
program of a circuit is of this kind.
-/

namespace GateIR

open Text (Token Numeral Body Statement Argument)

/-! ## Tokens -/

/-- Token lists with commas between them. -/
def commas (xs : List (List Token)) : List Token := [Token.symbol .comma].intercalate xs

def Ty.tokens : Ty → List Token
  | qubit => [.symbol .bang, .word "qubit"]
  | gate n =>
    [.symbol .bang, .word "gate", .symbol .dot, .word "type", .symbol .less, .int n.toNat,
      .symbol .greater]
  | t => [.word t.text]

def Angle.tokens (a : Angle) : List Token :=
  if a = zero then [.int 0] else if a = pi then [.pi]
  else [.ofNumeral (Binary64.shortestDecimal a.bits).numeral, .pi]

/-- An angle in angle brackets, after a name. -/
def Angle.bracketed (name : String) (a : Angle) : List Token :=
  [.symbol .hash, .word "gate", .symbol .dot, .word name, .symbol .less] ++ a.tokens ++
    [.symbol .greater]

def Gate.tokens : Gate → List Token
  | rz a => a.bracketed "rz"
  | g => [.symbol .hash, .word "gate", .symbol .dot, .word g.name]

def Attribute.tokens : Attribute → List Token
  | gate g => g.tokens
  | angle a => a.bracketed "angle"
  | ty t => t.tokens
  | int n => if n.toInt < 0 then [.symbol .minus, .int n.toInt.natAbs] else [.int n.toInt.natAbs]

namespace Text

/-- Value names with commas between them. -/
def nameTokens (names : List String) : List Token := commas (names.map fun n => [.value n])

/-- An operand list with its types; an empty one is left out. -/
def operandTokens (qubits : List String) (types : List Ty) : List Token :=
  if qubits = [] then []
  else nameTokens qubits ++ .symbol .colon :: commas (types.map Ty.tokens)

namespace Body

/-- The part of the name before the point. -/
def dialect : Body → String
  | constant .. | quaternion .. | compose .. | xzs .. => "gate"
  | qrefGate .. | qrefDynGate .. | qrefMeasure .. => "qref"
  | qssaGate .. | qssaMeasure .. => "qssa"

/-- The part of the name after the point. -/
def operation : Body → String
  | constant .. => "constant"
  | quaternion .. => "quaternion"
  | compose .. => "compose"
  | xzs .. => "xzs"
  | qrefGate .. | qssaGate .. => "gate"
  | qrefDynGate .. => "dyn_gate"
  | qrefMeasure .. | qssaMeasure .. => "measure"

/-- What follows the name. -/
def restTokens : Body → List Token
  | constant g => g.tokens
  | quaternion t real i j k =>
    .symbol .less :: t.tokens ++
      [.symbol .greater, .value real, .symbol .plus, .value i, .word "i", .symbol .plus, .value j,
        .word "j", .symbol .plus, .value k, .word "k"]
  | compose lhs rhs t =>
    [.value lhs, .symbol .comma, .value rhs, .symbol .colon] ++ t.tokens
  | xzs x z phase => [.value x, .symbol .comma, .value z, .symbol .comma, .value phase]
  | qrefGate a qubits types | qssaGate a qubits types =>
    .symbol .less :: a.tokens ++ .symbol .greater :: operandTokens qubits types
  | qrefDynGate g qubits types =>
    [.symbol .less, .value g, .symbol .greater] ++ operandTokens qubits types
  | qrefMeasure q | qssaMeasure q => [.value q]

def tokens (b : Body) : List Token :=
  [.word b.dialect, .symbol .dot, .word b.operation] ++ b.restTokens

end Body

def Argument.tokens (a : Argument) : List Token := [.value a.name, .symbol .colon] ++ a.ty.tokens

def Statement.tokens (s : Statement) : List Token :=
  (if s.results = [] then [] else nameTokens s.results ++ [.symbol .equals]) ++ s.body.tokens

/-! ## Spelling -/

/-- A character that may continue a word or a numeral. -/
def continuesToken (c : Char) : Bool := Token.continuesWord c || c = '.'

/-- The text spells the tokens when what follows does not continue its last one. -/
def Spells (cs : List Char) (ts : List Token) : Prop :=
  ∀ line rest, StopsAt continuesToken rest →
    Lexeme.scan line (cs ++ rest) = (ts.map (Lexeme.mk · line) ++ ·) <$> Lexeme.scan line rest

variable {line : Nat} {rest : List Char}

theorem scan_blank : Lexeme.scan line (' ' :: rest) = Lexeme.scan line rest := by
  rw [Lexeme.scan]
  · simp [Char.isWhitespace]
  · simp

theorem scan_newline : Lexeme.scan line ('\n' :: rest) = Lexeme.scan (line + 1) rest := by
  rw [Lexeme.scan]
  · simp [Char.isWhitespace]
  · simp

theorem scan_token {cs : List Char} {t : Token} (h : Token.read? cs = some (t, rest)) :
    Lexeme.scan line cs = (⟨t, line⟩ :: ·) <$> Lexeme.scan line rest := by
  cases cs with
  | nil => cases h
  | cons c cs =>
    have hblank : c.isWhitespace = false := by
      by_contra hc
      simp only [Char.isWhitespace, Bool.not_eq_false, Bool.or_eq_true, decide_eq_true_eq] at hc
      rcases hc with ((rfl | rfl) | rfl) | rfl <;> cases h
    have hslash : c ≠ '/' := by
      intro h
      subst h
      cases h
    rw [Lexeme.scan]
    · rw [hblank, if_neg (by decide)]
      split <;> simp_all
    · intro more hc _
      exact hslash hc

/-- A character that is known computes its token; a value name is left to its own lemma. -/
theorem scan_cons {c : Char} {cs : List Char} (hread : (Token.read? (c :: cs)).isSome)
    (_ : c ≠ '%') :
    Lexeme.scan line (c :: cs) =
      match Token.read? (c :: cs) with
      | some (t, rest) => (⟨t, line⟩ :: ·) <$> Lexeme.scan line rest
      | none => .error (c, cs) := by
  obtain ⟨⟨t, rest⟩, h⟩ := Option.isSome_iff_exists.1 hread
  rw [scan_token h, h]

theorem StopsAt.word (h : StopsAt continuesToken rest) : StopsAt Token.continuesWord rest :=
  h.mono fun d hd => by simp [continuesToken, hd]

theorem StopsAt.numeral (h : StopsAt continuesToken rest) : StopsAt continuesNumeral rest := by
  refine h.mono fun d hd => ?_
  simp only [continuesNumeral, Bool.or_eq_true, decide_eq_true_eq] at hd
  rcases hd with ((hd | rfl) | rfl) | rfl
  · simp [continuesToken, Token.continuesWord, Char.isAlphanum, hd]
  · rfl
  · rfl
  · rfl

theorem scan_nat {n : Nat} (hn : n < 10 ^ 19) (h : StopsAt continuesToken rest) :
    Lexeme.scan line (Nat.toDigits 10 n ++ rest) =
      (⟨.int n, line⟩ :: ·) <$> Lexeme.scan line rest :=
  scan_token (read?_toDigits_append hn h.numeral)

/-- A name that is read back as it is written. -/
def ValidName (name : String) : Prop := name ≠ "" ∧ ∀ c ∈ name.toList, Token.continuesWord c

theorem scan_value {name : String} (hname : ValidName name) (h : StopsAt continuesToken rest) :
    Lexeme.scan line ('%' :: (name.toList ++ rest)) =
      (⟨.value name, line⟩ :: ·) <$> Lexeme.scan line rest := by
  refine scan_token ?_
  have hne : name.toList ≠ [] := by simpa using hname.1
  have hdigit : Char.isDigit '%' = false := by decide
  have hstart : Token.startsWord '%' = false := by decide
  simp [Token.read?, hdigit, hstart, takeWhile_of_stopsAt hname.2 h.word,
    dropWhile_of_stopsAt hname.2 h.word, hne]

/-- A word that starts with a given character. -/
theorem scan_word {c : Char} {w : List Char} (hc : Token.startsWord c) (hdigit : c.isDigit = false)
    (hw : ∀ d ∈ w, Token.continuesWord d) (h : StopsAt continuesToken rest) :
    Lexeme.scan line (c :: (w ++ rest)) =
      (⟨.ofWord (c :: w), line⟩ :: ·) <$> Lexeme.scan line rest := by
  refine scan_token ?_
  simp [Token.read?, hdigit, hc, takeWhile_of_stopsAt hw h.word, dropWhile_of_stopsAt hw h.word]

/-! ## Types, angles, gates and attributes -/

theorem lt_of_uint32 (n : UInt32) : n.toNat < 10 ^ 19 := n.toNat_lt.trans (by decide)

theorem continuesWord_of_mem_toDigits {n : Nat} : ∀ c ∈ Nat.toDigits 10 n, Token.continuesWord c :=
  fun c hc => by
    have := isDigit_decimalDigits c hc
    simp [Token.continuesWord, Char.isAlphanum, this]

theorem spells_ty (t : Ty) : Spells t.text.toList t.tokens := by
  intro line rest h
  cases t with
  | qubit =>
    simp [Ty.text, Ty.tokens, scan_cons, Token.read?, Token.startsWord, Token.continuesWord,
      Symbol.ofChar?, Token.ofWord, h.word.takeWhile, h.word.dropWhile]
  | int w =>
    have htext : (Ty.int w).text = String.ofList ('i' :: Nat.toDigits 10 w.toNat) :=
      String.toList_inj.1 (by simp [Ty.text])
    rw [show (Ty.int w).tokens = [.word (Ty.int w).text] from rfl, htext, String.toList_ofList,
      List.cons_append, scan_word rfl rfl continuesWord_of_mem_toDigits h]
    simp [Token.ofWord]
  | float w =>
    have htext : (Ty.float w).text = String.ofList ('f' :: Nat.toDigits 10 w.bits) :=
      String.toList_inj.1 (by simp [Ty.text])
    rw [show (Ty.float w).tokens = [.word (Ty.float w).text] from rfl, htext, String.toList_ofList,
      List.cons_append, scan_word rfl rfl continuesWord_of_mem_toDigits h]
    simp [Token.ofWord]
  | index =>
    simp [Ty.text, Ty.tokens, scan_cons, Token.read?, Token.startsWord, Token.continuesWord,
      Token.ofWord, h.word.takeWhile, h.word.dropWhile]
  | gate n =>
    have hgreater : StopsAt continuesToken ('>' :: rest) := by
      simp [continuesToken, Token.continuesWord]
    simp [Ty.text, Ty.tokens, scan_cons, Token.read?, Token.startsWord, Token.continuesWord,
      Symbol.ofChar?, Token.ofWord, scan_nat (lt_of_uint32 n) hgreater]

theorem spells_multiple {n : Numeral} (hn : n.Valid) :
    Spells (n.text ++ ['p', 'i']) [.ofNumeral n, .pi] := by
  intro line rest h
  have hpi : StopsAt continuesNumeral ('p' :: 'i' :: rest) := by
    simp [continuesNumeral]
  have hread := hn.read?_append hpi
  simp [scan_token hread, scan_cons, Token.read?, Token.startsWord, Token.continuesWord,
    Token.ofWord, h.word.takeWhile, h.word.dropWhile]

theorem spells_angle (a : Angle) : Spells a.text.toList a.tokens := by
  unfold Angle.text Angle.tokens
  split
  · intro line rest h
    simpa using scan_nat (n := 0) (by decide) h
  · split
    · intro line rest h
      simp [scan_cons, Token.read?, Token.startsWord, Token.continuesWord, Token.ofWord,
        h.word.takeWhile, h.word.dropWhile]
    · have hmultiple := spells_multiple (valid_numeral (Binary64.shortestDecimal a.bits))
      rw [text_numeral] at hmultiple
      simpa [Angle.text_coefficient] using hmultiple

theorem spells_bracketed {name : String} (hname : name = "rz" ∨ name = "angle") (a : Angle) :
    Spells ("#gate." ++ name ++ "<" ++ a.text ++ ">").toList (a.bracketed name) := by
  intro line rest h
  have hgreater : StopsAt continuesToken ('>' :: rest) := by
    simp [continuesToken, Token.continuesWord]
  have hangle := spells_angle a line _ hgreater
  rcases hname with rfl | rfl
  · simp [Angle.bracketed, scan_cons, Token.read?, Token.startsWord, Token.continuesWord,
      Symbol.ofChar?, Token.ofWord, hangle]
  · simp [Angle.bracketed, scan_cons, Token.read?, Token.startsWord, Token.continuesWord,
      Symbol.ofChar?, Token.ofWord, hangle]

theorem spells_gate (g : Gate) : Spells g.text.toList g.tokens := by
  cases g with
  | rz a => exact spells_bracketed (.inl rfl) a
  | _ =>
    intro line rest h
    simp [Gate.text, Gate.tokens, Gate.name, scan_cons, Token.read?, Token.startsWord,
      Token.continuesWord, Symbol.ofChar?, Token.ofWord, h.word.takeWhile, h.word.dropWhile]

theorem spells_attribute (a : Attribute) : Spells a.text.toList a.tokens := by
  cases a with
  | gate g => exact spells_gate g
  | angle a => exact spells_bracketed (.inr rfl) a
  | ty t => exact spells_ty t
  | int n =>
    intro line rest h
    have hlow := Int64.le_toInt n
    have hhigh := Int64.toInt_lt n
    have habs : n.toInt.natAbs < 10 ^ 19 := by omega
    have hscan : Lexeme.scan line _ = _ := scan_nat habs h
    by_cases hneg : n.toInt < 0
    · have hrepr : (-n.toInt).toNat = n.toInt.natAbs := by omega
      simp [Attribute.text, Attribute.tokens, Int.repr_eq_if, hneg, hneg.not_ge, hrepr, hscan,
        scan_cons, Token.read?, Token.startsWord, Symbol.ofChar?]
    · have hrepr : n.toInt.toNat = n.toInt.natAbs := by omega
      simp [Attribute.text, Attribute.tokens, Int.repr_eq_if, hneg, not_lt.1 hneg, hrepr, hscan]

/-! ## Lists -/

theorem spells_commas {α : Type} {xs : List α} {text : α → String} {tokens : α → List Token}
    (h : ∀ x ∈ xs, Spells (text x).toList (tokens x)) :
    Spells (", ".intercalate (xs.map text)).toList (commas (xs.map tokens)) := by
  induction xs with
  | nil =>
    intro line rest _
    simp [commas]
  | cons x xs ih =>
    obtain ⟨hx, hxs⟩ := List.forall_mem_cons.1 h
    intro line rest hrest
    cases xs with
    | nil => simpa [commas] using hx line rest hrest
    | cons y ys =>
      have htext : (", ".intercalate ((x :: y :: ys).map text)).toList ++ rest =
          (text x).toList ++ ',' :: ' ' ::
            ((", ".intercalate ((y :: ys).map text)).toList ++ rest) := by
        simp
      have htokens : commas ((x :: y :: ys).map tokens) =
          tokens x ++ .symbol .comma :: commas ((y :: ys).map tokens) := by
        simp [commas]
      have hcomma (more : List Char) : Lexeme.scan line (',' :: ' ' :: more) =
          (⟨.symbol .comma, line⟩ :: ·) <$> Lexeme.scan line more := by
        simp [scan_cons, scan_blank, Token.read?, Token.startsWord, Symbol.ofChar?]
      have hstop (more : List Char) : StopsAt continuesToken (',' :: ' ' :: more) := by
        simp [continuesToken, Token.continuesWord]
      rw [htext, hx line _ (hstop _), hcomma, ih hxs line rest hrest, htokens]
      simp

theorem spells_names {names : List String} (h : ∀ n ∈ names, ValidName n) :
    Spells (Body.namesText names).toList (nameTokens names) := by
  refine spells_commas fun n hn => ?_
  intro line rest hrest
  simpa using scan_value (h n hn) hrest

theorem spells_operands {qubits : List String} (types : List Ty)
    (h : ∀ n ∈ qubits, ValidName n) :
    Spells (Body.operandsText qubits types).toList (operandTokens qubits types) := by
  unfold Body.operandsText operandTokens
  intro line rest hrest
  split
  · simp
  · have hblank : StopsAt continuesToken
        (' ' :: ':' :: ' ' :: ((", ".intercalate (types.map Ty.text)).toList ++ rest)) := by
      simp [continuesToken, Token.continuesWord]
    have hnames := spells_names h line _ hblank
    have htypes := spells_commas (fun t (_ : t ∈ types) => spells_ty t) line rest hrest
    have hcolon (more : List Char) : Lexeme.scan line (' ' :: ':' :: ' ' :: more) =
        (⟨.symbol .colon, line⟩ :: ·) <$> Lexeme.scan line more := by
      simp [scan_cons, scan_blank, Token.read?, Token.startsWord, Symbol.ofChar?]
    have htext : (" " ++ Body.namesText qubits ++ " : " ++
        ", ".intercalate (types.map Ty.text)).toList ++ rest =
        ' ' :: ((Body.namesText qubits).toList ++
          ' ' :: ':' :: ' ' :: ((", ".intercalate (types.map Ty.text)).toList ++ rest)) := by
      simp
    rw [htext, scan_blank, hnames, hcolon, htypes]
    simp

/-! ## Statements -/

/-- The names of a body can be read back, and an operand list has as many types as names. -/
def Body.Printable : Body → Prop
  | constant _ => True
  | quaternion _ real i j k => ValidName real ∧ ValidName i ∧ ValidName j ∧ ValidName k
  | compose lhs rhs _ => ValidName lhs ∧ ValidName rhs
  | xzs x z phase => ValidName x ∧ ValidName z ∧ ValidName phase
  | qrefGate _ qubits types | qssaGate _ qubits types =>
    (∀ n ∈ qubits, ValidName n) ∧ types.length = qubits.length
  | qrefDynGate g qubits types =>
    ValidName g ∧ (∀ n ∈ qubits, ValidName n) ∧ types.length = qubits.length
  | qrefMeasure q | qssaMeasure q => ValidName q

theorem spells_name (b : Body) : Spells b.name.toList
    [.word b.dialect, .symbol .dot, .word b.operation] := by
  intro line rest hrest
  cases b <;>
    simp [Body.name, Body.dialect, Body.operation, scan_cons, Token.read?, Token.startsWord,
      Token.continuesWord, Symbol.ofChar?, Token.ofWord, hrest.word.takeWhile, hrest.word.dropWhile]

/-- What follows the name of a body in its text. -/
def Body.restText : Body → String
  | constant g => " " ++ g.text
  | quaternion t real i j k =>
    "<" ++ t.text ++ "> %" ++ real ++ " + %" ++ i ++ " i + %" ++ j ++ " j + %" ++ k ++ " k"
  | compose lhs rhs t => " " ++ namesText [lhs, rhs] ++ " : " ++ t.text
  | xzs x z phase => " " ++ namesText [x, z, phase]
  | qrefGate a qubits types | qssaGate a qubits types =>
    "<" ++ a.text ++ ">" ++ operandsText qubits types
  | qrefDynGate g qubits types => "<%" ++ g ++ ">" ++ operandsText qubits types
  | qrefMeasure q | qssaMeasure q => " " ++ namesText [q]

theorem Body.text_eq (b : Body) : b.text = b.name ++ b.restText := by cases b <;> rfl

theorem spells_rest {b : Body} (h : b.Printable) : Spells b.restText.toList b.restTokens := by
  intro line rest hrest
  cases b with
  | constant g =>
    have hg := spells_gate g line rest hrest
    simp [Body.restText, Body.restTokens, scan_blank, hg]
  | quaternion t real i j k =>
    obtain ⟨hreal, hi, hj, hk⟩ := h
    have ht := spells_ty t line
    simp [Body.restText, Body.restTokens, scan_cons, scan_blank, Token.read?, Token.startsWord,
      Token.continuesWord, Symbol.ofChar?, Token.ofWord, continuesToken, ht, scan_value hreal,
      scan_value hi, scan_value hj, scan_value hk, hrest.word.takeWhile, hrest.word.dropWhile]
  | compose lhs rhs t =>
    obtain ⟨hlhs, hrhs⟩ := h
    have ht := spells_ty t line rest hrest
    simp [Body.restText, Body.restTokens, Body.namesText, scan_cons, scan_blank, Token.read?,
      Token.startsWord, Token.continuesWord, Symbol.ofChar?, continuesToken, ht, scan_value hlhs,
      scan_value hrhs]
  | xzs x z phase =>
    obtain ⟨hx, hz, hphase⟩ := h
    simp [Body.restText, Body.restTokens, Body.namesText, scan_cons, scan_blank, Token.read?,
      Token.startsWord, Token.continuesWord, Symbol.ofChar?, continuesToken, scan_value hx,
      scan_value hz, scan_value hphase hrest]
  | qrefGate a qubits types =>
    have ha := spells_attribute a line
    have hoperands := spells_operands types h.1 line rest hrest
    simp [Body.restText, Body.restTokens, scan_cons, Token.read?, Token.startsWord,
      Token.continuesWord, Symbol.ofChar?, continuesToken, ha, hoperands]
  | qrefDynGate g qubits types =>
    have hoperands := spells_operands types h.2.1 line rest hrest
    simp [Body.restText, Body.restTokens, scan_cons, Token.read?, Token.startsWord,
      Token.continuesWord, Symbol.ofChar?, continuesToken, scan_value h.1, hoperands]
  | qrefMeasure q =>
    simp [Body.restText, Body.restTokens, Body.namesText, scan_blank, scan_value h hrest]
  | qssaGate a qubits types =>
    have ha := spells_attribute a line
    have hoperands := spells_operands types h.1 line rest hrest
    simp [Body.restText, Body.restTokens, scan_cons, Token.read?, Token.startsWord,
      Token.continuesWord, Symbol.ofChar?, continuesToken, ha, hoperands]
  | qssaMeasure q =>
    simp [Body.restText, Body.restTokens, Body.namesText, scan_blank, scan_value h hrest]

theorem stopsAt_restText (b : Body) (rest : List Char) :
    StopsAt continuesToken (b.restText.toList ++ rest) := by
  cases b <;> simp [Body.restText, continuesToken, Token.continuesWord]

theorem spells_body {b : Body} (h : b.Printable) : Spells b.text.toList b.tokens := by
  intro line rest hrest
  rw [Body.text_eq, String.toList_append, List.append_assoc,
    spells_name b line _ (stopsAt_restText b rest), spells_rest h line rest hrest, Body.tokens]
  simp

theorem spells_statement {s : Statement} (hresults : ∀ n ∈ s.results, ValidName n)
    (hbody : s.body.Printable) : Spells s.text.toList s.tokens := by
  intro line rest hrest
  have hb := spells_body hbody line rest hrest
  unfold Statement.text Statement.tokens
  split
  · simpa using hb
  · have hequals (more : List Char) : Lexeme.scan line (' ' :: '=' :: ' ' :: more) =
        (⟨.symbol .equals, line⟩ :: ·) <$> Lexeme.scan line more := by
      simp [scan_cons, scan_blank, Token.read?, Token.startsWord, Symbol.ofChar?]
    have hblank : StopsAt continuesToken (' ' :: '=' :: ' ' :: (s.body.text.toList ++ rest)) := by
      simp [continuesToken, Token.continuesWord]
    have hnames := spells_names hresults line _ hblank
    have htext : (Body.namesText s.results ++ " = " ++ s.body.text).toList ++ rest =
        (Body.namesText s.results).toList ++ ' ' :: '=' :: ' ' :: (s.body.text.toList ++ rest) := by
      simp
    rw [htext, hnames, hequals, hb]
    simp

/-! ## Programs -/

/-- The tokens of the first line. -/
def Program.headTokens (p : Program) : List Token :=
  [.circuit, .symbol .openParen] ++ commas (p.arguments.map Argument.tokens) ++
    [.symbol .closeParen, .symbol .openBrace]

/-- The lexemes of a printed program. The closing brace stands on the line after the statements. -/
def Program.lexemes (p : Program) : List Lexeme :=
  p.headTokens.map (Lexeme.mk · 1) ++
    p.statements.flatMap (fun s => s.tokens.map (Lexeme.mk · s.line)) ++
    [⟨.symbol .closeBrace, p.statements.length + 2⟩]

/-- A program as it is printed: its names can be read back, its operand lists have their types, and
its statements stand on consecutive lines from the second one. -/
structure Program.Printable (p : Program) : Prop where
  arguments : ∀ a ∈ p.arguments, ValidName a.name
  results : ∀ s ∈ p.statements, ∀ n ∈ s.results, ValidName n
  bodies : ∀ s ∈ p.statements, s.body.Printable
  lines : p.statements.map (·.line) = List.range' 2 p.statements.length

theorem spells_argument {a : Argument} (h : ValidName a.name) : Spells a.text.toList a.tokens := by
  intro line rest hrest
  have ht := spells_ty a.ty line rest hrest
  simp [Argument.text, Argument.tokens, scan_cons, scan_blank, Token.read?, Token.startsWord,
    Token.continuesWord, Symbol.ofChar?, continuesToken, ht, scan_value h]

theorem scan_replicate_blank (n : Nat) :
    Lexeme.scan line (List.replicate n ' ' ++ rest) = Lexeme.scan line rest := by
  induction n with
  | zero => rfl
  | succ n ih => rw [List.replicate_succ, List.cons_append, scan_blank, ih]

/-- Statements on consecutive lines, and what follows them. -/
theorem scan_statements {ss : List Statement} (indent : Nat)
    (hresults : ∀ s ∈ ss, ∀ n ∈ s.results, ValidName n) (hbodies : ∀ s ∈ ss, s.body.Printable)
    (hlines : ss.map (·.line) = List.range' line ss.length) :
    Lexeme.scan line (ss.flatMap (fun s => List.replicate indent ' ' ++ s.text.toList ++ ['\n']) ++
        rest) =
      (ss.flatMap (fun s => s.tokens.map (Lexeme.mk · s.line)) ++ ·) <$>
        Lexeme.scan (line + ss.length) rest := by
  induction ss generalizing line with
  | nil => simp
  | cons s ss ih =>
    obtain ⟨hresult, hresults⟩ := List.forall_mem_cons.1 hresults
    obtain ⟨hbody, hbodies⟩ := List.forall_mem_cons.1 hbodies
    simp only [List.map_cons, List.length_cons, List.range'_succ, List.cons.injEq] at hlines
    obtain ⟨hline, hlines⟩ := hlines
    have hnewline (more : List Char) : StopsAt continuesToken ('\n' :: more) := by
      simp [continuesToken, Token.continuesWord]
    have hs := fun more => spells_statement hresult hbody line _ (hnewline more)
    rw [List.flatMap_cons, List.append_assoc, List.append_assoc, List.append_assoc,
      scan_replicate_blank, List.singleton_append, hs, scan_newline, ih hresults hbodies hlines]
    simp [hline, Nat.add_assoc, Nat.add_comm 1]

theorem Program.toList_text (p : Program) (indent : Nat) :
    (p.text indent).toList = "circuit(".toList ++
      ((", ".intercalate (p.arguments.map Argument.text)).toList ++ ')' :: ' ' :: '{' :: '\n' ::
        (p.statements.flatMap (fun s => List.replicate indent ' ' ++ s.text.toList ++ ['\n']) ++
          ['}', '\n'])) := by
  simp [Program.text, List.flatMap_map]

theorem scan_open : Lexeme.scan line ("circuit(".toList ++ rest) =
    (⟨.circuit, line⟩ :: ⟨.symbol .openParen, line⟩ :: ·) <$> Lexeme.scan line rest := by
  simp [scan_cons, Token.read?, Token.startsWord, Token.continuesWord, Symbol.ofChar?, Token.ofWord]

theorem scan_close : Lexeme.scan line (')' :: ' ' :: '{' :: '\n' :: rest) =
    (⟨.symbol .closeParen, line⟩ :: ⟨.symbol .openBrace, line⟩ :: ·) <$>
      Lexeme.scan (line + 1) rest := by
  simp [scan_cons, scan_blank, scan_newline, Token.read?, Token.startsWord, Symbol.ofChar?]

theorem scan_program {p : Program} (h : p.Printable) (indent : Nat) :
    Lexeme.scan 1 (p.text indent).toList = .ok p.lexemes := by
  have hstop (more : List Char) : StopsAt continuesToken (')' :: more) := by
    simp [continuesToken, Token.continuesWord]
  have hend (line : Nat) : Lexeme.scan line ['}', '\n'] = .ok [⟨.symbol .closeBrace, line⟩] := by
    simp [scan_cons, scan_newline, Token.read?, Token.startsWord, Symbol.ofChar?, Lexeme.scan]
  have harguments := fun more =>
    spells_commas (fun a ha => spells_argument (h.arguments a ha)) 1 _ (hstop more)
  rw [p.toList_text, scan_open, harguments, scan_close,
    scan_statements indent h.results h.bodies h.lines, hend]
  simp [Program.lexemes, Program.headTokens, Nat.add_comm 2]

/-! ## Whole texts -/

theorem ofText_of_spells {text : String} {ts : List Token} (h : Spells text.toList ts) :
    Lexeme.ofText text = .ok (ts.map (Lexeme.mk · 1)) := by
  have hscan := h 1 [] stopsAt_nil
  rw [List.append_nil, Lexeme.scan] at hscan
  rw [Lexeme.ofText, hscan]
  simp [Functor.map, Except.map, Except.mapError]

theorem ofText_program {p : Program} (h : p.Printable) (indent : Nat) :
    Lexeme.ofText (p.text indent) = .ok p.lexemes := by
  rw [Lexeme.ofText, scan_program h]
  rfl

end Text

end GateIR

import GateIR.Text.Numeral

/-!
# Tokens

The tokens of the circuit text format and the text of each. Dotted names such as `qref.gate` are words
with points between them.

`Token.read?` takes the longest token at the front of a text. A numeral without point and power of ten
is an integer if it has at most nineteen digits, which always fit in 64 bits; every other numeral
stands for the double nearest to it.
-/

namespace GateIR.Text

/-- The tokens of one punctuation character. -/
inductive Symbol where
  | hash
  | bang
  | plus
  | minus
  | equals
  | less
  | greater
  | openParen
  | closeParen
  | openBrace
  | closeBrace
  | colon
  | comma
  | dot
deriving DecidableEq

namespace Symbol

def char : Symbol → Char
  | hash => '#'
  | bang => '!'
  | plus => '+'
  | minus => '-'
  | equals => '='
  | less => '<'
  | greater => '>'
  | openParen => '('
  | closeParen => ')'
  | openBrace => '{'
  | closeBrace => '}'
  | colon => ':'
  | comma => ','
  | dot => '.'

def ofChar? : Char → Option Symbol
  | '#' => some hash
  | '!' => some bang
  | '+' => some plus
  | '-' => some minus
  | '=' => some equals
  | '<' => some less
  | '>' => some greater
  | '(' => some openParen
  | ')' => some closeParen
  | '{' => some openBrace
  | '}' => some closeBrace
  | ':' => some colon
  | ',' => some comma
  | '.' => some dot
  | _ => none

end Symbol

/-- A token. -/
inductive Token where
  /-- The keyword `circuit`. -/
  | circuit
  /-- The keyword `pi`. -/
  | pi
  /-- A numeral that stands for a double. -/
  | real (x : Binary64)
  /-- A numeral that stands for an integer. -/
  | int (n : Nat)
  /-- The name of a value, without its `%`. -/
  | value (name : String)
  /-- Any other name. -/
  | word (name : String)
  | symbol (s : Symbol)
deriving DecidableEq

namespace Token

/-- The text of a token in messages. -/
def text : Token → String
  | circuit => "circuit"
  | pi => "pi"
  | real x => x.text
  | int n => n.repr
  | value name => "%" ++ name
  | word name => name
  | symbol s => String.singleton s.char

/-- A character that starts a word. -/
def startsWord (c : Char) : Bool := c.isAlpha || c = '_'

/-- A character of a word. -/
def continuesWord (c : Char) : Bool := c.isAlphanum || c = '_'

/-- The token of a numeral. -/
def ofNumeral (n : Numeral) : Token :=
  match n with
  | ⟨whole, none, none⟩ =>
    if whole.length < 20 then int (digitsValue whole) else real (.ofDecimal n.value)
  | _ => real (.ofDecimal n.value)

/-- The token of a word: a keyword or a name. -/
def ofWord (cs : List Char) : Token :=
  if cs = ['c', 'i', 'r', 'c', 'u', 'i', 't'] then circuit
  else if cs = ['p', 'i'] then pi
  else word (String.ofList cs)

/-- The longest token at the front of a text, and what comes after it. -/
def read? : List Char → Option (Token × List Char)
  | [] => none
  | c :: cs =>
    if c.isDigit then
      let (n, rest) := Numeral.read (c :: cs)
      some (ofNumeral n, rest)
    else if startsWord c then
      some (ofWord (c :: cs.takeWhile continuesWord), cs.dropWhile continuesWord)
    else if c = '%' then
      if cs.takeWhile continuesWord = [] then none
      else some (value (String.ofList (cs.takeWhile continuesWord)), cs.dropWhile continuesWord)
    else
      (Symbol.ofChar? c).map fun s => (symbol s, cs)

/-- A token takes at least one character. -/
theorem length_of_read? {cs rest : List Char} {t : Token}
    (h : read? cs = some (t, rest)) : rest.length < cs.length := by
  cases cs with
  | nil => simp [read?] at h
  | cons c cs =>
    have hd := (List.dropWhile_suffix (l := cs) continuesWord).length_le
    simp only [read?] at h
    split at h
    · next hc =>
      have := Numeral.length_read hc cs
      simp only [Option.some.injEq, Prod.mk.injEq] at h
      rw [← h.2, List.length_cons]
      omega
    · split at h
      · simp only [Option.some.injEq, Prod.mk.injEq] at h
        rw [← h.2, List.length_cons]
        omega
      · split at h
        · split at h
          · simp at h
          · simp only [Option.some.injEq, Prod.mk.injEq] at h
            rw [← h.2, List.length_cons]
            omega
        · obtain ⟨s, -, hs⟩ := Option.map_eq_some_iff.1 h
          simp only [Prod.mk.injEq] at hs
          rw [← hs.2, List.length_cons]
          omega

end Token

end GateIR.Text

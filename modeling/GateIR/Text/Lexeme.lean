import GateIR.Text.Error
import GateIR.Text.Token

/-!
# Lexemes

A lexeme is a token with the line it starts on. `Lexeme.ofText` splits a whole text into lexemes;
blanks (space, tab, carriage return, newline) and comments, which run from `//` to the end of the line,
stand between tokens and are dropped.

The first character that starts no token is an error at its byte position. Tokens are ASCII and never
span a line; any other character may stand in a comment.
-/

namespace GateIR.Text

/-- A token and the line it starts on, counted from one. -/
structure Lexeme where
  token : Token
  line : Nat
deriving DecidableEq

namespace Lexeme

/-- The lexemes of a text that starts on a line, or the first character that starts none, with what
comes after it. -/
def scan (line : Nat) (cs : List Char) : Except (Char × List Char) (List Lexeme) :=
  match cs with
  | [] => .ok []
  | '/' :: '/' :: rest => scan line (rest.dropWhile (· ≠ '\n'))
  | c :: rest =>
    if c.isWhitespace then
      scan (if c = '\n' then line + 1 else line) rest
    else
      match _h : Token.read? (c :: rest) with
      | some (t, rest) => (⟨t, line⟩ :: ·) <$> scan line rest
      | none => .error (c, rest)
termination_by cs.length
decreasing_by
  · have := (List.dropWhile_suffix (l := rest) (· ≠ '\n')).length_le
    simp only [List.length_cons]
    omega
  · simp
  · exact Token.length_of_read? ‹_›

/-- The lexemes of a text. -/
def ofText (text : String) : Except Error (List Lexeme) :=
  (scan 1 text.toList).mapError fun (c, rest) =>
    .invalidToken (text.utf8ByteSize - (String.ofList (c :: rest)).utf8ByteSize) c

end Lexeme

end GateIR.Text

import GateIR.Circuit.Basic

/-!
# Errors of the text format

Everything that can go wrong when a text is read, resolved to a circuit or written.
-/

namespace GateIR.Text

/-- What is wrong with a text or with the circuit it is read from or written for. -/
inductive Error where
  /-- No token starts with the character at a byte position. -/
  | invalidToken (position : Nat) (c : Char)
  /-- A line holds something else than what was expected. -/
  | unexpectedToken (line : Nat) (expected found : String)
  /-- The text ends where something was expected. -/
  | unexpectedEnd (expected : String)
  /-- A nonzero coefficient of an angle lacks its `pi`. -/
  | missingPi (line : Nat) (coefficient : Binary64)
  | unknownGate (name : String)
  | unknownType (name : String)
  | unknownInstruction (name : String)
  /-- A name is used that nothing before defines. -/
  | undefinedValue (name : String)
  /-- A name is defined twice. -/
  | duplicateName (name : String)
  /-- A value has another type than its annotation says. -/
  | misdeclared (name : String) (declared actual : Ty)
  /-- A type list has another length than the operand list it annotates. -/
  | typeCount (instruction : String) (expected found : Nat)
  /-- An instruction is given another number of result names than it has results. -/
  | resultCount (instruction : String) (expected found : Nat)
  | inCircuit (e : CircuitError)
deriving DecidableEq

def Error.message : Error → String
  | invalidToken p c =>
    "Lexer error at position " ++ p.repr ++ ": Invalid token: '" ++ String.singleton c ++ "'"
  | unexpectedToken l e f =>
    "Unexpected token at line " ++ l.repr ++ ": expected " ++ e ++ ", found " ++ f
  | unexpectedEnd e => "Unexpected end of input: " ++ e
  | missingPi l c =>
    "Invalid angle at line " ++ l.repr ++ ": coefficient " ++ c.text ++
      " must be followed by 'pi'"
  | unknownGate n => "Unknown gate: " ++ n
  | unknownType n => "Unknown type: " ++ n
  | unknownInstruction n => "Unknown operation: " ++ n
  | undefinedValue n => "Undefined value: %" ++ n
  | duplicateName n => "Duplicate declaration: %" ++ n
  | misdeclared n t u =>
    "Value %" ++ n ++ " declared as " ++ t.text ++ ", but has type " ++ u.text
  | typeCount i m n => "'" ++ i ++ "' lists " ++ n.repr ++ " types for " ++ m.repr ++ " operands"
  | resultCount i m n =>
    "'" ++ i ++ "' produces " ++ m.repr ++ " results, but " ++ n.repr ++ " names were given"
  | inCircuit e => "Circuit error: " ++ e.message

end GateIR.Text

import GateIR.Text.Parser.Attribute
import GateIR.Text.Program

/-!
# Parsing programs

A program is `circuit(arguments) { statements }`. A statement gives names to the results of an
instruction, if it has any, and needs no separator from the next one: an operand list is one only if
its names are followed by a colon, so names that are followed by `=` start the next statement.
-/

namespace GateIR.Text.Parser

/-! ## Operands -/

/-- Whether value names with commas between them come next, and then a colon. -/
def operandsAhead : List Lexeme → Bool
  | ⟨.value _, _⟩ :: ⟨.symbol .comma, _⟩ :: rest => operandsAhead rest
  | ⟨.value _, _⟩ :: ⟨.symbol .colon, _⟩ :: _ => true
  | _ => false

/-- An optional operand list with its types. -/
def operands : Parser (List String × List Ty) := do
  if ← lookahead operandsAhead then
    let names ← commaSeparated valueName
    expect (.symbol .colon)
    let types ← commaSeparated ty
    return (names, types)
  else
    return ([], [])

/-- An item in angle brackets. -/
def bracketed {α : Type} (p : Parser α) : Parser α := do
  expect (.symbol .less)
  let a ← p
  expect (.symbol .greater)
  return a

/-! ## Instructions -/

def quaternion : Parser Body := do
  let t ← bracketed ty
  let real ← valueName
  expect (.symbol .plus)
  let i ← valueName
  keyword "i"
  expect (.symbol .plus)
  let j ← valueName
  keyword "j"
  expect (.symbol .plus)
  let k ← valueName
  keyword "k"
  return .quaternion t real i j k

def compose : Parser Body := do
  let lhs ← valueName
  expect (.symbol .comma)
  let rhs ← valueName
  expect (.symbol .colon)
  let t ← ty
  return .compose lhs rhs t

def xzs : Parser Body := do
  let x ← valueName
  expect (.symbol .comma)
  let z ← valueName
  expect (.symbol .comma)
  let phase ← valueName
  return .xzs x z phase

/-- What follows the name of an instruction. -/
def bodyOf (dialect name : String) : Parser Body :=
  match dialect, name with
  | "gate", "constant" => return .constant (← gate)
  | "gate", "quaternion" => quaternion
  | "gate", "compose" => compose
  | "gate", "xzs" => xzs
  | "qref", "gate" => do
    let a ← bracketed attr
    let (qubits, types) ← operands
    return .qrefGate a qubits types
  | "qref", "dyn_gate" => do
    let g ← bracketed valueName
    let (qubits, types) ← operands
    return .qrefDynGate g qubits types
  | "qref", "measure" => return .qrefMeasure (← valueName)
  | "qssa", "gate" => do
    let a ← bracketed attr
    let (qubits, types) ← operands
    return .qssaGate a qubits types
  | "qssa", "measure" => return .qssaMeasure (← valueName)
  | _, _ => fail (.unknownInstruction (dialect ++ "." ++ name))

def body : Parser Body := do
  let dialect ← identifier
  expect (.symbol .dot)
  let name ← identifier
  bodyOf dialect name

/-! ## Statements and programs -/

/-- The names of the results, if a value name comes next. -/
def resultNames : Parser (List String) := do
  match ← peek with
  | some (.value _) =>
    let names ← commaSeparated valueName
    expect (.symbol .equals)
    return names
  | _ => return []

/-- The line of the next token. -/
def nextLine : Parser Nat := lookahead fun ts => ts.head?.elim 1 (·.line)

def statement : Parser Statement := do
  let line ← nextLine
  let results ← resultNames
  let body ← body
  return { results, body, line }

theorem consumes_statement : statement.Consumes :=
  .bind_right _ fun _ => .bind_right _ fun _ => .bind_left (.bind_left (consumes_token _ _) _) _

def argument : Parser Argument := do
  let name ← valueName
  expect (.symbol .colon)
  let t ← ty
  return ⟨name, t⟩

def arguments : Parser (List Argument) := do
  if (← peek) = some (.symbol .closeParen) then return []
  else commaSeparated argument

def program : Parser Program := do
  expect .circuit
  expect (.symbol .openParen)
  let arguments ← arguments
  expect (.symbol .closeParen)
  expect (.symbol .openBrace)
  let statements ← manyUntil (.symbol .closeBrace) "'\x7d'" statement consumes_statement
  expect (.symbol .closeBrace)
  return { arguments, statements }

end GateIR.Text.Parser

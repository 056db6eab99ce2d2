import GateIR.Circuit.Basic
import GateIR.Text.Error
import GateIR.Text.Program

/-!
# Naming the values of a circuit

`Circuit.toProgram` is the program that a circuit is written as. Every value is named by its number in
the order of definitions, the arguments first and then the results of each instruction; a value that is
defined more than once goes by its last number. Annotations are the types in the value table.
-/

namespace GateIR

/-- The settings of the printer. -/
structure PrintConfig where
  /-- The number of spaces before each statement. A string that is printed has less than `2 ^ 63`
  bytes, so no statement can be written behind as many spaces or more. -/
  indent : Nat := 2
  /-- The text between the `%` and the number of each value. -/
  valuePrefix : String := ""
deriving DecidableEq

/-- The last position of a value in a list. -/
def lastIndex? (v : Value) : List Value → Option Nat
  | [] => none
  | w :: rest =>
    match lastIndex? v rest with
    | some n => some (n + 1)
    | none => if w = v then some 0 else none

namespace Circuit

open Text (Argument Body Program Statement)

/-- The name of a value. -/
def nameOf (c : Circuit) (namePrefix : String) (v : Value) : Except CircuitError String :=
  match lastIndex? v c.definitions with
  | some n => .ok (namePrefix ++ n.repr)
  | none => .error (.unknownValue v)

/-- The names of several values; the first unknown one is reported. -/
def namesOf (c : Circuit) (namePrefix : String) (vs : List Value) :
    Except CircuitError (List String) :=
  vs.mapM (c.nameOf namePrefix)

/-- An operand list with its types; types are looked up before names. -/
def operandsOf (c : Circuit) (namePrefix : String) (vs : List Value) :
    Except CircuitError (List String × List Ty) := do
  let types ← c.typesOf vs
  let names ← c.namesOf namePrefix vs
  return (names, types)

/-- An instruction with its operands by name. -/
def bodyOf (c : Circuit) (namePrefix : String) (i : Instruction) : Except CircuitError Body :=
  let name := c.nameOf namePrefix
  match i with
  | .constant g _ => return .constant g
  | .quaternion real i j k _ => do
    let t ← c.typeOf real
    return .quaternion t (← name real) (← name i) (← name j) (← name k)
  | .compose lhs rhs out => return .compose (← name lhs) (← name rhs) (← c.typeOf out)
  | .xzs x z phase _ => return .xzs (← name x) (← name z) (← name phase)
  | .qrefGate a ins => do
    let (qubits, types) ← c.operandsOf namePrefix ins
    return .qrefGate a qubits types
  | .qrefDynGate ins g => do
    let g ← name g
    let (qubits, types) ← c.operandsOf namePrefix ins
    return .qrefDynGate g qubits types
  | .qrefMeasure q _ => return .qrefMeasure (← name q)
  | .qssaGate a ins _ => do
    let (qubits, types) ← c.operandsOf namePrefix ins
    return .qssaGate a qubits types
  | .qssaMeasure q _ _ => return .qssaMeasure (← name q)

/-- The statement of an instruction, which stands on the given line. -/
def statementOf (c : Circuit) (namePrefix : String) (i : Instruction) (line : Nat) :
    Except CircuitError Statement := do
  let body ← c.bodyOf namePrefix i
  let results ← c.namesOf namePrefix i.results
  return { results, body, line }

/-- An argument with its name and type. -/
def argumentOf (c : Circuit) (namePrefix : String) (v : Value) : Except CircuitError Argument :=
  return ⟨← c.nameOf namePrefix v, ← c.typeOf v⟩

/-- The program that a circuit is written as; the first statement stands on the second line. -/
def toProgram (c : Circuit) (namePrefix : String) : Except CircuitError Program := do
  let arguments ← c.arguments.toList.mapM (c.argumentOf namePrefix)
  let statements ← (c.instructions.toList.zipIdx 2).mapM fun (i, line) =>
    c.statementOf namePrefix i line
  return { arguments, statements }

/-- The canonical text of a circuit. The length of the text is not limited here, so a statement that
there is one under any configuration asks for an indentation below `2 ^ 63`. -/
def text (c : Circuit) (config : PrintConfig) : Except Text.Error String :=
  match c.toProgram config.valuePrefix with
  | .ok p => .ok (p.text config.indent)
  | .error e => .error (.inCircuit e)

end Circuit

end GateIR

import GateIR.Circuit.Builder
import GateIR.Text.Error
import GateIR.Text.Program

/-!
# Resolving names

`Program.toCircuit` builds the circuit of a program. Names are resolved in program order: a name can be
used after the argument or the statement that defines it, and is defined once. Type annotations are
compared with the types in the value table.
-/

namespace GateIR.Text

/-- A circuit under construction and the names of its values. -/
structure Scope where
  circuit : Circuit := {}
  names : List (String × Value) := []

/-- A step of resolving; it may extend the scope. -/
abbrev Resolve := StateT Scope (Except Error)

namespace Resolve

/-- An error of the circuit, as an error of its text. -/
def ofCircuit {α : Type} (r : Except CircuitError α) : Resolve α := r.mapError Error.inCircuit

/-- Adds to the circuit. -/
def build {α : Type} (b : Builder α) : Resolve α := do
  let s ← get
  let (r, c) := b.run.run s.circuit
  set { s with circuit := c }
  ofCircuit r

/-- Gives a name to a value. -/
def define (name : String) (v : Value) : Resolve Unit := do
  let s ← get
  if (s.names.lookup name).isSome then throw (.duplicateName name)
  else set { s with names := (name, v) :: s.names }

/-- The value with a name. -/
def value (name : String) : Resolve Value := do
  match (← get).names.lookup name with
  | some v => return v
  | none => throw (.undefinedValue name)

/-- The value with a name, which is annotated with a type. -/
def typedValue (name : String) (declared : Ty) : Resolve Value := do
  let v ← value name
  let actual ← ofCircuit ((← get).circuit.typeOf v)
  if actual = declared then return v
  else throw (.misdeclared name declared actual)

/-- The values of an operand list, which is annotated with a type list. -/
def typedValues (instruction : String) (names : List String) (types : List Ty) :
    Resolve (List Value) := do
  if names.length = types.length then
    (names.zip types).mapM fun (name, t) => typedValue name t
  else
    throw (.typeCount instruction names.length types.length)

/-- Adds the instruction; gives its results. -/
def body (b : Body) : Resolve (List Value) := do
  match b with
  | .constant g => return [← build (Circuit.constant g)]
  | .quaternion t real i j k =>
    let real ← typedValue real t
    let i ← typedValue i t
    let j ← typedValue j t
    let k ← typedValue k t
    return [← build (Circuit.quaternion real i j k)]
  | .compose lhs rhs t =>
    let lhs ← value lhs
    let rhs ← value rhs
    return [← build (Circuit.composeAs lhs rhs t)]
  | .xzs x z phase =>
    let x ← value x
    let z ← value z
    let phase ← value phase
    return [← build (Circuit.xzs x z phase)]
  | .qrefGate a qubits types =>
    let qubits ← typedValues b.name qubits types
    build (Circuit.qrefGate a qubits)
    return []
  | .qrefDynGate g qubits types =>
    let qubits ← typedValues b.name qubits types
    let g ← value g
    build (Circuit.qrefDynGate g qubits)
    return []
  | .qrefMeasure q =>
    let q ← value q
    return [← build (Circuit.qrefMeasure q)]
  | .qssaGate a qubits types =>
    let qubits ← typedValues b.name qubits types
    build (Circuit.qssaGate a qubits)
  | .qssaMeasure q =>
    let q ← value q
    let (out, outQubit) ← build (Circuit.qssaMeasure q)
    return [out, outQubit]

/-- Adds the instruction and names its results. -/
def statement (s : Statement) : Resolve Unit := do
  if s.results.length = s.body.resultCount then
    let values ← body s.body
    (s.results.zip values).forM fun (name, v) => define name v
  else
    throw (.resultCount s.body.name s.body.resultCount s.results.length)

/-- Adds an argument and names it. -/
def argument (a : Argument) : Resolve Unit := do
  let v ← build (Circuit.addArgument a.ty)
  define a.name v

def program (p : Program) : Resolve Unit := do
  p.arguments.forM argument
  p.statements.forM statement

end Resolve

/-- The circuit of a program. -/
def Program.toCircuit (p : Program) : Except Error Circuit := do
  let (_, s) ← (Resolve.program p).run {}
  return s.circuit

end GateIR.Text

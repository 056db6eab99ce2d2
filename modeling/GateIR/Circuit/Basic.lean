import GateIR.Instruction.Basic
import GateIR.Typing.Basic

/-!
# Circuits

A circuit is a straight-line list of instructions with a table of the values they speak of. Entry
arguments stand for the qubits and scalars that a caller supplies.

Nothing here makes the three parts fit each other: a circuit may come from data and be inconsistent.
The builder keeps them fitting, and the typing check looks at what they say.
-/

namespace GateIR

/-- A straight-line list of instructions over a table of values. -/
structure Circuit where
  /-- The entry arguments, in order. -/
  arguments : Array Value := #[]
  /-- The entry of every value, at the position of its handle. -/
  table : Array Entry := #[]
  /-- The instructions, in program order. -/
  instructions : Array Instruction := #[]
deriving DecidableEq

/-- The way in which a circuit is inconsistent. -/
inductive CircuitError where
  /-- A handle lies outside the value table. -/
  | unknownValue (v : Value)
  /-- The instruction at a position breaks its typing rule. -/
  | illTyped (index : Nat) (name : String) (cause : Violation)
deriving DecidableEq

def CircuitError.message : CircuitError → String
  | unknownValue v => "Value " ++ v.text ++ " is not defined in circuit"
  | illTyped k name cause =>
    "Instruction " ++ k.repr ++ " ('" ++ name ++ "') failed verification: " ++ cause.message

namespace Circuit

/-- The table entry of a value. -/
def entry (c : Circuit) (v : Value) : Except CircuitError Entry :=
  match c.table[v.index]? with
  | some e => .ok e
  | none => .error (.unknownValue v)

/-- The type of a value. -/
def typeOf (c : Circuit) (v : Value) : Except CircuitError Ty := (·.ty) <$> c.entry v

/-- The types of several values; the first unknown one is reported. -/
def typesOf (c : Circuit) (vs : List Value) : Except CircuitError (List Ty) := vs.mapM c.typeOf

/-- The places that define values, in order: the arguments, then the results of each instruction. -/
def definitions (c : Circuit) : List Value :=
  c.arguments.toList ++ c.instructions.toList.flatMap Instruction.results

end Circuit

end GateIR

import GateIR.Attribute
import GateIR.Value

/-!
# Instructions

The nine instructions, in three dialects.

- `gate`: computes gate values.
- `qref`: applies gates to qubit references, which are changed in place.
- `qssa`: applies gates to qubit values; each application consumes its qubits and produces new ones.
-/

namespace GateIR

/-- An instruction with the handles it consumes and produces. -/
inductive Instruction where
  /-- Lifts a gate to a value of its gate type. -/
  | constant (gate : Gate) (out : Value)
  /-- The single-qubit gate of the quaternion `real + i·i + j·j + k·k`. -/
  | quaternion (real i j k out : Value)
  /-- The gate that applies `lhs`, then `rhs`. -/
  | compose (lhs rhs out : Value)
  /-- A Pauli-frame correction: `X` if `x`, then `Z` if `z`, then a quarter turn if `phase`. -/
  | xzs (x z phase out : Value)
  /-- Applies an attribute in gate position to qubit references. -/
  | qrefGate (gate : Attribute) (ins : List Value)
  /-- Applies a gate value to qubit references. -/
  | qrefDynGate (ins : List Value) (gate : Value)
  /-- Measures a qubit reference, which stays valid. -/
  | qrefMeasure (qubit out : Value)
  /-- Applies an attribute in gate position to qubit values. -/
  | qssaGate (gate : Attribute) (ins outs : List Value)
  /-- Measures a qubit value, giving the outcome and the qubit after it. -/
  | qssaMeasure (qubit out outQubit : Value)
deriving DecidableEq

namespace Instruction

/-- The dialect and the name. -/
def name : Instruction → String
  | constant .. => "gate.constant"
  | quaternion .. => "gate.quaternion"
  | compose .. => "gate.compose"
  | xzs .. => "gate.xzs"
  | qrefGate .. => "qref.gate"
  | qrefDynGate .. => "qref.dyn_gate"
  | qrefMeasure .. => "qref.measure"
  | qssaGate .. => "qssa.gate"
  | qssaMeasure .. => "qssa.measure"

/-- The values consumed; a gate value comes after its qubits. -/
def operands : Instruction → List Value
  | constant .. => []
  | quaternion real i j k _ => [real, i, j, k]
  | compose lhs rhs _ => [lhs, rhs]
  | xzs x z phase _ => [x, z, phase]
  | qrefGate _ ins => ins
  | qrefDynGate ins gate => ins ++ [gate]
  | qrefMeasure qubit _ => [qubit]
  | qssaGate _ ins _ => ins
  | qssaMeasure qubit _ _ => [qubit]

/-- The values produced. -/
def results : Instruction → List Value
  | constant _ out => [out]
  | quaternion _ _ _ _ out => [out]
  | compose _ _ out => [out]
  | xzs _ _ _ out => [out]
  | qrefGate .. => []
  | qrefDynGate .. => []
  | qrefMeasure _ out => [out]
  | qssaGate _ _ outs => outs
  | qssaMeasure _ out outQubit => [out, outQubit]

/-- What a pass may assume of an instruction. -/
structure Traits where
  /-- It has no effect, and goes away when its results are unused. -/
  effectFree : Bool
  /-- It produces the same value every time. -/
  constantLike : Bool
deriving DecidableEq

def traits : Instruction → Traits
  | constant .. => ⟨true, true⟩
  | quaternion .. | compose .. | xzs .. => ⟨true, false⟩
  | _ => ⟨false, false⟩

end Instruction

end GateIR

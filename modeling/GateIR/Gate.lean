import GateIR.Angle
import GateIR.Ty

/-!
# Gates

The gates that are known when a circuit is built. A gate is plain data: whether it fits the qubits
it is applied to is a matter of the instruction that carries it.
-/

namespace GateIR

/-- A gate known when the circuit is built. -/
inductive Gate where
  /-- Hadamard. -/
  | h
  | x
  | y
  | z
  /-- The phase gate, a square root of `z`. -/
  | s
  | sDagger
  /-- A square root of `s`. -/
  | t
  | tDagger
  | id
  /-- Rotation about the Z axis. -/
  | rz (angle : Angle)
  | cnot
  | cz
  /-- Doubly controlled `x`. -/
  | toffoli
deriving DecidableEq

namespace Gate

/-- Every gate without a parameter. -/
def allFixed : List Gate := [h, x, y, z, s, sDagger, t, tDagger, id, cnot, cz, toffoli]

def name : Gate → String
  | h => "h"
  | x => "x"
  | y => "y"
  | z => "z"
  | s => "s"
  | sDagger => "s_dagger"
  | t => "t"
  | tDagger => "t_dagger"
  | id => "id"
  | rz _ => "rz"
  | cnot => "cnot"
  | cz => "cz"
  | toffoli => "toffoli"

/-- The gate without a parameter that has the given name. -/
def ofName? (name : String) : Option Gate := allFixed.find? (·.name = name)

/-- The number of qubits a gate acts on. -/
def arity : Gate → UInt32
  | cnot | cz => 2
  | toffoli => 3
  | _ => 1

/-- The type of a run-time value that holds the gate. -/
def ty (g : Gate) : Ty := .gate g.arity

def isParameterized : Gate → Bool
  | rz _ => true
  | _ => false

def text : Gate → String
  | rz a => "#gate.rz<" ++ a.text ++ ">"
  | g => "#gate." ++ g.name

end Gate

end GateIR

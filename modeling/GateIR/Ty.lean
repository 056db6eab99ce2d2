/-!
# Value types

The types of the values that instructions consume and produce: qubit handles, scalars, and gates
computed at run time, which carry the number of qubits they act on.
-/

namespace GateIR

/-- The widths of floating-point scalars. -/
inductive FloatWidth where
  | f16
  | f32
  | f64
deriving DecidableEq, Repr

namespace FloatWidth

def bits : FloatWidth → Nat
  | f16 => 16
  | f32 => 32
  | f64 => 64

/-- The width with the given number of bits. -/
def ofBits? : Nat → Option FloatWidth
  | 16 => some f16
  | 32 => some f32
  | 64 => some f64
  | _ => none

theorem ofBits?_bits (w : FloatWidth) : ofBits? w.bits = some w := by cases w <;> rfl

end FloatWidth

/-- The type of a value. -/
inductive Ty where
  /-- A qubit handle. -/
  | qubit
  /-- A signless integer of a fixed width. -/
  | int (width : UInt32)
  /-- A floating-point scalar. -/
  | float (width : FloatWidth)
  /-- A machine index. -/
  | index
  /-- A gate computed at run time, on `arity` qubits. -/
  | gate (arity : UInt32)
deriving DecidableEq, Repr

namespace Ty

/-- The type of measurement outcomes and other booleans. -/
def bool : Ty := int 1

/-- The number of qubits a gate type speaks of. -/
def arity? : Ty → Option UInt32
  | gate n => some n
  | _ => none

def text : Ty → String
  | qubit => "!qubit"
  | int w => "i" ++ w.toNat.repr
  | float w => "f" ++ w.bits.repr
  | index => "index"
  | gate n => "!gate.type<" ++ n.toNat.repr ++ ">"

end Ty

end GateIR

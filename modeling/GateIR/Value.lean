import GateIR.Ty

/-!
# Values

A value is a handle into the value table of a circuit; the table says of each value its type and the
place that defines it.
-/

namespace GateIR

/-- A handle into the value table of a circuit. -/
structure Value where
  number : UInt32
deriving DecidableEq, Repr

namespace Value

/-- The position in the value table. -/
def index (v : Value) : Nat := v.number.toNat

/-- The handle of a position in the value table; positions are counted in 32 bits. -/
def ofIndex (i : Nat) : Value := ⟨UInt32.ofNat i⟩

def text (v : Value) : String := "%" ++ v.index.repr

end Value

/-- The place that defines a value. -/
inductive Site where
  /-- Entry argument number `index`. -/
  | argument (index : Nat)
  /-- Result number `index` of instruction number `instruction`. -/
  | result (instruction index : Nat)
deriving DecidableEq, Repr

/-- An entry of the value table. -/
structure Entry where
  ty : Ty
  site : Site
deriving DecidableEq, Repr

end GateIR

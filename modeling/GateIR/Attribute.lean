import GateIR.Gate

/-!
# Attributes

Compile-time data attached to an instruction. A gate application holds an attribute in gate position
rather than a gate, so that text that names some other attribute there can be read and is turned down
by the typing rules.
-/

namespace GateIR

/-- A compile-time datum. -/
inductive Attribute where
  | gate (g : Gate)
  | angle (a : Angle)
  | ty (t : Ty)
  | int (n : Int64)
deriving DecidableEq

namespace Attribute

def gate? : Attribute → Option Gate
  | gate g => some g
  | _ => none

def text : Attribute → String
  | gate g => g.text
  | angle a => "#gate.angle<" ++ a.text ++ ">"
  | ty t => t.text
  | int n => n.toInt.repr

end Attribute

end GateIR

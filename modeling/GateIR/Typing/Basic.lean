import GateIR.Attribute
import GateIR.Value

/-!
# Typing: families of types and violations

A typing rule speaks of families of types. A `Violation` is the way in which one instruction breaks
its rule, with the data its message shows.
-/

namespace GateIR

/-- A family of acceptable types. -/
inductive Family where
  | any
  /-- One type only. -/
  | exact (t : Ty)
  /-- The gate types. -/
  | gate
  /-- The integer and floating-point types. -/
  | scalar
deriving DecidableEq

namespace Family

def accepts : Family → Ty → Bool
  | any, _ => true
  | exact t, u => t = u
  | gate, .gate _ => true
  | scalar, .int _ | scalar, .float _ => true
  | _, _ => false

def description : Family → String
  | any => "any type"
  | exact _ => "a specific type"
  | gate => "a gate type"
  | scalar => "an integer or float type"

end Family

/-- The two lists of values that an instruction holds. -/
inductive Slot where
  | operands
  | results
deriving DecidableEq

def Slot.text : Slot → String
  | .operands => "operands"
  | .results => "results"

/-- The way in which an instruction breaks its typing rule. -/
inductive Violation where
  /-- An attribute in gate position is no gate. -/
  | notAGate (a : Attribute)
  /-- A value in gate position has no gate type. -/
  | notAGateType (ty : Ty)
  /-- A type list has another length than the one bound for it. -/
  | operandArity (expected found : Nat)
  /-- A result list has another length than the one bound for it. -/
  | resultArity (expected found : Nat)
  /-- A variable stands for two different types. -/
  | conflictingTypes (var : String) (bound found : Ty)
  /-- A variable stands for a single type and for a type list. -/
  | mixedBinding (var : String)
  /-- A type differs from the one required. -/
  | typeMismatch (expected found : Ty)
  /-- A type lies outside the family required. -/
  | outsideFamily (family : Family) (found : Ty)
  /-- An instruction of fixed shape has the wrong number of operands or results. -/
  | wrongCount (instruction : String) (slot : Slot) (expected found : Nat)
  /-- One gate application names a qubit twice. -/
  | repeatedQubit (v : Value)
deriving DecidableEq

namespace Violation

def message : Violation → String
  | notAGate a => "attribute " ++ a.text ++ " expected to be a gate"
  | notAGateType t => "value of type " ++ t.text ++ " expected to be a gate"
  | operandArity m n => "expected " ++ m.repr ++ " operands, found " ++ n.repr
  | resultArity m n => "expected " ++ m.repr ++ " results, found " ++ n.repr
  | conflictingTypes v t u => "variable '" ++ v ++ "' bound to " ++ t.text ++ ", found " ++ u.text
  | mixedBinding v => "variable '" ++ v ++ "' used as both a single type and a type list"
  | typeMismatch t u => "expected type " ++ t.text ++ ", found " ++ u.text
  | outsideFamily f t => "expected " ++ f.description ++ ", found " ++ t.text
  | wrongCount i s m n =>
    "'" ++ i ++ "' expects " ++ m.repr ++ " " ++ s.text ++ ", got " ++ n.repr
  | repeatedQubit v => "duplicate qubit " ++ v.text ++ " in gate application"

/-- The same violation, said of a result list. -/
def ofResults : Violation → Violation
  | operandArity m n => resultArity m n
  | e => e

end Violation

/-- The violation by a type that the family does not accept. -/
def Family.violation : Family → Ty → Violation
  | exact t, u => .typeMismatch t u
  | f, u => .outsideFamily f u

/-- Accepts the types of the family. -/
def Family.check (f : Family) (t : Ty) : Except Violation Unit :=
  if f.accepts t then .ok () else .error (f.violation t)

end GateIR

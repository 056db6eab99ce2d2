import GateIR.Typing.Binding

/-!
# Typing: constraints

A constraint is a typing rule on one type, on a list of types or on an attribute; it may name a
variable, and then ties its value to every other place that names it.

Each kind has a `check`, which may bind the variable, and `bindings`, the pairs that a value brings
to it.
-/

namespace GateIR

/-- A rule on one type. -/
inductive TyConstraint where
  /-- The type lies in a family. -/
  | family (f : Family)
  /-- The type lies in a family, and the variable stands for it. -/
  | var (name : String) (f : Family)
  /-- The type is a gate type, and the variable stands for as many qubits as it acts on. -/
  | gateQubits (name : String)
deriving DecidableEq

namespace TyConstraint

def check : TyConstraint → Ty → Check Unit
  | family f, t => f.check t
  | var name f, t => do
    f.check t
    Context.bind name (.type t)
  | gateQubits name, t =>
    match t.arity? with
    | some n => Context.bind name (.qubits n)
    | none => throw (.notAGateType t)

def bindings : TyConstraint → Ty → List (String × Binding)
  | family _, _ => []
  | var name _, t => [(name, .type t)]
  | gateQubits name, t => t.arity?.toList.map fun n => (name, .qubits n)

end TyConstraint

/-- A rule on a list of types: each lies in a family, and the variable stands for the list. -/
structure RangeConstraint where
  name : String
  element : Family
deriving DecidableEq

namespace RangeConstraint

/-- A list of qubits. -/
def qubits (name : String) : RangeConstraint := ⟨name, .exact .qubit⟩

def check (r : RangeConstraint) (ts : List Ty) : Check Unit := do
  ts.forM fun t => r.element.check t
  Context.bind r.name (.range ts)

def bindings (r : RangeConstraint) (ts : List Ty) : List (String × Binding) := [(r.name, .range ts)]

end RangeConstraint

/-- A rule on an attribute: it is a gate whose type obeys a rule. -/
structure GateConstraint where
  inner : TyConstraint
deriving DecidableEq

namespace GateConstraint

/-- The variable stands for as many qubits as the gate acts on. -/
def qubits (name : String) : GateConstraint := ⟨.gateQubits name⟩

def check (c : GateConstraint) (a : Attribute) : Check Unit :=
  match a.gate? with
  | some g => c.inner.check g.ty
  | none => throw (.notAGate a)

def bindings (c : GateConstraint) (a : Attribute) : List (String × Binding) :=
  match a.gate? with
  | some g => c.inner.bindings g.ty
  | none => []

end GateConstraint

end GateIR

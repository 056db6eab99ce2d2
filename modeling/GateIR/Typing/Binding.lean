import GateIR.Typing.Basic

/-!
# Typing: variables and their bindings

A variable of a typing rule stands for one type or for a list of types, and every place that names
the variable must agree on what it stands for. The bindings met so far form a `Context`, which lives
as long as the check of one instruction.

**Lists of qubits.** A list of `n` qubits may be bound by its length alone. `Binding.elements` is the
list that a binding denotes; agreement does not see which way it was written.

**Binding.** `Context.bind` binds a free variable and compares with the binding of a bound one, which
stays as it is.
-/

namespace GateIR

/-- What a variable stands for. -/
inductive Binding where
  /-- A single type. -/
  | type (t : Ty)
  /-- A list of types. -/
  | range (ts : List Ty)
  /-- A list of `n` qubits. -/
  | qubits (n : UInt32)
deriving DecidableEq

namespace Binding

/-- The length of a list binding. -/
def length? : Binding → Option Nat
  | type _ => none
  | range ts => some ts.length
  | qubits n => some n.toNat

/-- The list that a list binding denotes. -/
def elements : Binding → List Ty
  | type _ => []
  | range ts => ts
  | qubits n => List.replicate n.toNat .qubit

/-- Whether two bindings denote the same type or the same type list. -/
def agrees : Binding → Binding → Bool
  | qubits n, range ts | range ts, qubits n => ts.length = n.toNat && ts.all (· = .qubit)
  | a, b => a = b

/-- The first position at which two lists differ. -/
def firstDifference? : List Ty → List Ty → Option (Ty × Ty)
  | t :: ts, u :: us => if t = u then firstDifference? ts us else some (t, u)
  | _, _ => none

/-- The violation by a binding that disagrees with the one a variable has. -/
def conflict (var : String) (bound found : Binding) : Violation :=
  match bound, found with
  | type t, type u => .conflictingTypes var t u
  | _, _ =>
    match bound.length?, found.length? with
    | some m, some n =>
      if m ≠ n then .operandArity m n
      else
        match firstDifference? bound.elements found.elements with
        | some (t, u) => .typeMismatch t u
        | none => .mixedBinding var
    | _, _ => .mixedBinding var

end Binding

/-- The bindings of variables, in the order in which they were made. -/
structure Context where
  bindings : List (String × Binding) := []
deriving DecidableEq

/-- A check that may bind variables; the context it leaves is there also when it fails. -/
abbrev Check := ExceptT Violation (StateM Context)

namespace Context

/-- What a variable is bound to. -/
def get? (c : Context) (var : String) : Option Binding := c.bindings.lookup var

/-- Binds a free variable, or compares with the binding of a bound one. -/
def bind (var : String) (b : Binding) : Check Unit := do
  match (← get).get? var with
  | none => modify fun c => ⟨c.bindings ++ [(var, b)]⟩
  | some bound => if bound.agrees b then pure () else throw (Binding.conflict var bound b)

end Context

end GateIR

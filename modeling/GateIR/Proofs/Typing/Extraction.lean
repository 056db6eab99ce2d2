import GateIR.Proofs.Typing.Failure
import GateIR.Proofs.Typing.Order

/-!
# What refused values bring

A value brings pairs to the variable of its constraint whether or not the constraint is ever checked
on it. The number of qubits of a gate can only be given for a gate, so this pair is there just for
values of the right kind. A variable for a type or for a list takes the value as it is.

**Theorem (`bindings_of_refused`).** A value that is refused in an empty context brings just what is
taken as it is: one pair for a variable of a type or of a list, and nothing otherwise.

So it is not true that refused values bring nothing (`not_forall_refused_bring_nothing`). Who unifies
bindings before checking may give a variable a type that the check turns down later.
-/

namespace GateIR

variable {e : Violation}

/-- What a type brings before anybody looks at its kind. -/
def TyConstraint.unguarded : TyConstraint → Ty → List (String × Binding)
  | var v _, t => [(v, .type t)]
  | family _, _ | gateQubits _, _ => []

theorem TyConstraint.bindings_of_fails {k : TyConstraint} {t : Ty} (h : Fails (k.check t) {} e) :
    k.bindings t = k.unguarded t := by
  cases k with
  | family f => rfl
  | var v f => rfl
  | gateQubits v =>
    -- The variable is free, so what is refused is not its binding but the kind of the type.
    rcases fails_gateQubits.1 h with ⟨ht, -⟩ | ⟨n, -, hbind⟩
    · simp [bindings, unguarded, ht]
    · exact absurd hbind not_fails_bind_empty

namespace Requirement

/-- What a value brings before anybody looks at its kind. -/
def unguarded : Requirement → List (String × Binding)
  | type k t => k.unguarded t
  | range k ts => [(k.name, .range ts)]
  | gate k (.gate g) => k.inner.unguarded g.ty
  | gate _ _ => []

/-- **What a refused value brings.** -/
theorem bindings_of_refused {r : Requirement} (h : Fails r.check {} e) :
    r.bindings = r.unguarded := by
  cases r with
  | type k t => exact TyConstraint.bindings_of_fails h
  | range k ts => rfl
  | gate k a =>
    rcases GateConstraint.fails_iff.1 h with ⟨ha, -⟩ | ⟨g, rfl, hinner⟩
    · cases a with
      | gate g => cases ha
      | _ => rfl
    · exact TyConstraint.bindings_of_fails hinner

/-- Operands of a gate, one of which is the outcome of a measurement. -/
def outcomeAmongQubits : Requirement := .range (.qubits "Q") [.qubit, .bool]

theorem bindings_of_refused_outcomeAmongQubits :
    Fails outcomeAmongQubits.check {} (.typeMismatch .qubit .bool) ∧
      outcomeAmongQubits.bindings = [("Q", .range [.qubit, .bool])] := by
  have h : Fails outcomeAmongQubits.check {} (.typeMismatch .qubit .bool) := rfl
  exact ⟨h, bindings_of_refused h⟩

/-- A qubit is no gate value, and is brought to the variable of one all the same. -/
theorem not_forall_refused_bring_nothing :
    ¬ ∀ (r : Requirement) (e : Violation), Fails r.check {} e → r.bindings = [] := by
  intro h
  have hrefused : Fails (type (.var "T" .gate) .qubit).check {} (.outsideFamily .gate .qubit) := rfl
  exact absurd (h _ _ hrefused) (by decide)

end Requirement

end GateIR

import GateIR.Proofs.Typing.Clash
import GateIR.Proofs.Typing.Order

/-!
# Checking is looking and then binding

A check looks at the kind of its value, and then binds what the value brings. The look does not
depend on the context and does not change it, so an empty context shows what the look says.

**Step (`outcome_check`).** A check is the look, followed by the bindings.

**Theorem (`check_eq_bindAll`).** In every context, a value that is accepted in the empty context is
checked by binding the pairs that it brings. A value that is refused there is refused everywhere,
for the same reason, and the context stays as it is.

The two halves of a constraint are written apart. The theorem says that they agree in every context,
whether the variable is free, stands for the same thing or clashes with what the value brings.
-/

namespace GateIR

open Context

variable {c : Context} {ps : List (String × Binding)}

/-! ## Looking -/

/-- What the kind of a type has against it. -/
def TyConstraint.inspect : TyConstraint → Ty → Except Violation Unit
  | family f, t | var _ f, t => f.check t
  | gateQubits _, t => if t.arity?.isSome then .ok () else .error (.notAGateType t)

/-- What the kind of a value has against it. -/
def Requirement.inspect : Requirement → Except Violation Unit
  | type k t => k.inspect t
  | range k ts => forM ts k.element.check
  | gate k (.gate g) => k.inner.inspect g.ty
  | gate _ a => .error (.notAGate a)

/-! ## Binding what is brought -/

theorem outcome_bindAll_singleton (v : String) (b : Binding) (c : Context) :
    outcome (bindAll [(v, b)]) c = outcome (bind v b) c := by
  rw [bindAll, List.forM_eq_forM, List.forM_cons, outcome_bind]
  rcases outcome (bind v b) c with ⟨_ | _, d⟩ <;> rfl

/-- A binding is refused without a trace, or extends the context. -/
theorem outcome_bind_cases (v : String) (b : Binding) (c : Context) :
    (∃ e, outcome (bind v b) c = (.error e, c)) ∨
      outcome (bind v b) c = (.ok (), c.extend (v, b)) := by
  cases h : c.get? v with
  | none => exact .inr (by rw [outcome_bind_of_free h, extend, h]; rfl)
  | some a =>
    rw [outcome_bind_of_bound h, extend, h]
    cases a.agrees b with
    | false => exact .inl ⟨_, rfl⟩
    | true => exact .inr rfl

/-- A value brings one pair at most, so there is nothing to undo when a binding is refused. -/
theorem TyConstraint.bindings_cases (k : TyConstraint) (t : Ty) :
    k.bindings t = [] ∨ ∃ p, k.bindings t = [p] := by
  cases k with
  | family f => exact .inl rfl
  | var v f => exact .inr ⟨_, rfl⟩
  | gateQubits v =>
    cases t with
    | gate n => exact .inr ⟨_, rfl⟩
    | _ => exact .inl rfl

namespace Requirement

theorem bindings_cases (r : Requirement) : r.bindings = [] ∨ ∃ p, r.bindings = [p] := by
  cases r with
  | type k t => exact k.bindings_cases t
  | range k ts => exact .inr ⟨_, rfl⟩
  | gate k a =>
    cases a with
    | gate g => exact k.inner.bindings_cases g.ty
    | _ => exact .inl rfl

theorem outcome_bindAll_cases (r : Requirement) (c : Context) :
    (∃ e, outcome (bindAll r.bindings) c = (.error e, c)) ∨
      outcome (bindAll r.bindings) c = (.ok (), r.bindings.foldl extend c) := by
  rcases r.bindings_cases with h | ⟨⟨v, b⟩, h⟩
  · rw [h]
    exact .inr rfl
  · rw [h, outcome_bindAll_singleton]
    exact outcome_bind_cases v b c

theorem outcome_bindAll_empty (r : Requirement) : (outcome (bindAll r.bindings) {}).1 = .ok () := by
  rcases r.bindings_cases with h | ⟨⟨v, b⟩, h⟩
  · rw [h]
    rfl
  · rw [h, outcome_bindAll_singleton, outcome_bind_of_free rfl]

end Requirement

/-! ## Checking -/

theorem TyConstraint.outcome_check (k : TyConstraint) (t : Ty) (c : Context) :
    outcome (k.check t) c = outcome (do k.inspect t; bindAll (k.bindings t) : Check Unit) c := by
  cases k with
  | family f =>
    rw [check, inspect, outcome_bind, outcome_lift]
    cases f.check t <;> rfl
  | var v f =>
    rw [check, inspect, outcome_bind, outcome_bind, outcome_lift]
    cases f.check t with
    | error e => rfl
    | ok => exact (outcome_bindAll_singleton v (.type t) c).symm
  | gateQubits v =>
    cases t with
    | gate n => exact (outcome_bindAll_singleton v (.qubits n) c).symm
    | _ => rfl

namespace Requirement

/-- **Step.** A check is the look, followed by the bindings. -/
theorem outcome_check (r : Requirement) (c : Context) :
    outcome r.check c = outcome (do r.inspect; bindAll r.bindings : Check Unit) c := by
  cases r with
  | type k t => exact k.outcome_check t c
  | range k ts =>
    rw [check, RangeConstraint.check, List.forM_eq_forM, inspect, outcome_bind, outcome_bind,
      outcome_forM_lift, outcome_lift]
    cases forM ts k.element.check with
    | error e => rfl
    | ok => exact (outcome_bindAll_singleton k.name (.range ts) c).symm
  | gate k a =>
    cases a with
    | gate g => exact k.inner.outcome_check g.ty c
    | _ => rfl

/-- In the empty context every variable is free, so only the look can refuse a value. -/
theorem answer_empty (r : Requirement) : (outcome r.check {}).1 = r.inspect := by
  rw [outcome_check, outcome_bind, outcome_lift]
  cases r.inspect with
  | error e => rfl
  | ok => exact r.outcome_bindAll_empty

/-- **A check binds what its value brings.** What the empty context accepts is checked by binding in
every context, and what it refuses is refused in all of them, which stay as they are. -/
theorem check_eq_bindAll (r : Requirement) (c : Context) :
    outcome r.check c =
      match (outcome r.check {}).1 with
      | .ok () => outcome (bindAll r.bindings) c
      | .error e => (.error e, c) := by
  rw [answer_empty, outcome_check, outcome_bind, outcome_lift]
  cases r.inspect <;> rfl

end Requirement

end GateIR

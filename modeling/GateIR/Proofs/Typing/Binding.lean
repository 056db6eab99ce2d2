import GateIR.Typing.Binding
import Mathlib.Tactic

/-!
# What bindings denote

A binding denotes a single type or a list of types. Whether a list of qubits is written out or given
by its length makes no difference to what it denotes.

**Theorem (`agrees_iff`).** Two bindings agree exactly when they denote the same. Agreement is
therefore an equivalence relation.
-/

namespace GateIR.Binding

variable {a b c : Binding}

/-- The type or the list of types that a binding stands for. -/
def denotation : Binding → Ty ⊕ List Ty
  | type t => .inl t
  | b => .inr b.elements

theorem agrees_iff : a.agrees b = true ↔ a.denotation = b.denotation := by
  cases a with
  | type t => cases b <;> simp [agrees, denotation]
  | range ts =>
    cases b with
    | qubits n => simp [agrees, denotation, elements, List.eq_replicate_iff]
    | _ => simp [agrees, denotation, elements]
  | qubits n =>
    cases b with
    | type t => simp [agrees, denotation]
    | range ts =>
      have h : List.replicate n.toNat .qubit = ts ↔ ts.length = n.toNat ∧ ∀ t ∈ ts, t = .qubit :=
        eq_comm.trans List.eq_replicate_iff
      simp [agrees, denotation, elements, h]
    | qubits m => simp [agrees, denotation, elements, UInt32.toNat_inj]

theorem agrees_refl (a : Binding) : a.agrees a = true := agrees_iff.2 rfl

theorem agrees_symm (h : a.agrees b = true) : b.agrees a = true :=
  agrees_iff.2 (agrees_iff.1 h).symm

theorem agrees_trans (h : a.agrees b = true) (h' : b.agrees c = true) : a.agrees c = true :=
  agrees_iff.2 ((agrees_iff.1 h).trans (agrees_iff.1 h'))

end GateIR.Binding

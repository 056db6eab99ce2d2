import GateIR.Proofs.Action
import GateIR.Typing.Constraint

/-!
# What a check accepts

`Passes x c d` says that the check `x` succeeds in the context `c` and leaves `d`. Each constraint
passes exactly when its value is in its family and its binding is accepted, and a binding is
accepted when its variable is free or stands for the same thing. A rule, which is a sequence of
constraints, passes when its parts pass one after the other (`passes_bind`).
-/

namespace GateIR

/-! ## Families -/

theorem Family.check_eq_ok_iff {f : Family} {t : Ty} : f.check t = .ok () ↔ f.accepts t = true := by
  unfold Family.check
  split <;> simp_all

theorem Family.accepts_exact_iff {t u : Ty} : (Family.exact t).accepts u = true ↔ u = t := by
  simp [Family.accepts, eq_comm]

theorem Family.accepts_gate_iff {t : Ty} : Family.gate.accepts t = true ↔ ∃ n, t = .gate n := by
  cases t <;> simp [Family.accepts]

theorem Family.accepts_scalar_iff {t : Ty} :
    Family.scalar.accepts t = true ↔ (∃ w, t = .int w) ∨ ∃ w, t = .float w := by
  cases t <;> simp [Family.accepts]

/-! ## Agreement -/

theorem Binding.agrees_type_iff {t u : Ty} :
    (Binding.type t).agrees (.type u) = true ↔ t = u := by
  simp [Binding.agrees]

theorem Binding.agrees_qubits_range_iff {n : UInt32} {ts : List Ty} :
    (Binding.qubits n).agrees (.range ts) = true ↔ ts = List.replicate n.toNat .qubit := by
  simp [Binding.agrees, List.eq_replicate_iff]

/-! ## Passing -/

/-- The check succeeds in the first context and leaves the second. -/
def Passes (x : Check Unit) (c d : Context) : Prop := outcome x c = (.ok (), d)

theorem passes_pure {c d : Context} : Passes (pure ()) c d ↔ d = c := by
  simp [Passes, eq_comm]

theorem not_passes_throw {e : Violation} {c d : Context} : ¬ Passes (throw e) c d := by
  simp [Passes]

theorem passes_bind {x : Check Unit} {f : Unit → Check Unit} {c d : Context} :
    Passes (x >>= f) c d ↔ ∃ m, Passes x c m ∧ Passes (f ()) m d := by
  unfold Passes
  rw [outcome_bind]
  rcases outcome x c with ⟨_ | _, m⟩ <;> simp

theorem passes_adapt {x : Check Unit} {f : Violation → Violation} {c d : Context} :
    Passes (x.adapt f) c d ↔ Passes x c d := by
  have h : outcome (x.adapt f) c = ((outcome x c).1.mapError f, (outcome x c).2) := rfl
  unfold Passes
  rw [h]
  rcases outcome x c with ⟨_ | _, m⟩ <;> simp [Except.mapError]

theorem passes_lift {r : Except Violation Unit} {c d : Context} :
    Passes (liftM r) c d ↔ r = .ok () ∧ d = c := by
  simp [Passes, eq_comm]

/-- A list is checked one value after the other, when no value changes the context. -/
theorem passes_forM {α : Type} {f : α → Check Unit} {p : α → Prop}
    (hf : ∀ a c d, Passes (f a) c d ↔ p a ∧ d = c) (as : List α) {c d : Context} :
    Passes (forM as f) c d ↔ (∀ a ∈ as, p a) ∧ d = c := by
  induction as generalizing c with
  | nil => simp [passes_pure]
  | cons a as ih =>
    rw [List.forM_cons, passes_bind]
    simp only [hf, ih, List.forall_mem_cons]
    constructor
    · intro h
      rcases h with ⟨m, ⟨ha, rfl⟩, has⟩
      exact ⟨⟨ha, has.1⟩, has.2⟩
    · intro h
      rcases h with ⟨⟨ha, has⟩, rfl⟩
      exact ⟨d, ⟨ha, rfl⟩, has, rfl⟩

/-! ## Variables -/

/-- The context with a variable bound, unless it was bound before. -/
def Context.extend (c : Context) (p : String × Binding) : Context :=
  if (c.get? p.1).isSome then c else ⟨c.bindings ++ [p]⟩

/-- A binding is accepted when it agrees with the one that its variable has. -/
theorem passes_bindVar {v : String} {b : Binding} {c d : Context} :
    Passes (Context.bind v b) c d ↔
      (∀ a, c.get? v = some a → a.agrees b = true) ∧ d = c.extend (v, b) := by
  simp only [Passes, Context.bind, outcome_bind, outcome_get, Context.extend]
  cases h : c.get? v with
  | none => simp [eq_comm (a := d)]
  | some a => by_cases ha : a.agrees b = true <;> simp [ha, eq_comm (a := d)]

/-- The context in which one variable is bound. -/
def Context.single (v : String) (b : Binding) : Context := ⟨[(v, b)]⟩

theorem passes_bind_empty {v : String} {b : Binding} {d : Context} :
    Passes (Context.bind v b) {} d ↔ d = .single v b := by
  simp [passes_bindVar, Context.extend, Context.get?, Context.single]

theorem passes_bind_single {v : String} {b b' : Binding} {d : Context} :
    Passes (Context.bind v b) (.single v b') d ↔ b'.agrees b = true ∧ d = .single v b' := by
  simp [passes_bindVar, Context.extend, Context.get?, Context.single]

/-! ## Constraints -/

theorem TyConstraint.passes_family {f : Family} {t : Ty} {c d : Context} :
    Passes ((TyConstraint.family f).check t) c d ↔ f.accepts t = true ∧ d = c := by
  rw [← Family.check_eq_ok_iff]
  exact passes_lift

theorem TyConstraint.passes_var {v : String} {f : Family} {t : Ty} {c d : Context} :
    Passes ((TyConstraint.var v f).check t) c d ↔
      f.accepts t = true ∧ Passes (Context.bind v (.type t)) c d := by
  simp [TyConstraint.check, passes_bind, passes_lift, Family.check_eq_ok_iff]

theorem TyConstraint.passes_gateQubits {v : String} {t : Ty} {c d : Context} :
    Passes ((TyConstraint.gateQubits v).check t) c d ↔
      ∃ n, t = .gate n ∧ Passes (Context.bind v (.qubits n)) c d := by
  cases t <;> simp [TyConstraint.check, Ty.arity?, not_passes_throw]

theorem RangeConstraint.passes_iff {r : RangeConstraint} {ts : List Ty} {c d : Context} :
    Passes (r.check ts) c d ↔
      (∀ t ∈ ts, r.element.accepts t = true) ∧ Passes (Context.bind r.name (.range ts)) c d := by
  have hf : ∀ t c d, Passes (liftM (r.element.check t)) c d ↔ r.element.accepts t = true ∧ d = c :=
    fun t c d => by rw [passes_lift, Family.check_eq_ok_iff]
  simp only [RangeConstraint.check, List.forM_eq_forM, passes_bind, passes_forM hf]
  constructor
  · intro h
    rcases h with ⟨m, ⟨hts, rfl⟩, h⟩
    exact ⟨hts, h⟩
  · intro h
    rcases h with ⟨hts, h⟩
    exact ⟨c, ⟨hts, rfl⟩, h⟩

theorem GateConstraint.passes_iff {g : GateConstraint} {a : Attribute} {c d : Context} :
    Passes (g.check a) c d ↔ ∃ gate, a = .gate gate ∧ Passes (g.inner.check gate.ty) c d := by
  cases a <;> simp [GateConstraint.check, Attribute.gate?, not_passes_throw]

end GateIR

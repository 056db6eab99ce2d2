import GateIR.Proofs.Typing.Clash
import GateIR.Proofs.Typing.Constraint

/-!
# What a check reports

`Fails x c e` says that the check `x` fails in the context `c` with the violation `e`. A rule fails
where its first failing part does, in the context that the parts before it leave (`fails_bind`).
Each constraint fails by a value outside its family or by a binding that clashes.
-/

namespace GateIR

variable {c : Context} {e : Violation}

/-! ## Failing -/

/-- The check fails in the context with the violation. -/
def Fails (x : Check Unit) (c : Context) (e : Violation) : Prop := (outcome x c).1 = .error e

theorem not_fails_pure : ¬ Fails (pure ()) c e := by
  simp [Fails]

theorem fails_throw {e' : Violation} : Fails (throw e') c e ↔ e = e' := by
  simp [Fails, eq_comm]

theorem fails_lift {r : Except Violation Unit} : Fails (liftM r) c e ↔ r = .error e := by
  simp [Fails]

/-- A sequence fails in its first part, or in its second part after the first passed. -/
theorem fails_bind {x : Check Unit} {f : Unit → Check Unit} :
    Fails (x >>= f) c e ↔ Fails x c e ∨ ∃ m, Passes x c m ∧ Fails (f ()) m e := by
  unfold Fails Passes
  rw [outcome_bind]
  rcases outcome x c with ⟨_ | _, m⟩ <;> simp

/-- After a part that passes, a sequence fails as the rest does. -/
theorem fails_bind_of_passes {x : Check Unit} {f : Unit → Check Unit} {d : Context}
    (h : Passes x c d) : Fails (x >>= f) c e ↔ Fails (f ()) d e := by
  have hx : outcome x c = (.ok (), d) := h
  unfold Fails
  rw [outcome_bind_of_ok hx]

theorem fails_adapt {x : Check Unit} {f : Violation → Violation} :
    Fails (x.adapt f) c e ↔ ∃ e', Fails x c e' ∧ e = f e' := by
  have h : outcome (x.adapt f) c = ((outcome x c).1.mapError f, (outcome x c).2) := rfl
  unfold Fails
  rw [h]
  exact mapError_eq_error_iff

/-- A list fails at its first failing value, when no value changes the context. -/
theorem fails_forM {α : Type} {f : α → Check Unit} {p : α → Prop}
    (hf : ∀ a c d, Passes (f a) c d ↔ p a ∧ d = c) (as : List α) :
    Fails (forM as f) c e ↔
      ∃ before a after, as = before ++ a :: after ∧ (∀ b ∈ before, p b) ∧ Fails (f a) c e := by
  induction as with
  | nil => simp [not_fails_pure]
  | cons a as ih =>
    rw [List.forM_cons, fails_bind]
    simp only [hf, and_assoc, exists_and_left, exists_eq_left, ih]
    constructor
    · intro h
      rcases h with ha | ⟨ha, before, b, after, rfl, hbefore, hb⟩
      · exact ⟨[], a, as, rfl, by simp, ha⟩
      · exact ⟨a :: before, b, after, rfl, List.forall_mem_cons.2 ⟨ha, hbefore⟩, hb⟩
    · intro h
      rcases h with ⟨before, b, after, heq, hbefore, hb⟩
      cases before with
      | nil =>
        cases heq
        exact .inl hb
      | cons a' before =>
        cases heq
        obtain ⟨ha, hbefore⟩ := List.forall_mem_cons.1 hbefore
        exact .inr ⟨ha, before, b, after, rfl, hbefore, hb⟩

/-! ## Variables -/

theorem fails_bindVar {v : String} {b : Binding} :
    Fails (Context.bind v b) c e ↔
      ∃ a, c.get? v = some a ∧ Binding.Clashes v a.denotation b.denotation e :=
  Context.bind_eq_error_iff_clashes

theorem not_fails_bind_empty {v : String} {b : Binding} : ¬ Fails (Context.bind v b) {} e := by
  simp [fails_bindVar, Context.get?]

theorem fails_bind_single {v : String} {a b : Binding} :
    Fails (Context.bind v b) (.single v a) e ↔
      Binding.Clashes v a.denotation b.denotation e := by
  simp [fails_bindVar, Context.get?, Context.single]

/-! ## Constraints -/

theorem Family.check_eq_error_iff {f : Family} {t : Ty} :
    f.check t = .error e ↔ f.accepts t = false ∧ e = f.violation t := by
  unfold Family.check
  cases f.accepts t <;> simp [eq_comm]

theorem TyConstraint.fails_var {v : String} {f : Family} {t : Ty} :
    Fails ((TyConstraint.var v f).check t) c e ↔
      (f.accepts t = false ∧ e = f.violation t) ∨
        f.accepts t = true ∧ Fails (Context.bind v (.type t)) c e := by
  simp [TyConstraint.check, fails_bind, fails_lift, passes_lift, Family.check_eq_error_iff,
    Family.check_eq_ok_iff]

theorem TyConstraint.fails_gateQubits {v : String} {t : Ty} :
    Fails ((TyConstraint.gateQubits v).check t) c e ↔
      (t.arity? = none ∧ e = .notAGateType t) ∨
        ∃ n, t = .gate n ∧ Fails (Context.bind v (.qubits n)) c e := by
  cases t <;> simp [TyConstraint.check, Ty.arity?, fails_throw]

theorem RangeConstraint.fails_iff {r : RangeConstraint} {ts : List Ty} :
    Fails (r.check ts) c e ↔
      (∃ before t after, ts = before ++ t :: after ∧ (∀ u ∈ before, r.element.accepts u = true) ∧
        r.element.accepts t = false ∧ e = r.element.violation t) ∨
      (∀ t ∈ ts, r.element.accepts t = true) ∧ Fails (Context.bind r.name (.range ts)) c e := by
  have hf : ∀ t c d, Passes (liftM (r.element.check t)) c d ↔ r.element.accepts t = true ∧ d = c :=
    fun t c d => by rw [passes_lift, Family.check_eq_ok_iff]
  simp only [RangeConstraint.check, List.forM_eq_forM, fails_bind, fails_forM hf, passes_forM hf,
    fails_lift, Family.check_eq_error_iff, and_assoc, exists_and_left, exists_eq_left]

theorem GateConstraint.fails_iff {g : GateConstraint} {a : Attribute} :
    Fails (g.check a) c e ↔
      (a.gate? = none ∧ e = .notAGate a) ∨
        ∃ gate, a = .gate gate ∧ Fails (g.inner.check gate.ty) c e := by
  cases a <;> simp [GateConstraint.check, Attribute.gate?, fails_throw]

end GateIR

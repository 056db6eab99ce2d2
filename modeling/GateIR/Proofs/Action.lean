import Mathlib.Tactic

/-!
# Actions that may fail

Checks and builder actions are both actions on a state that may fail and leave a state in either
case. `outcome` runs one; the lemmas say what the outcome of each primitive is, so that later files
compute outcomes without opening the monad.

Look-ups have no state. A traversal of a list by a look-up succeeds when every element does, and
otherwise fails as its first failing element does.
-/

namespace GateIR

variable {ε σ α β : Type}

/-- The answer of an action, and the state it leaves. -/
def outcome (x : ExceptT ε (StateM σ) α) (s : σ) : Except ε α × σ := x.run.run s

@[simp] theorem outcome_pure (a : α) (s : σ) :
    outcome (pure a : ExceptT ε (StateM σ) α) s = (.ok a, s) := rfl

@[simp] theorem outcome_throw (e : ε) (s : σ) :
    outcome (throw e : ExceptT ε (StateM σ) α) s = (.error e, s) := rfl

@[simp] theorem outcome_get (s : σ) :
    outcome (get : ExceptT ε (StateM σ) σ) s = (.ok s, s) := rfl

@[simp] theorem outcome_modify (f : σ → σ) (s : σ) :
    outcome (modify f : ExceptT ε (StateM σ) PUnit) s = (.ok ⟨⟩, f s) := rfl

@[simp] theorem outcome_lift (r : Except ε α) (s : σ) :
    outcome (liftM r : ExceptT ε (StateM σ) α) s = (r, s) := rfl

/-- A sequence goes on from the state that its first part leaves, or stops there. -/
theorem outcome_bind (x : ExceptT ε (StateM σ) α) (f : α → ExceptT ε (StateM σ) β) (s : σ) :
    outcome (x >>= f) s =
      match outcome x s with
      | (.ok a, t) => outcome (f a) t
      | (.error e, t) => (.error e, t) := by
  unfold outcome ExceptT.run StateT.run
  simp only [bind, ExceptT.bind, ExceptT.mk, StateT.bind, ExceptT.bindCont]
  cases x s with
  | mk r t => cases r <;> rfl

theorem outcome_bind_of_ok {x : ExceptT ε (StateM σ) α} {f : α → ExceptT ε (StateM σ) β} {s t : σ}
    {a : α} (h : outcome x s = (.ok a, t)) : outcome (x >>= f) s = outcome (f a) t := by
  rw [outcome_bind, h]

theorem outcome_map (f : α → β) (x : ExceptT ε (StateM σ) α) (s : σ) :
    outcome (f <$> x) s = ((outcome x s).1.map f, (outcome x s).2) := by
  rw [map_eq_pure_bind, outcome_bind]
  cases outcome x s with
  | mk r t => cases r <;> rfl

/-! ## Traversals -/

theorem bind_eq_ok_iff {x : Except ε α} {f : α → Except ε β} {b : β} :
    x >>= f = .ok b ↔ ∃ a, x = .ok a ∧ f a = .ok b := by
  cases x <;> simp [bind, Except.bind]

theorem bind_eq_error_iff {x : Except ε α} {f : α → Except ε β} {e : ε} :
    x >>= f = .error e ↔ x = .error e ∨ ∃ a, x = .ok a ∧ f a = .error e := by
  cases x <;> simp [bind, Except.bind]

theorem map_eq_ok_iff {x : Except ε α} {f : α → β} {b : β} :
    f <$> x = .ok b ↔ ∃ a, x = .ok a ∧ f a = b := by
  cases x <;> simp [Functor.map, Except.map]

theorem mapError_eq_ok_iff {ε' : Type} {f : ε → ε'} {x : Except ε α} {a : α} :
    x.mapError f = .ok a ↔ x = .ok a := by
  cases x <;> simp [Except.mapError]

theorem mapError_eq_error_iff {ε' : Type} {f : ε → ε'} {x : Except ε α} {e' : ε'} :
    x.mapError f = .error e' ↔ ∃ e, x = .error e ∧ e' = f e := by
  cases x <;> simp [Except.mapError, eq_comm]

/-- Answers without a value are told apart by their errors. -/
theorem eq_of_error_iff {x y : Except ε Unit} (h : ∀ e, x = .error e ↔ y = .error e) : x = y := by
  cases x with
  | error e => exact ((h e).1 rfl).symm
  | ok =>
    cases y with
    | error e => exact (h e).2 rfl
    | ok => rfl

theorem mapM_eq_ok_iff {f : α → Except ε β} {as : List α} {bs : List β} :
    as.mapM f = .ok bs ↔ List.Forall₂ (fun a b => f a = .ok b) as bs := by
  induction as generalizing bs with
  | nil => simp [pure, Except.pure, eq_comm]
  | cons a as ih =>
    simp only [List.mapM_cons, bind_eq_ok_iff, ih, List.forall₂_cons_left_iff]
    constructor
    · intro h
      rcases h with ⟨b, hb, bs', hbs, h⟩
      cases h
      exact ⟨b, bs', hb, hbs, rfl⟩
    · intro h
      rcases h with ⟨b, bs', hb, hbs, rfl⟩
      exact ⟨b, hb, bs', hbs, rfl⟩

/-- What a traversal gives comes from an element. -/
theorem exists_of_mem_mapM {f : α → Except ε β} {as : List α} {bs : List β}
    (h : as.mapM f = .ok bs) {b : β} (hb : b ∈ bs) : ∃ a ∈ as, f a = .ok b := by
  obtain ⟨k, hk, rfl⟩ := List.getElem_of_mem hb
  have hall := mapM_eq_ok_iff.1 h
  exact ⟨as.get ⟨k, hall.length_eq ▸ hk⟩, List.get_mem .., hall.get _ hk⟩

theorem mapM_eq_error_iff {f : α → Except ε β} {as : List α} {e : ε} :
    as.mapM f = .error e ↔
      ∃ before a after, as = before ++ a :: after ∧ (∀ b ∈ before, ∃ c, f b = .ok c) ∧
        f a = .error e := by
  induction as with
  | nil => simp [pure, Except.pure]
  | cons a as ih =>
    simp only [List.mapM_cons, bind_eq_error_iff, ih]
    constructor
    · intro h
      rcases h with ha | ⟨b, hb, ⟨before, a', after, rfl, hbefore, ha'⟩ | ⟨bs, -, h⟩⟩
      · exact ⟨[], a, as, rfl, by simp, ha⟩
      · refine ⟨a :: before, a', after, rfl, ?_, ha'⟩
        exact List.forall_mem_cons.2 ⟨⟨b, hb⟩, hbefore⟩
      · cases h
    · intro h
      rcases h with ⟨before, a', after, h, hbefore, ha'⟩
      cases before with
      | nil =>
        cases h
        exact .inl ha'
      | cons b before =>
        cases h
        obtain ⟨⟨c, hc⟩, hbefore⟩ := List.forall_mem_cons.1 hbefore
        exact .inr ⟨c, hc, .inl ⟨before, a', after, rfl, hbefore, ha'⟩⟩

theorem forM_eq_ok_iff {f : α → Except ε Unit} {as : List α} :
    forM as f = .ok () ↔ ∀ a ∈ as, f a = .ok () := by
  induction as with
  | nil => simp [pure, Except.pure]
  | cons a as ih =>
    simp only [List.forM_cons, bind_eq_ok_iff, ih, List.forall_mem_cons]
    exact ⟨fun ⟨_, h⟩ => h, fun h => ⟨(), h⟩⟩

/-- A traversal by a look-up leaves the state as it is. -/
theorem outcome_forM_lift (f : α → Except ε Unit) (as : List α) (s : σ) :
    outcome (forM as fun a => (liftM (f a) : ExceptT ε (StateM σ) Unit)) s = (forM as f, s) := by
  induction as with
  | nil => rfl
  | cons a as ih =>
    rw [List.forM_cons, List.forM_cons, outcome_bind, outcome_lift]
    cases f a with
    | error e => rfl
    | ok => exact ih

theorem forM_congr {f g : α → Except ε Unit} {as : List α} (h : ∀ a ∈ as, f a = g a) :
    forM as f = forM as g := by
  induction as with
  | nil => rfl
  | cons a as ih =>
    obtain ⟨ha, has⟩ := List.forall_mem_cons.1 h
    rw [List.forM_cons, List.forM_cons, ha, ih has]

/-- Traversals whose steps differ by a change of errors differ by that change. -/
theorem forM_map_mapError {ε' : Type} {f : α → Except ε Unit} {g : β → Except ε' Unit} {h : α → β}
    {change : ε → ε'} {as : List α} (hstep : ∀ a ∈ as, g (h a) = (f a).mapError change) :
    forM (as.map h) g = (forM as f).mapError change := by
  induction as with
  | nil => rfl
  | cons a as ih =>
    obtain ⟨ha, has⟩ := List.forall_mem_cons.1 hstep
    rw [List.map_cons, List.forM_cons, List.forM_cons, ha, ih has]
    cases f a <;> rfl

theorem forM_eq_error_iff {f : α → Except ε Unit} {as : List α} {e : ε} :
    forM as f = .error e ↔
      ∃ (k : Nat) (a : α), as[k]? = some a ∧ (∀ j < k, ∀ b, as[j]? = some b → f b = .ok ()) ∧
        f a = .error e := by
  induction as with
  | nil => simp [pure, Except.pure]
  | cons a as ih =>
    simp only [List.forM_cons, bind_eq_error_iff, ih]
    constructor
    · intro h
      rcases h with ha | ⟨_, ha, k, a', hk, hbefore, ha'⟩
      · exact ⟨0, a, rfl, nofun, ha⟩
      · refine ⟨k + 1, a', hk, fun j hj b hb => ?_, ha'⟩
        cases j with
        | zero => exact Option.some.inj hb ▸ ha
        | succ j => exact hbefore j (by omega) b hb
    · intro h
      rcases h with ⟨k, a', hk, hbefore, ha'⟩
      cases k with
      | zero => exact .inl (Option.some.inj hk ▸ ha')
      | succ k =>
        exact .inr ⟨(), hbefore 0 (by omega) a rfl, k, a', hk,
          fun j hj b hb => hbefore (j + 1) (by omega) b hb, ha'⟩

end GateIR

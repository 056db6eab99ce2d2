import GateIR.Proofs.Typing.Binding
import GateIR.Proofs.Typing.Constraint

/-!
# The order of checking

A `Requirement` is a constraint with what it is checked on. Requirements that are checked in one
context influence each other through the variables that they share, and the context keeps the
binding that came first, as it was written.

**Runs (`passes_checkAll_empty`).** A run succeeds exactly when every value is of the kind that its
constraint asks for and all bindings of one variable agree. It leaves every variable with its first
binding.

**Theorem (`checkAll_perm`).** Checking the same requirements in another order succeeds or fails
alike, and binds the same variables to bindings that agree.

The condition of a run does not speak of order: agreement is an equivalence, so it does not matter
which binding of a variable the others are compared with. What is left of the order is which of
several agreeing bindings is kept.
-/

namespace GateIR

/-! ## Binding in sequence -/

namespace Context

theorem get?_extend (c : Context) (p : String × Binding) (v : String) :
    (c.extend p).get? v = (c.get? v).or ([p].lookup v) := by
  unfold extend
  split
  · next h =>
    by_cases hv : v = p.1
    · obtain ⟨b, hb⟩ := Option.isSome_iff_exists.1 h
      rw [hv, hb, Option.some_or]
    · have hne : (v == p.1) = false := beq_eq_false_iff_ne.2 hv
      rw [List.lookup_cons, hne, List.lookup_nil, Option.or_none]
  · exact List.lookup_append

/-- The pairs are accepted one after the other. -/
def bindAll (ps : List (String × Binding)) : Check Unit := ps.forM fun p => bind p.1 p.2

end Context

open Context

variable {c d : Context} {ps qs : List (String × Binding)}

theorem get?_foldl_extend (c : Context) (ps : List (String × Binding)) (v : String) :
    (ps.foldl extend c).get? v = (c.get? v).or (ps.lookup v) := by
  induction ps generalizing c with
  | nil => simp
  | cons p ps ih =>
    rw [List.foldl_cons, ih, get?_extend, Option.or_assoc, ← List.lookup_append,
      List.singleton_append]

/-- The pairs are accepted when each agrees with the binding that its variable has in the end. -/
theorem passes_bindAll :
    Passes (bindAll ps) c d ↔
      (∀ p ∈ ps, ∀ a, (c.get? p.1).or (ps.lookup p.1) = some a → a.agrees p.2 = true) ∧
        d = ps.foldl extend c := by
  induction ps generalizing c with
  | nil => simp [bindAll, passes_pure]
  | cons p ps ih =>
    have hstep : Passes (bindAll (p :: ps)) c d ↔
        (∀ a, c.get? p.1 = some a → a.agrees p.2 = true) ∧
          Passes (bindAll ps) (c.extend p) d := by
      simp [bindAll, passes_bind, passes_bindVar]
    have hfirst : (∀ a, (c.get? p.1).or ((p :: ps).lookup p.1) = some a → a.agrees p.2 = true) ↔
        ∀ a, c.get? p.1 = some a → a.agrees p.2 = true := by
      rw [List.lookup_cons_self]
      cases c.get? p.1 with
      | none => simp [Binding.agrees_refl]
      | some a => simp
    have hlater (v : String) : ((c.extend p).get? v).or (ps.lookup v) =
        (c.get? v).or ((p :: ps).lookup v) := by
      rw [get?_extend, Option.or_assoc, ← List.lookup_append, List.singleton_append]
    simp only [hstep, ih, hlater, List.forall_mem_cons, hfirst, List.foldl_cons, and_assoc]

/-- Any two bindings of one variable agree. -/
def Consistent (ps : List (String × Binding)) : Prop :=
  ∀ v a b, (v, a) ∈ ps → (v, b) ∈ ps → a.agrees b = true

theorem Consistent.perm (h : Consistent ps) (hperm : ps.Perm qs) : Consistent qs :=
  fun v a b ha hb => h v a b (hperm.mem_iff.2 ha) (hperm.mem_iff.2 hb)

theorem mem_of_lookup {v : String} {b : Binding} (h : ps.lookup v = some b) : (v, b) ∈ ps := by
  obtain ⟨before, after, rfl, -⟩ := List.lookup_eq_some_iff.1 h
  simp

theorem exists_lookup_of_mem {v : String} {b : Binding} (h : (v, b) ∈ ps) :
    ∃ a, ps.lookup v = some a := by
  refine Option.ne_none_iff_exists'.1 fun hnone => ?_
  have := List.lookup_eq_none_iff.1 hnone _ h
  simp at this

/-- Pairs that agree with the first binding of their variable agree with one another. -/
theorem consistent_iff_lookup :
    Consistent ps ↔ ∀ p ∈ ps, ∀ a, ps.lookup p.1 = some a → a.agrees p.2 = true := by
  constructor
  · intro h p hp a ha
    exact h p.1 a p.2 (mem_of_lookup ha) hp
  · intro h v a b ha hb
    obtain ⟨first, hfirst⟩ := exists_lookup_of_mem ha
    exact Binding.agrees_trans (Binding.agrees_symm (h _ ha _ hfirst)) (h _ hb _ hfirst)

/-- **Runs.** Consistent pairs are accepted, and every variable gets its first binding. -/
theorem passes_bindAll_empty :
    Passes (bindAll ps) {} d ↔ Consistent ps ∧ d = ps.foldl extend {} := by
  have hnone (v : String) : Context.get? {} v = none := rfl
  simp only [passes_bindAll, hnone, Option.none_or, consistent_iff_lookup]

theorem passes_bindAll_singleton {v : String} {b : Binding} :
    Passes (bindAll [(v, b)]) c d ↔ Passes (Context.bind v b) c d := by
  simp [bindAll]

theorem passes_bindAll_append :
    Passes (bindAll (ps ++ qs)) c d ↔ ∃ m, Passes (bindAll ps) c m ∧ Passes (bindAll qs) m d := by
  induction ps generalizing c with
  | nil => simp [bindAll, passes_pure]
  | cons p ps ih =>
    have hcons (qs : List (String × Binding)) {d : Context} : Passes (bindAll (p :: qs)) c d ↔
        ∃ m, Passes (Context.bind p.1 p.2) c m ∧ Passes (bindAll qs) m d := by
      simp [bindAll, passes_bind]
    rw [List.cons_append, hcons]
    simp only [hcons, ih]
    constructor
    · intro h
      rcases h with ⟨m, hp, n, hps, hqs⟩
      exact ⟨n, ⟨m, hp, hps⟩, hqs⟩
    · intro h
      rcases h with ⟨n, ⟨m, hp, hps⟩, hqs⟩
      exact ⟨m, hp, n, hps, hqs⟩

/-! ## Requirements -/

/-- A constraint with what it is checked on. -/
inductive Requirement where
  | type (k : TyConstraint) (t : Ty)
  | range (k : RangeConstraint) (ts : List Ty)
  | gate (k : GateConstraint) (a : Attribute)

namespace Requirement

def check : Requirement → Check Unit
  | type k t => k.check t
  | range k ts => k.check ts
  | gate k a => k.check a

/-- The pairs that the value brings. -/
def bindings : Requirement → List (String × Binding)
  | type k t => k.bindings t
  | range k ts => k.bindings ts
  | gate k a => k.bindings a

/-- The checks are made one after the other in one context. -/
def checkAll (rs : List Requirement) : Check Unit := rs.forM check

end Requirement

/-- The type is of the kind that the constraint asks for, whatever its variable stands for. -/
def TyConstraint.Admits : TyConstraint → Ty → Prop
  | family f, t | var _ f, t => f.accepts t = true
  | gateQubits _, t => ∃ n, t = .gate n

/-- The value is of the kind that the constraint asks for, whatever its variable stands for. -/
def Requirement.Admissible : Requirement → Prop
  | type k t => k.Admits t
  | range k ts => ∀ t ∈ ts, k.element.accepts t = true
  | gate k a => ∃ g, a = .gate g ∧ k.inner.Admits g.ty

theorem TyConstraint.passes_iff {k : TyConstraint} {t : Ty} :
    Passes (k.check t) c d ↔ k.Admits t ∧ Passes (bindAll (k.bindings t)) c d := by
  cases k with
  | family f => simp [passes_family, Admits, TyConstraint.bindings, bindAll, passes_pure]
  | var v f => rw [passes_var, Admits, TyConstraint.bindings, passes_bindAll_singleton]
  | gateQubits v =>
    rw [passes_gateQubits]
    constructor
    · intro h
      rcases h with ⟨n, rfl, h⟩
      exact ⟨⟨n, rfl⟩, passes_bindAll_singleton.2 h⟩
    · intro h
      rcases h with ⟨⟨n, rfl⟩, h⟩
      exact ⟨n, rfl, passes_bindAll_singleton.1 h⟩

namespace Requirement

/-- A check looks at the kind of the value, and then binds what the value brings. -/
theorem passes_iff {r : Requirement} :
    Passes r.check c d ↔ r.Admissible ∧ Passes (bindAll r.bindings) c d := by
  cases r with
  | type k t => exact TyConstraint.passes_iff
  | range k ts =>
    rw [check, RangeConstraint.passes_iff, ← passes_bindAll_singleton]
    rfl
  | gate k a =>
    rw [check, GateConstraint.passes_iff]
    constructor
    · intro h
      rcases h with ⟨g, rfl, h⟩
      obtain ⟨hadmits, hbind⟩ := TyConstraint.passes_iff.1 h
      exact ⟨⟨g, rfl, hadmits⟩, hbind⟩
    · intro h
      rcases h with ⟨⟨g, rfl, hadmits⟩, hbind⟩
      exact ⟨g, rfl, TyConstraint.passes_iff.2 ⟨hadmits, hbind⟩⟩

/-- A run looks at the kind of every value, and binds what all of them bring. -/
theorem passes_checkAll {rs : List Requirement} :
    Passes (checkAll rs) c d ↔
      (∀ r ∈ rs, r.Admissible) ∧ Passes (bindAll (rs.flatMap bindings)) c d := by
  induction rs generalizing c with
  | nil => simp [checkAll, bindAll, passes_pure]
  | cons r rs ih =>
    have hcons : Passes (checkAll (r :: rs)) c d ↔
        ∃ m, Passes r.check c m ∧ Passes (checkAll rs) m d := by
      simp [checkAll, passes_bind]
    simp only [hcons, passes_iff, ih, List.forall_mem_cons, List.flatMap_cons,
      passes_bindAll_append]
    constructor
    · intro h
      rcases h with ⟨m, ⟨hr, hbind⟩, hrs, hmore⟩
      exact ⟨⟨hr, hrs⟩, m, hbind, hmore⟩
    · intro h
      rcases h with ⟨⟨hr, hrs⟩, m, hbind, hmore⟩
      exact ⟨m, ⟨hr, hbind⟩, hrs, hmore⟩

/-- A run from the empty context succeeds when every value is of its kind and what the values bring
is consistent. -/
theorem passes_checkAll_empty {rs : List Requirement} :
    Passes (checkAll rs) {} d ↔
      (∀ r ∈ rs, r.Admissible) ∧ Consistent (rs.flatMap bindings) ∧
        d = (rs.flatMap bindings).foldl extend {} := by
  rw [passes_checkAll, passes_bindAll_empty]

end Requirement

/-! ## Other orders -/

/-- The contexts bind the same variables, to bindings that agree. -/
def Context.Agrees (c d : Context) : Prop :=
  ∀ v, Option.Rel (fun a b => a.agrees b = true) (c.get? v) (d.get? v)

/-- Consistent pairs leave contexts that agree in whatever order they come. -/
theorem Consistent.agrees (h : Consistent ps) (hperm : ps.Perm qs) :
    (ps.foldl extend {}).Agrees (qs.foldl extend {}) := by
  intro v
  have hget (rs : List (String × Binding)) : (rs.foldl extend {}).get? v = rs.lookup v := by
    rw [get?_foldl_extend]
    exact Option.none_or
  rw [hget, hget]
  cases hp : ps.lookup v with
  | none =>
    cases hq : qs.lookup v with
    | none => exact .none
    | some b =>
      obtain ⟨a, ha⟩ := exists_lookup_of_mem (hperm.mem_iff.2 (mem_of_lookup hq))
      rw [hp] at ha
      cases ha
  | some a =>
    obtain ⟨b, hb⟩ := exists_lookup_of_mem (hperm.mem_iff.1 (mem_of_lookup hp))
    rw [hb]
    exact .some (h v a b (mem_of_lookup hp) (hperm.mem_iff.2 (mem_of_lookup hb)))

namespace Requirement

theorem passes_of_perm {rs ss : List Requirement} (hperm : rs.Perm ss)
    (h : Passes (checkAll rs) {} c) : ∃ d, Passes (checkAll ss) {} d := by
  obtain ⟨hkinds, hcons, -⟩ := passes_checkAll_empty.1 h
  have hkinds' : ∀ r ∈ ss, r.Admissible := fun r hr => hkinds r (hperm.mem_iff.2 hr)
  exact ⟨_, passes_checkAll_empty.2 ⟨hkinds', hcons.perm (hperm.flatMap_right _), rfl⟩⟩

/-- **The order of checking does not matter.** Requirements pass in every order or in none, and the
contexts that two orders leave agree. -/
theorem checkAll_perm {rs ss : List Requirement} (hperm : rs.Perm ss) :
    ((∃ c, Passes (checkAll rs) {} c) ↔ ∃ d, Passes (checkAll ss) {} d) ∧
      ∀ c d, Passes (checkAll rs) {} c → Passes (checkAll ss) {} d → c.Agrees d := by
  refine ⟨⟨?_, ?_⟩, ?_⟩
  · intro h
    rcases h with ⟨c, hc⟩
    exact passes_of_perm hperm hc
  · intro h
    rcases h with ⟨d, hd⟩
    exact passes_of_perm hperm.symm hd
  · intro c d hc hd
    obtain ⟨-, hcons, rfl⟩ := passes_checkAll_empty.1 hc
    obtain ⟨-, -, rfl⟩ := passes_checkAll_empty.1 hd
    exact hcons.agrees (hperm.flatMap_right _)

/-- A gate on two qubits, with its operands and the type of its gate value. -/
def controlledPhase : List Requirement :=
  [.gate (.qubits "Q") (.gate .cz), .range (.qubits "Q") [.qubit, .qubit],
    .type (.var "T" .gate) (.gate 2)]

/-- The gate gives the length of the qubit list when it comes first, and the operands give the list
itself when they do. -/
theorem checkAll_perm_controlledPhase :
    controlledPhase.Perm controlledPhase.reverse ∧
      ∃ c d, Passes (checkAll controlledPhase) {} c ∧
        Passes (checkAll controlledPhase.reverse) {} d ∧ c.get? "Q" = some (.qubits 2) ∧
          d.get? "Q" = some (.range [.qubit, .qubit]) ∧ c.Agrees d := by
  have hperm : controlledPhase.Perm controlledPhase.reverse := (List.reverse_perm _).symm
  have hc : Passes (checkAll controlledPhase) {} ⟨[("Q", .qubits 2), ("T", .type (.gate 2))]⟩ := rfl
  have hd : Passes (checkAll controlledPhase.reverse) {}
      ⟨[("T", .type (.gate 2)), ("Q", .range [.qubit, .qubit])]⟩ := rfl
  exact ⟨hperm, _, _, hc, hd, rfl, rfl, (checkAll_perm hperm).2 _ _ hc hd⟩

end Requirement

end GateIR

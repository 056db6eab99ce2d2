import GateIR.Proofs.Typing.Clash

/-!
# Counting qubits or listing them

A context may keep a list of qubits as a number. The plain engine below has no numbers: it keeps the
type or the list of types that every variable stands for, and its rules say what it answers.

**Step (`binds_iff`).** Binding in a context answers as the plain engine does on what the context
means, and the contexts that both leave mean the same.

**Theorem (`bind_answers_as_listing`).** The same holds along every sequence of bindings, so no
sequence tells a counted list from a written one. A binding is accepted when its variable is free or
stands for the same thing, and otherwise the clash between what the two denote is reported.
-/

namespace GateIR

open Binding (Clashes)

/-! ## The plain engine -/

namespace Listing

/-- What every variable stands for, if it is bound: a type or a list of types. -/
abbrev Store := String → Option (Ty ⊕ List Ty)

/-- The answer to the binding of a variable, and the store that it leaves. -/
inductive Binds (s : Store) (var : String) (m : Ty ⊕ List Ty) :
    Except Violation Unit → Store → Prop
  | free : s var = none → Binds s var m (.ok ()) (Function.update s var (some m))
  | same : s var = some m → Binds s var m (.ok ()) s
  | clash {bound : Ty ⊕ List Ty} {e : Violation} :
      s var = some bound → Clashes var bound m e → Binds s var m (.error e) s

/-- The answers to a sequence of bindings, and the store that they leave. -/
inductive Runs : Store → List (String × (Ty ⊕ List Ty)) → List (Except Violation Unit) →
    Store → Prop
  | nil {s : Store} : Runs s [] [] s
  | cons {s t u : Store} {p : String × (Ty ⊕ List Ty)} {ps : List (String × (Ty ⊕ List Ty))}
      {r : Except Violation Unit} {rs : List (Except Violation Unit)} :
      Binds s p.1 p.2 r t → Runs t ps rs u → Runs s (p :: ps) (r :: rs) u

theorem runs_nil_iff {s t : Store} {rs : List (Except Violation Unit)} :
    Runs s [] rs t ↔ rs = [] ∧ t = s := by
  constructor
  · intro h
    cases h
    exact ⟨rfl, rfl⟩
  · intro h
    rcases h with ⟨rfl, rfl⟩
    exact .nil

theorem runs_cons_iff {s u : Store} {p : String × (Ty ⊕ List Ty)}
    {ps : List (String × (Ty ⊕ List Ty))} {rs : List (Except Violation Unit)} :
    Runs s (p :: ps) rs u ↔ ∃ r rs' t, rs = r :: rs' ∧ Binds s p.1 p.2 r t ∧ Runs t ps rs' u := by
  constructor
  · intro h
    cases h with
    | cons hbinds hruns => exact ⟨_, _, _, rfl, hbinds, hruns⟩
  · intro h
    rcases h with ⟨r, rs', t, rfl, hbinds, hruns⟩
    exact .cons hbinds hruns

end Listing

/-! ## What a context means -/

namespace Context

variable {c : Context} {v : String} {b : Binding}

/-- What the bound variables of a context stand for. -/
def meanings (c : Context) : Listing.Store := fun v => (c.get? v).map Binding.denotation

theorem meanings_eq_none_iff : c.meanings v = none ↔ c.get? v = none := Option.map_eq_none_iff

/-- Binding a free variable gives it its meaning. -/
theorem meanings_concat (h : c.get? v = none) :
    meanings ⟨c.bindings ++ [(v, b)]⟩ = Function.update c.meanings v (some b.denotation) := by
  funext w
  rw [meanings, get?, List.lookup_append, ← get?]
  by_cases hw : w = v
  · subst hw
    simp [h]
  · simp [List.lookup_cons, beq_eq_false_iff_ne.2 hw, hw, meanings]

/-! ## The answer to one binding -/

/-- **Step.** The context answers as the plain engine, and keeps meaning the same as its store. -/
theorem binds_iff {r : Except Violation Unit} {s : Listing.Store} :
    Listing.Binds c.meanings v b.denotation r s ↔
      r = (outcome (bind v b) c).1 ∧ s = (outcome (bind v b) c).2.meanings := by
  cases h : c.get? v with
  | none =>
    have hfree : c.meanings v = none := meanings_eq_none_iff.2 h
    rw [outcome_bind_of_free h, meanings_concat h]
    constructor
    · intro hbinds
      cases hbinds with
      | free => exact ⟨rfl, rfl⟩
      | same hbound => simp [hfree] at hbound
      | clash hbound => simp [hfree] at hbound
    · intro heq
      rcases heq with ⟨rfl, rfl⟩
      exact .free hfree
  | some a =>
    have hmeaning : c.meanings v = some a.denotation := by rw [meanings, h, Option.map_some]
    constructor
    · intro hbinds
      cases hbinds with
      | free hfree => simp [hmeaning] at hfree
      | same hbound =>
        have hsame : a.denotation = b.denotation := by simpa [hmeaning] using hbound
        rw [outcome_bind_of_agrees h (Binding.agrees_iff.2 hsame)]
        exact ⟨rfl, rfl⟩
      | clash hbound he =>
        obtain rfl : a.denotation = _ := by simpa [hmeaning] using hbound
        rw [outcome_bind_of_clash h he]
        exact ⟨rfl, rfl⟩
    · intro heq
      rcases heq with ⟨rfl, rfl⟩
      by_cases hsame : a.denotation = b.denotation
      · rw [outcome_bind_of_agrees h (Binding.agrees_iff.2 hsame)]
        exact .same (hsame ▸ hmeaning)
      · obtain ⟨e, he⟩ := Binding.exists_clashes v hsame
        rw [outcome_bind_of_clash h he]
        exact .clash hmeaning he

/-! ## Sequences of bindings -/

/-- The answers to a sequence of bindings, some of which may fail, and the context they leave. -/
def bindEach (c : Context) : List (String × Binding) → List (Except Violation Unit) × Context
  | [] => ([], c)
  | p :: ps =>
    let (r, d) := outcome (bind p.1 p.2) c
    let (rs, e) := bindEach d ps
    (r :: rs, e)

/-- **Run.** A context answers every sequence of bindings as the plain engine does. -/
theorem runs_iff {ps : List (String × Binding)} {rs : List (Except Violation Unit)}
    {s : Listing.Store} :
    Listing.Runs c.meanings (ps.map fun p => (p.1, Binding.denotation p.2)) rs s ↔
      rs = (bindEach c ps).1 ∧ s = (bindEach c ps).2.meanings := by
  induction ps generalizing c rs with
  | nil => exact Listing.runs_nil_iff
  | cons p ps ih =>
    rw [List.map_cons, Listing.runs_cons_iff]
    constructor
    · intro h
      rcases h with ⟨r, rs', t, rfl, hbinds, hruns⟩
      obtain ⟨rfl, rfl⟩ := binds_iff.1 hbinds
      obtain ⟨rfl, rfl⟩ := ih.1 hruns
      exact ⟨rfl, rfl⟩
    · intro h
      rcases h with ⟨rfl, rfl⟩
      exact ⟨_, _, _, rfl, binds_iff.2 ⟨rfl, rfl⟩, ih.2 ⟨rfl, rfl⟩⟩

/-- **Counted lists answer as written ones.** A context that bindings reach answers every further
binding as the plain engine does. Agreement is an equivalence, and two lists of one length that
disagree have a first difference. -/
theorem bind_answers_as_listing (ps : List (String × Binding)) :
    (∀ rs s, Listing.Runs (fun _ => none) (ps.map fun p => (p.1, Binding.denotation p.2)) rs s ↔
        rs = (bindEach {} ps).1 ∧ s = (bindEach {} ps).2.meanings) ∧
      (∀ v b r s, Listing.Binds (bindEach {} ps).2.meanings v b.denotation r s ↔
        r = (outcome (bind v b) (bindEach {} ps).2).1 ∧
          s = (outcome (bind v b) (bindEach {} ps).2).2.meanings) ∧
      (∀ v b, ((outcome (bind v b) (bindEach {} ps).2).1 = .ok () ↔
          ∀ a, (bindEach {} ps).2.get? v = some a → a.denotation = b.denotation) ∧
        ∀ e, (outcome (bind v b) (bindEach {} ps).2).1 = .error e ↔
          ∃ a, (bindEach {} ps).2.get? v = some a ∧ Clashes v a.denotation b.denotation e) ∧
      Equivalence (fun a b : Binding => a.agrees b = true) ∧
      ∀ (a b : Binding) (n : Nat), a.length? = some n → b.length? = some n → a.agrees b = false →
        ∃ t u, Binding.firstDifference? a.elements b.elements = some (t, u) := by
  refine ⟨fun rs s => runs_iff (c := {}), fun v b r s => binds_iff, fun v b => ⟨?_, fun e => ?_⟩,
    ⟨Binding.agrees_refl, Binding.agrees_symm, Binding.agrees_trans⟩, ?_⟩
  · exact bind_eq_ok_iff_denotation
  · exact bind_eq_error_iff_clashes
  · intro a b n ha hb hdiffer
    exact Binding.exists_firstDifference?_of_lists ha hb hdiffer

/-- A counted list, and then a list with another element, a type, a shorter list and the same list
written out. -/
def countedFirst : List (String × Binding) :=
  [("Q", .qubits 2), ("Q", .range [.qubit, .int 1]), ("Q", .type .qubit), ("Q", .range [.qubit]),
    ("Q", .range [.qubit, .qubit])]

theorem bind_answers_as_listing_countedFirst :
    (∃ s, Listing.Runs (fun _ => none) (countedFirst.map fun p => (p.1, Binding.denotation p.2))
        [.ok (), .error (.typeMismatch .qubit (.int 1)), .error (.mixedBinding "Q"),
          .error (.operandArity 2 1), .ok ()] s) ∧
      Binding.length? (.qubits 2) = some 2 ∧ Binding.length? (.range [.qubit, .int 1]) = some 2 ∧
      Binding.agrees (.qubits 2) (.range [.qubit, .int 1]) = false ∧
      ∃ t u, Binding.firstDifference? (Binding.elements (.qubits 2))
        (Binding.elements (.range [.qubit, .int 1])) = some (t, u) := by
  obtain ⟨hruns, -, -, -, hdifference⟩ := bind_answers_as_listing countedFirst
  have hagrees : Binding.agrees (.qubits 2) (.range [.qubit, .int 1]) = false := by decide
  exact ⟨⟨_, (hruns _ _).2 ⟨rfl, rfl⟩⟩, rfl, rfl, hagrees, hdifference _ _ 2 rfl rfl hagrees⟩

end Context

end GateIR

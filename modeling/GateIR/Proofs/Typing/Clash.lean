import GateIR.Proofs.Action
import GateIR.Proofs.Typing.Binding

/-!
# Bindings that clash

Two bindings clash when they denote different things. `Clashes` says which violation that is, in
terms of what they denote: nothing is said of how a list of qubits is written.

**Theorem (`clashes_iff`).** Bindings that disagree are reported by the violation of the clash
between what they denote. Two lists that clash have different lengths or an element that differs,
so `conflict` always finds one of these.

**Answers (`bind_eq_ok_iff_denotation`, `bind_eq_error_iff_clashes`).** A context accepts a binding
when its variable is free or stands for the same thing, and otherwise reports the clash.
-/

namespace GateIR

namespace Binding

variable {a b : Binding} {var : String} {e e' : Violation}

/-! ## The first difference of two lists -/

theorem firstDifference?_append {common ts us : List Ty} {t u : Ty} (h : t ≠ u) :
    firstDifference? (common ++ t :: ts) (common ++ u :: us) = some (t, u) := by
  induction common with
  | nil => simp [firstDifference?, h]
  | cons w common ih => simpa [firstDifference?] using ih

/-- Lists of one length that differ have a first difference, with equal parts before it. -/
theorem exists_firstDifference {ts us : List Ty} (hlength : ts.length = us.length) (h : ts ≠ us) :
    ∃ common t u ts' us', ts = common ++ t :: ts' ∧ us = common ++ u :: us' ∧
      ts'.length = us'.length ∧ t ≠ u := by
  induction ts generalizing us with
  | nil =>
    obtain rfl := List.length_eq_zero_iff.1 hlength.symm
    exact absurd rfl h
  | cons t ts ih =>
    cases us with
    | nil => simp at hlength
    | cons u us =>
      have hlength' : ts.length = us.length := Nat.succ.inj hlength
      by_cases htu : t = u
      · subst htu
        obtain ⟨common, t', u', ts', us', rfl, rfl, hrest⟩ :=
          ih hlength' fun heq => h (by rw [heq])
        exact ⟨t :: common, t', u', ts', us', rfl, rfl, hrest⟩
      · exact ⟨[], t, u, ts, us, rfl, rfl, hlength', htu⟩

/-- A list binding denotes its elements. -/
theorem denotation_of_list {n : Nat} (h : a.length? = some n) :
    a.denotation = .inr a.elements ∧ a.elements.length = n := by
  cases a with
  | type t => cases h
  | _ => simpa [length?, elements, denotation] using h

/-- Lists of one length that disagree have an element that differs. -/
theorem exists_firstDifference?_of_lists {n : Nat} (ha : a.length? = some n)
    (hb : b.length? = some n) (h : a.agrees b = false) :
    ∃ t u, firstDifference? a.elements b.elements = some (t, u) := by
  obtain ⟨hda, hla⟩ := denotation_of_list ha
  obtain ⟨hdb, hlb⟩ := denotation_of_list hb
  rw [← Bool.not_eq_true, agrees_iff, hda, hdb] at h
  have hne : a.elements ≠ b.elements := fun heq => h (congrArg Sum.inr heq)
  obtain ⟨common, t, u, ts, us, hts, hus, -, htu⟩ :=
    exists_firstDifference (hla.trans hlb.symm) hne
  exact ⟨t, u, by rw [hts, hus, firstDifference?_append htu]⟩

/-! ## Clashes -/

/-- The violation by a binding of a variable that stands for something else. -/
inductive Clashes (var : String) : Ty ⊕ List Ty → Ty ⊕ List Ty → Violation → Prop
  /-- Two different types. -/
  | types {t u : Ty} : t ≠ u → Clashes var (.inl t) (.inl u) (.conflictingTypes var t u)
  | typeAndList {t : Ty} {us : List Ty} : Clashes var (.inl t) (.inr us) (.mixedBinding var)
  | listAndType {ts : List Ty} {u : Ty} : Clashes var (.inr ts) (.inl u) (.mixedBinding var)
  | lengths {ts us : List Ty} :
      ts.length ≠ us.length → Clashes var (.inr ts) (.inr us) (.operandArity ts.length us.length)
  /-- Lists of one length, by the first elements that differ. -/
  | elements {common ts us : List Ty} {t u : Ty} :
      ts.length = us.length → t ≠ u →
      Clashes var (.inr (common ++ t :: ts)) (.inr (common ++ u :: us)) (.typeMismatch t u)

theorem Clashes.ne {m n : Ty ⊕ List Ty} (h : Clashes var m n e) : m ≠ n := by
  cases h with
  | types htu => simpa using htu
  | typeAndList => simp
  | listAndType => simp
  | lengths hlength =>
    intro heq
    exact hlength (congrArg List.length (Sum.inr.inj heq))
  | elements _ htu =>
    intro heq
    exact htu (List.cons.inj (List.append_cancel_left (Sum.inr.inj heq))).1

/-- Counting a list does not change what is reported. -/
theorem conflict_eq_of_lists {m n : Nat} (ha : a.length? = some m) (hb : b.length? = some n) :
    conflict var a b = conflict var (.range a.elements) (.range b.elements) := by
  cases a <;> cases b <;> simp_all [conflict, length?, elements]

/-- The violation of a clash is the one that is reported. -/
theorem Clashes.conflict_eq_of_lists {ts us : List Ty} (h : Clashes var (.inr ts) (.inr us) e) :
    conflict var (.range ts) (.range us) = e := by
  cases h with
  | lengths hlength => simp [conflict, length?, hlength]
  | elements hlength htu =>
    simp [conflict, length?, Binding.elements, hlength, firstDifference?_append htu]

theorem Clashes.eq_mixedBinding {ts : List Ty} {u : Ty} (h : Clashes var (.inr ts) (.inl u) e) :
    e = .mixedBinding var := by
  cases h
  rfl

theorem Clashes.conflict_eq (h : Clashes var a.denotation b.denotation e) :
    conflict var a b = e := by
  cases a with
  | type t =>
    cases b with
    | type u =>
      cases h
      rfl
    | _ =>
      cases h
      rfl
  | _ =>
    cases b with
    | type u => exact h.eq_mixedBinding.symm
    | _ =>
      -- Both are lists, so it does not matter which of them is counted.
      rw [Binding.conflict_eq_of_lists rfl rfl]
      exact Clashes.conflict_eq_of_lists h

/-- What differs clashes in one of the five ways. -/
theorem exists_clashes {m n : Ty ⊕ List Ty} (var : String) (h : m ≠ n) :
    ∃ e, Clashes var m n e := by
  cases m with
  | inl t =>
    cases n with
    | inl u =>
      have htu : t ≠ u := fun heq => h (congrArg Sum.inl heq)
      exact ⟨_, .types htu⟩
    | inr us => exact ⟨_, .typeAndList⟩
  | inr ts =>
    cases n with
    | inl u => exact ⟨_, .listAndType⟩
    | inr us =>
      by_cases hlength : ts.length = us.length
      · have hne : ts ≠ us := fun heq => h (congrArg Sum.inr heq)
        obtain ⟨common, t, u, ts', us', rfl, rfl, hlength', htu⟩ :=
          exists_firstDifference hlength hne
        exact ⟨_, .elements hlength' htu⟩
      · exact ⟨_, .lengths hlength⟩

/-- **What is reported of bindings that disagree.** -/
theorem clashes_iff :
    Clashes var a.denotation b.denotation e ↔ a.agrees b = false ∧ e = conflict var a b := by
  rw [← Bool.not_eq_true, agrees_iff]
  constructor
  · intro h
    exact ⟨h.ne, h.conflict_eq.symm⟩
  · intro h
    rcases h with ⟨hne, rfl⟩
    obtain ⟨e, he⟩ := exists_clashes var hne
    exact he.conflict_eq.symm ▸ he

end Binding

/-! ## The answer to a binding -/

namespace Context

open Binding (Clashes)

variable {c : Context} {v : String} {b : Binding}

theorem outcome_bind_of_free (h : c.get? v = none) :
    outcome (bind v b) c = (.ok (), ⟨c.bindings ++ [(v, b)]⟩) := by
  rw [bind, outcome_bind_of_ok (outcome_get c), h]
  rfl

theorem outcome_bind_of_bound {a : Binding} (h : c.get? v = some a) :
    outcome (bind v b) c =
      (if a.agrees b then .ok () else .error (Binding.conflict v a b), c) := by
  rw [bind, outcome_bind_of_ok (outcome_get c), h]
  show outcome (if a.agrees b then pure () else throw (Binding.conflict v a b)) c = _
  cases a.agrees b <;> rfl

theorem outcome_bind_of_clash {a : Binding} {e : Violation} (h : c.get? v = some a)
    (he : Clashes v a.denotation b.denotation e) : outcome (bind v b) c = (.error e, c) := by
  obtain ⟨hdiffer, rfl⟩ := Binding.clashes_iff.1 he
  rw [outcome_bind_of_bound h, hdiffer]
  rfl

theorem outcome_bind_of_agrees {a : Binding} (h : c.get? v = some a) (hagrees : a.agrees b = true) :
    outcome (bind v b) c = (.ok (), c) := by
  rw [outcome_bind_of_bound h, hagrees]
  rfl

/-- A binding is accepted when its variable is free or stands for the same thing. -/
theorem bind_eq_ok_iff_denotation :
    (outcome (bind v b) c).1 = .ok () ↔ ∀ a, c.get? v = some a → a.denotation = b.denotation := by
  cases h : c.get? v with
  | none => simp [outcome_bind_of_free h]
  | some a =>
    rw [outcome_bind_of_bound h]
    simp [← Binding.agrees_iff]

/-- A binding is refused by the clash with the binding that its variable has. -/
theorem bind_eq_error_iff_clashes {e : Violation} :
    (outcome (bind v b) c).1 = .error e ↔
      ∃ a, c.get? v = some a ∧ Clashes v a.denotation b.denotation e := by
  cases h : c.get? v with
  | none => simp [outcome_bind_of_free h]
  | some a =>
    simp only [Option.some.injEq, exists_eq_left', Binding.clashes_iff]
    rw [outcome_bind_of_bound h]
    cases a.agrees b <;> simp [eq_comm]

end Context

end GateIR

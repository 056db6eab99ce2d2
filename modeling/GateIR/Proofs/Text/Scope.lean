import GateIR.Proofs.Circuit.Building
import GateIR.Text.Scope

/-!
# Steps of resolving

What each step of resolving does to a scope, and when it succeeds: a look-up finds what is in scope,
an annotation has to be the type in the value table, and a builder action has to know its handles.

A scope that names its values in order holds the names with their positions (`numbered`). The next
values can be named exactly when their names are new and distinct (`run_forM_define_iff`).
-/

namespace GateIR.Text.Resolve

variable {α β : Type} {s s' : Scope}

/-! ## Single steps -/

theorem run_bind_of_ok {x : Resolve α} {f : α → Resolve β} {a : α} (h : x.run s = .ok (a, s')) :
    (x >>= f).run s = (f a).run s' := by
  rw [StateT.run_bind, h]
  rfl

theorem exists_of_run_bind {x : Resolve α} {f : α → Resolve β} {r : β × Scope}
    (h : (x >>= f).run s = .ok r) : ∃ a t, x.run s = .ok (a, t) ∧ (f a).run t = .ok r := by
  rw [StateT.run_bind, bind_eq_ok_iff] at h
  obtain ⟨⟨a, t⟩, hx, hf⟩ := h
  exact ⟨a, t, hx, hf⟩

theorem run_get : (get : Resolve Scope).run s = .ok (s, s) := rfl

theorem run_ofCircuit {a : α} : (ofCircuit (.ok a) : Resolve α).run s = .ok (a, s) := rfl

theorem run_build {b : Builder α} {a : α} {d : Circuit} (h : outcome b s.circuit = (.ok a, d)) :
    (build b).run s = .ok (a, { s with circuit := d }) := by
  have hrun : b.run.run s.circuit = (.ok a, d) := h
  rw [build, run_bind_of_ok run_get, hrun]
  rfl

theorem run_define {name : String} {v : Value} (h : s.names.lookup name = none) :
    (define name v).run s = .ok ((), { s with names := (name, v) :: s.names }) := by
  rw [define, run_bind_of_ok run_get, h]
  rfl

theorem run_value {name : String} {v : Value} (h : s.names.lookup name = some v) :
    (value name).run s = .ok (v, s) := by
  rw [value, run_bind_of_ok run_get, h]
  rfl

theorem run_typedValue {name : String} {v : Value} {t declared : Ty}
    (h : s.names.lookup name = some v) (ht : s.circuit.HasType v t) :
    (typedValue name declared).run s =
      if t = declared then .ok (v, s) else .error (.misdeclared name declared t) := by
  rw [typedValue, run_bind_of_ok (run_value h), run_bind_of_ok run_get,
    Circuit.typeOf_eq_ok_iff.2 ht, run_bind_of_ok run_ofCircuit]
  split <;> rfl

theorem run_typedValue_of_hasType {name : String} {v : Value} {t : Ty}
    (h : s.names.lookup name = some v) (ht : s.circuit.HasType v t) :
    (typedValue name t).run s = .ok (v, s) := by
  rw [run_typedValue h ht, if_pos rfl]

/-- The annotation of a value that is accepted is its type. -/
theorem of_run_typedValue {name : String} {v w : Value} {t declared : Ty}
    (h : s.names.lookup name = some v) (ht : s.circuit.HasType v t)
    (hrun : (typedValue name declared).run s = .ok (w, s')) : t = declared ∧ s' = s := by
  rw [run_typedValue h ht] at hrun
  split at hrun
  · next heq =>
    obtain ⟨-, rfl⟩ := Prod.mk.inj (Except.ok.inj hrun)
    exact ⟨heq, rfl⟩
  · cases hrun

/-- An operand list whose annotations are the types of its values. -/
theorem run_typedValues {instruction : String} {vs : List Value} {name : Value → String}
    {f : Value → Value} {ty : Value → Ty} (hnames : ∀ v ∈ vs, s.names.lookup (name v) = some (f v))
    (htypes : ∀ v ∈ vs, s.circuit.HasType (f v) (ty v)) :
    (typedValues instruction (vs.map name) (vs.map ty)).run s = .ok (vs.map f, s) := by
  rw [typedValues, if_pos (by simp)]
  induction vs with
  | nil => rfl
  | cons v vs ih =>
    obtain ⟨hname, hnames⟩ := List.forall_mem_cons.1 hnames
    obtain ⟨htype, htypes⟩ := List.forall_mem_cons.1 htypes
    simp only [List.map_cons, List.zip_cons_cons, List.mapM_cons]
    rw [run_bind_of_ok (run_typedValue_of_hasType hname htype),
      run_bind_of_ok (ih hnames htypes)]
    rfl

/-! ## When a step succeeds -/

section Success

variable {v : Value} {name : String}

theorem run_bind_eq_ok_iff {x : Resolve α} {f : α → Resolve β} {b : β} :
    (x >>= f).run s = .ok (b, s') ↔ ∃ a t, x.run s = .ok (a, t) ∧ (f a).run t = .ok (b, s') := by
  constructor
  · exact exists_of_run_bind
  · intro h
    rcases h with ⟨a, t, hx, hf⟩
    rw [run_bind_of_ok hx, hf]

theorem run_pure_eq_ok_iff {a b : α} :
    (pure a : Resolve α).run s = .ok (b, s') ↔ b = a ∧ s' = s := by
  change Except.ok (a, s) = .ok (b, s') ↔ _
  rw [Except.ok.injEq, Prod.mk.injEq, eq_comm, eq_comm (a := s)]

theorem run_value_eq_ok_iff :
    (value name).run s = .ok (v, s') ↔ s.names.lookup name = some v ∧ s' = s := by
  cases h : s.names.lookup name with
  | none =>
    rw [value, run_bind_of_ok run_get, h]
    constructor <;> nofun
  | some w =>
    rw [run_value h]
    simp [eq_comm]

theorem run_typedValue_eq_ok_iff {declared : Ty} :
    (typedValue name declared).run s = .ok (v, s') ↔
      (s.names.lookup name = some v ∧ s.circuit.HasType v declared) ∧ s' = s := by
  constructor
  · intro h
    obtain ⟨w, t, hw, hrun⟩ := exists_of_run_bind h
    obtain ⟨hlookup, rfl⟩ := run_value_eq_ok_iff.1 hw
    cases htype : t.circuit.typeOf w with
    | error e =>
      rw [run_bind_of_ok run_get, htype] at hrun
      cases hrun
    | ok actual =>
      have hactual := Circuit.typeOf_eq_ok_iff.1 htype
      rw [run_typedValue hlookup hactual] at h
      split at h
      · next heq =>
        cases h
        exact ⟨⟨hlookup, heq ▸ hactual⟩, rfl⟩
      · cases h
  · intro h
    obtain ⟨⟨hlookup, htype⟩, rfl⟩ := h
    exact run_typedValue_of_hasType hlookup htype

/-- A traversal by steps that leave the scope as it is. -/
theorem run_mapM_eq_ok_iff {f : α → Resolve β} {p : α → β → Prop}
    (hf : ∀ a b t, (f a).run s = .ok (b, t) ↔ p a b ∧ t = s) {as : List α} {bs : List β} :
    (as.mapM f).run s = .ok (bs, s') ↔ List.Forall₂ p as bs ∧ s' = s := by
  induction as generalizing bs s' with
  | nil =>
    rw [List.mapM_nil, run_pure_eq_ok_iff, List.forall₂_nil_left_iff]
  | cons a as ih =>
    simp only [List.mapM_cons, run_bind_eq_ok_iff, run_pure_eq_ok_iff, hf,
      List.forall₂_cons_left_iff]
    constructor
    · intro h
      rcases h with ⟨b, t, ⟨ha, rfl⟩, bs, u, has, rfl, rfl⟩
      obtain ⟨hbs, hu⟩ := ih.1 has
      exact ⟨⟨b, bs, ha, hbs, rfl⟩, hu⟩
    · intro h
      rcases h with ⟨⟨b, bs, ha, hbs, rfl⟩, rfl⟩
      exact ⟨b, _, ⟨ha, rfl⟩, bs, _, ih.2 ⟨hbs, rfl⟩, rfl, rfl⟩

theorem run_typedValues_eq_ok_iff {instruction : String} {names : List String} {types : List Ty}
    {vs : List Value} :
    (typedValues instruction names types).run s = .ok (vs, s') ↔
      names.length = types.length ∧
        List.Forall₂ (fun a v => s.names.lookup a.1 = some v ∧ s.circuit.HasType v a.2)
          (names.zip types) vs ∧ s' = s := by
  rw [typedValues]
  split
  · next h =>
    rw [run_mapM_eq_ok_iff fun a v t => run_typedValue_eq_ok_iff]
    simp [h]
  · next h =>
    simp only [h, false_and, iff_false]
    nofun

theorem run_define_eq_ok_iff :
    (define name v).run s = .ok ((), s') ↔
      s.names.lookup name = none ∧ s' = { s with names := (name, v) :: s.names } := by
  cases h : s.names.lookup name with
  | none => simp [run_define h, eq_comm]
  | some w =>
    rw [define, run_bind_of_ok run_get, h]
    constructor <;> nofun

end Success

/-! ## Naming values -/

/-- The names with their positions, the last one first. -/
def numbered (ns : List String) : List (String × Value) :=
  (ns.mapIdx fun k n => (n, .ofIndex k)).reverse

theorem numbered_concat (ns : List String) (n : String) :
    numbered (ns ++ [n]) = (n, .ofIndex ns.length) :: numbered ns := by
  simp [numbered, List.mapIdx_append]

theorem lookup_numbered {ns : List String} (hns : ns.Nodup) (n : String) :
    (numbered ns).lookup n = if n ∈ ns then some (.ofIndex (ns.idxOf n)) else none := by
  induction ns using List.reverseRecOn with
  | nil => rfl
  | append_singleton ns m ih =>
    obtain ⟨hns, -, hm⟩ := List.nodup_append.1 hns
    rw [numbered_concat, List.lookup_cons, ih hns]
    by_cases hnm : n = m
    · have hn : m ∉ ns := fun hmem => hm m hmem m (by simp) rfl
      simp [hnm, List.idxOf_append_of_notMem hn]
    · rw [beq_eq_false_iff_ne.2 hnm]
      by_cases hn : n ∈ ns
      · simp [hn, List.idxOf_append_of_mem]
      · simp [hn, hnm]

theorem nodup_concat_iff {ns : List String} (hns : ns.Nodup) {n : String} :
    (ns ++ [n]).Nodup ↔ n ∉ ns := by
  rw [← List.concat_eq_append, List.nodup_concat, and_iff_left hns]

theorem lookup_numbered_eq_none_iff {ns : List String} (hns : ns.Nodup) {n : String} :
    (numbered ns).lookup n = none ↔ n ∉ ns := by
  rw [lookup_numbered hns]
  split <;> simp_all

theorem forM_concat {α : Type} (f : α → Resolve Unit) (as : List α) (a : α) :
    (as ++ [a]).forM f = as.forM f >>= fun _ => f a := by
  simp [List.forM_eq_forM]

/-- Naming the next values succeeds when the names are new and distinct. -/
theorem run_forM_define_iff {ns results : List String} (hns : ns.Nodup) {sc sc' : Scope}
    (hsc : sc.names = numbered ns) :
    ((results.zip ((List.range' ns.length results.length).map Value.ofIndex)).forM
        fun (name, v) => define name v).run sc = .ok ((), sc') ↔
      (ns ++ results).Nodup ∧ sc' = { sc with names := numbered (ns ++ results) } := by
  induction results generalizing ns sc with
  | nil =>
    rw [List.append_nil, ← hsc]
    exact run_pure_eq_ok_iff.trans (by simp [hns])
  | cons n results ih =>
    have hnext : ns ++ n :: results = (ns ++ [n]) ++ results := by simp
    rw [List.length_cons, List.range'_succ, List.map_cons, List.zip_cons_cons,
      List.forM_eq_forM, List.forM_cons, hnext]
    by_cases hn : n ∈ ns
    · have hrepeat : ¬ (ns ++ [n] ++ results).Nodup := fun h =>
        (nodup_concat_iff hns).1 (List.nodup_append.1 h).1 hn
      simp only [hrepeat, false_and, iff_false]
      intro hrun
      obtain ⟨u, t, hdefine, -⟩ := exists_of_run_bind hrun
      have hnew := (run_define_eq_ok_iff.1 hdefine).1
      rw [hsc, lookup_numbered_eq_none_iff hns] at hnew
      exact hnew hn
    · have hnew : sc.names.lookup n = none := by
        rw [hsc, lookup_numbered_eq_none_iff hns]
        exact hn
      have hns' : (ns ++ [n]).Nodup := (nodup_concat_iff hns).2 hn
      have hnames : ({ sc with names := numbered (ns ++ [n]) } : Scope).names = _ := rfl
      rw [run_bind_of_ok (run_define hnew), hsc, ← numbered_concat, ← List.forM_eq_forM,
        ← ih hns' hnames, List.length_append, List.length_singleton]

end GateIR.Text.Resolve

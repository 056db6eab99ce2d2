import GateIR.Circuit.Basic
import GateIR.Proofs.Action

/-!
# Looking values up

What the value table of a circuit says: which handles it holds (`Knows`), the type it gives each
(`HasType`), and when the look-ups of the model succeed or fail.
-/

namespace GateIR

namespace Circuit

variable {c : Circuit}

/-- The value is in the value table. -/
def Knows (c : Circuit) (v : Value) : Prop := v.index < c.table.size

instance (c : Circuit) : DecidablePred c.Knows := fun v => Nat.decLt v.index c.table.size

/-- The first value that is not in the value table. -/
def firstUnknown? (c : Circuit) (vs : List Value) : Option Value := vs.find? (¬ c.Knows ·)

/-- The value is in the value table, with the given type. -/
def HasType (c : Circuit) (v : Value) (t : Ty) : Prop := ∃ e, c.table[v.index]? = some e ∧ e.ty = t

instance (c : Circuit) (v : Value) (t : Ty) : Decidable (c.HasType v t) :=
  decidable_of_iff (c.table[v.index]?.map Entry.ty = some t) Option.map_eq_some_iff

theorem firstUnknown?_eq_none_iff {vs : List Value} :
    c.firstUnknown? vs = none ↔ ∀ v ∈ vs, c.Knows v := by
  simp [firstUnknown?]

theorem firstUnknown?_append (vs ws : List Value) :
    c.firstUnknown? (vs ++ ws) = (c.firstUnknown? vs).or (c.firstUnknown? ws) :=
  List.find?_append

theorem entry_eq_ok_iff {v : Value} {e : Entry} :
    c.entry v = .ok e ↔ c.table[v.index]? = some e := by
  unfold entry
  split <;> simp_all

theorem typeOf_eq_ok_iff {v : Value} {t : Ty} : c.typeOf v = .ok t ↔ c.HasType v t := by
  simp only [typeOf, HasType, ← entry_eq_ok_iff]
  cases c.entry v <;> simp [Functor.map, Except.map]

theorem entry_eq_error_iff {v : Value} {e : CircuitError} :
    c.entry v = .error e ↔ ¬ c.Knows v ∧ e = .unknownValue v := by
  unfold entry Knows
  cases h : c.table[v.index]? with
  | none =>
    have hv : ¬ v.index < c.table.size := by simpa using h
    simp [hv, eq_comm]
  | some t =>
    obtain ⟨hv, -⟩ := Array.getElem?_eq_some_iff.1 h
    simp [hv]

theorem typeOf_eq_error_iff {v : Value} {e : CircuitError} :
    c.typeOf v = .error e ↔ ¬ c.Knows v ∧ e = .unknownValue v := by
  rw [← entry_eq_error_iff, typeOf]
  cases c.entry v <;> simp [Functor.map, Except.map]

theorem knows_iff_hasType {v : Value} : c.Knows v ↔ ∃ t, c.HasType v t := by
  unfold Knows HasType
  constructor
  · exact fun h => ⟨_, _, Array.getElem?_eq_getElem h, rfl⟩
  · intro h
    rcases h with ⟨-, e, he, -⟩
    exact (Array.getElem?_eq_some_iff.1 he).1

theorem HasType.knows {v : Value} {t : Ty} (h : c.HasType v t) : c.Knows v :=
  knows_iff_hasType.2 ⟨t, h⟩

theorem typesOf_eq_ok_iff {vs : List Value} {ts : List Ty} :
    c.typesOf vs = .ok ts ↔ List.Forall₂ c.HasType vs ts := by
  simp only [typesOf, mapM_eq_ok_iff, typeOf_eq_ok_iff]

theorem typesOf_eq_error_iff {vs : List Value} {e : CircuitError} :
    c.typesOf vs = .error e ↔ ∃ v, c.firstUnknown? vs = some v ∧ e = .unknownValue v := by
  simp only [typesOf, firstUnknown?, mapM_eq_error_iff, typeOf_eq_error_iff, typeOf_eq_ok_iff,
    ← knows_iff_hasType]
  constructor
  · intro h
    rcases h with ⟨before, v, after, rfl, hb, hv, rfl⟩
    refine ⟨v, List.find?_eq_some_iff_append.2 ⟨by simpa using hv, before, after, rfl, ?_⟩, rfl⟩
    simpa using hb
  · intro h
    rcases h with ⟨v, hv, rfl⟩
    obtain ⟨hv, before, after, hvs, hb⟩ := List.find?_eq_some_iff_append.1 hv
    exact ⟨before, v, after, hvs, by simpa using hb, by simpa using hv, rfl⟩

theorem forall₂_replicate_iff {vs : List Value} {n : Nat} {t : Ty} :
    List.Forall₂ c.HasType vs (List.replicate n t) ↔
      vs.length = n ∧ ∀ v ∈ vs, c.HasType v t := by
  induction vs generalizing n with
  | nil => cases n <;> simp [List.replicate_succ]
  | cons v vs ih =>
    cases n with
    | zero => simp
    | succ n => simp [List.replicate_succ, ih, and_left_comm]

theorem forall₂_concat_iff {vs : List Value} {ts : List Ty} {v : Value} {t : Ty} :
    List.Forall₂ c.HasType (vs ++ [v]) (ts ++ [t]) ↔
      List.Forall₂ c.HasType vs ts ∧ c.HasType v t := by
  rw [← List.forall₂_reverse_iff]
  simp [List.forall₂_reverse_iff, and_comm]

theorem knows_of_forall₂ {vs : List Value} {ts : List Ty} (h : List.Forall₂ c.HasType vs ts) :
    ∀ v ∈ vs, c.Knows v := by
  induction h with
  | nil => simp
  | cons hv _ ih => exact List.forall_mem_cons.2 ⟨hv.knows, ih⟩

theorem exists_types_of_knows {vs : List Value} (h : ∀ v ∈ vs, c.Knows v) :
    ∃ ts, List.Forall₂ c.HasType vs ts := by
  induction vs with
  | nil => exact ⟨[], .nil⟩
  | cons v vs ih =>
    obtain ⟨hv, hvs⟩ := List.forall_mem_cons.1 h
    obtain ⟨t, ht⟩ := knows_iff_hasType.1 hv
    obtain ⟨ts, hts⟩ := ih hvs
    exact ⟨t :: ts, .cons ht hts⟩

end Circuit

end GateIR

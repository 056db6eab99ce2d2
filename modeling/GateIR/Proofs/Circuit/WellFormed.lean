import GateIR.Proofs.Circuit.Building

/-!
# The builder keeps circuits well formed

Three structures grow side by side: the arguments, the value table and the instructions.
`WellFormed` says how they fit each other.

**Theorem (`built_wellFormed`).** Every sequence of calls, with any handles and some of them
failing, builds a well-formed circuit, as long as it has no more values than there are handles.
Every instruction was added by one of the calls, which fixes the types of its results.

The invariant is kept by each kind of growth: a new handle is the size of the table, so it is new,
and its entry points at the end of the list that it is pushed to.
-/

namespace GateIR

theorem Value.index_ofIndex {n : Nat} (h : n < UInt32.size) : (Value.ofIndex n).index = n :=
  UInt32.toNat_ofNat_of_lt h

theorem Value.index_injective : Function.Injective Value.index := fun v w h => by
  cases v
  cases w
  exact congrArg _ (UInt32.toNat_inj.1 h)

namespace Circuit

variable {c : Circuit}

/-! ## The invariant -/

/-- The site defines the value. -/
def Defines (c : Circuit) (v : Value) : Site → Prop
  | .argument n => c.arguments[n]? = some v
  | .result k j => ∃ i, c.instructions[k]? = some i ∧ i.results[j]? = some v

/-- The values that are defined when instruction `k` comes. -/
def definedBefore (c : Circuit) (k : Nat) : List Value :=
  c.arguments.toList ++ (c.instructions.toList.take k).flatMap Instruction.results

/-- The arguments, the value table and the instructions fit each other. -/
structure WellFormed (c : Circuit) : Prop where
  /-- Every handle of the table is defined exactly once, and no other is. -/
  numbering : (c.definitions.map Value.index).Perm (List.range c.table.size)
  /-- The sites in the table are the sites that define the values. -/
  sites : ∀ v s, (∃ e, c.table[v.index]? = some e ∧ e.site = s) ↔ c.Defines v s
  /-- Operands are defined before they are used, and come before the results. -/
  scoping : ∀ k i, c.instructions[k]? = some i → ∀ v ∈ i.operands,
    v ∈ c.definedBefore k ∧ ∀ r ∈ i.results, v.index < r.index
  /-- Results have the types that their instruction fixes. -/
  typing : ∀ i ∈ c.instructions, ∃ types, i.Fixes types ∧ List.Forall₂ c.HasType i.results types

theorem WellFormed.mem_definitions_iff (h : c.WellFormed) {v : Value} :
    v ∈ c.definitions ↔ c.Knows v := by
  rw [← List.mem_map_of_injective Value.index_injective, h.numbering.mem_iff, List.mem_range]
  rfl

theorem WellFormed.nodup_definitions (h : c.WellFormed) : c.definitions.Nodup :=
  (h.numbering.nodup_iff.2 List.nodup_range).of_map _

theorem definedBefore_size (c : Circuit) : c.definedBefore c.instructions.size = c.definitions := by
  rw [definedBefore, definitions, ← Array.length_toList, List.take_length]

theorem wellFormed_empty : WellFormed {} where
  numbering := by simp [definitions]
  sites v s := by cases s <;> simp [Defines]
  scoping := by simp
  typing := by simp

/-! ## Arguments -/

theorem index_upcoming {j : Nat} (h : c.table.size + j < UInt32.size) :
    (c.upcoming j).index = c.table.size + j := Value.index_ofIndex h

theorem eq_upcoming_iff {v : Value} {j : Nat} (h : c.table.size + j < UInt32.size) :
    c.upcoming j = v ↔ v.index = c.table.size + j := by
  rw [← Value.index_injective.eq_iff, index_upcoming h, eq_comm]

theorem getElem?_table_withArgument (c : Circuit) (ty : Ty) (n : Nat) :
    (c.withArgument ty).table[n]? =
      if n = c.table.size then some ⟨ty, .argument c.arguments.size⟩ else c.table[n]? :=
  Array.getElem?_push

theorem defines_withArgument {ty : Ty} {v : Value} {s : Site} :
    (c.withArgument ty).Defines v s ↔
      c.Defines v s ∨ s = .argument c.arguments.size ∧ c.upcoming 0 = v := by
  cases s with
  | result k j => simp [Defines, withArgument]
  | argument n =>
    simp only [Defines, withArgument, Array.getElem?_push, Site.argument.injEq]
    split
    · next hn => simp [hn]
    · next hn => simp [hn]

theorem WellFormed.withArgument (h : c.WellFormed) (ty : Ty)
    (hsize : (c.withArgument ty).table.size ≤ UInt32.size) : (c.withArgument ty).WellFormed := by
  have hlt : c.table.size + 0 < UInt32.size := by simpa [Circuit.withArgument] using hsize
  have hgrows : Relation.ReflTransGen Grows c (c.withArgument ty) := .single (.argument ty)
  constructor
  · have hperm : ((c.arguments.toList ++ [c.upcoming 0] ++
        c.instructions.toList.flatMap Instruction.results).map Value.index).Perm
        (c.definitions.map Value.index ++ [c.table.size]) := by
      rw [definitions, List.append_assoc, List.map_append, List.map_append, List.map_append,
        List.append_assoc, List.map_singleton, index_upcoming hlt]
      exact (List.perm_append_comm).append_left _
    have hrange := hperm.trans (h.numbering.append_right [c.table.size])
    rw [← List.range_succ] at hrange
    simpa [Circuit.withArgument, definitions] using hrange
  · intro v s
    rw [getElem?_table_withArgument, defines_withArgument, eq_upcoming_iff hlt, ← h.sites]
    split
    · next hv => simp [hv, eq_comm]
    · next hv => simp [hv]
  · intro k i hi v hv
    obtain ⟨hdef, hlt⟩ := h.scoping k i hi v hv
    refine ⟨?_, hlt⟩
    simp only [definedBefore, Circuit.withArgument, Array.toList_push, List.mem_append] at hdef ⊢
    exact hdef.imp_left .inl
  · intro i hi
    obtain ⟨types, hfix, htypes⟩ := h.typing i hi
    exact ⟨types, hfix, htypes.imp fun _ _ ht => ht.of_grows hgrows⟩

/-! ## Instructions -/

theorem getElem?_table_withInstruction (c : Circuit) (i : Instruction) (types : List Ty) (n : Nat) :
    (c.withInstruction i types).table[n]? =
      if n < c.table.size then c.table[n]?
      else types[n - c.table.size]?.map (⟨·, .result c.instructions.size (n - c.table.size)⟩) := by
  simp [Circuit.withInstruction, Array.getElem?_append, resultEntries]

/-- The new entries point at the new instruction. -/
theorem exists_entry_withInstruction {i : Instruction} {types : List Ty} {n : Nat} {s : Site} :
    (∃ e, (c.withInstruction i types).table[n]? = some e ∧ e.site = s) ↔
      (∃ e, c.table[n]? = some e ∧ e.site = s) ∨
        ∃ j, s = .result c.instructions.size j ∧ j < types.length ∧ n = c.table.size + j := by
  rw [getElem?_table_withInstruction]
  split
  · next hn =>
    have hno : ∀ j, n ≠ c.table.size + j := fun j => by omega
    simp [hno]
  · next hn =>
    have hnone : c.table[n]? = none := Array.getElem?_eq_none (by omega)
    simp only [hnone, Option.map_eq_some_iff, List.getElem?_eq_some_iff]
    constructor
    · intro h
      rcases h with ⟨e, ⟨t, ⟨hj, -⟩, rfl⟩, rfl⟩
      exact .inr ⟨_, rfl, hj, by omega⟩
    · intro h
      rcases h with ⟨e, he, -⟩ | ⟨j, rfl, hj, hn'⟩
      · cases he
      · obtain rfl : n - c.table.size = j := by omega
        exact ⟨_, ⟨_, ⟨hj, rfl⟩, rfl⟩, rfl⟩

theorem defines_withInstruction {i : Instruction} {types : List Ty} {v : Value} {s : Site} :
    (c.withInstruction i types).Defines v s ↔
      c.Defines v s ∨ ∃ j, s = .result c.instructions.size j ∧ i.results[j]? = some v := by
  cases s with
  | argument n => simp [Defines, withInstruction]
  | result k j =>
    simp only [Defines, withInstruction, Array.getElem?_push, Site.result.injEq]
    split
    · next hk => simp [hk]
    · next hk => simp [hk]

theorem getElem?_fresh_eq_some_iff {n j : Nat} {v : Value} (h : c.table.size + n ≤ UInt32.size) :
    (c.fresh n)[j]? = some v ↔ j < n ∧ v.index = c.table.size + j := by
  rw [fresh, List.getElem?_map, Option.map_eq_some_iff]
  constructor
  · intro h
    rcases h with ⟨m, hm, hv⟩
    obtain ⟨hj, rfl⟩ := List.getElem?_eq_some_iff.1 hm
    simp only [List.length_range, List.getElem_range] at hj hv
    exact ⟨hj, (eq_upcoming_iff (by omega)).1 hv⟩
  · intro h
    rcases h with ⟨hj, hv⟩
    exact ⟨j, by simp [hj], (eq_upcoming_iff (by omega)).2 hv⟩

theorem map_index_fresh {n : Nat} (h : c.table.size + n ≤ UInt32.size) :
    (c.fresh n).map Value.index = (List.range n).map (c.table.size + ·) := by
  rw [fresh, List.map_map]
  refine List.map_congr_left fun j hj => index_upcoming ?_
  have := List.mem_range.1 hj
  omega

theorem forall₂_hasType_fresh {types : List Ty} (i : Instruction)
    (h : c.table.size + types.length ≤ UInt32.size) :
    List.Forall₂ (c.withInstruction i types).HasType (c.fresh types.length) types := by
  refine List.forall₂_iff_get.2 ⟨length_fresh c _, fun j hj ht => ?_⟩
  have hv := (getElem?_fresh_eq_some_iff h).1 (List.getElem?_eq_getElem hj)
  refine ⟨⟨types[j], .result c.instructions.size j⟩, ?_, rfl⟩
  rw [List.get_eq_getElem, getElem?_table_withInstruction, hv.2]
  simp [ht]

theorem definedBefore_withInstruction {i : Instruction} {types : List Ty} {k : Nat}
    (hk : k ≤ c.instructions.size) :
    (c.withInstruction i types).definedBefore k = c.definedBefore k := by
  have hk' : k ≤ c.instructions.toList.length := by simpa using hk
  rw [definedBefore, definedBefore, Circuit.withInstruction, Array.toList_push,
    List.take_append_of_le_length hk']

theorem WellFormed.withInstruction (h : c.WellFormed) {i : Instruction} {types : List Ty}
    (hres : i.results = c.fresh types.length) (hops : ∀ v ∈ i.operands, c.Knows v)
    (hfix : i.Fixes types) (hsize : (c.withInstruction i types).table.size ≤ UInt32.size) :
    (c.withInstruction i types).WellFormed := by
  have hlt : c.table.size + types.length ≤ UInt32.size := by
    simpa [Circuit.withInstruction] using hsize
  have hgrows : Relation.ReflTransGen Grows c (c.withInstruction i types) :=
    .single (.instruction hres hops hfix)
  constructor
  · have hperm := h.numbering.append_right ((List.range types.length).map (c.table.size + ·))
    rw [← List.range_add, ← map_index_fresh hlt, ← List.map_append, ← hres] at hperm
    simpa [Circuit.withInstruction, definitions] using hperm
  · intro v s
    rw [exists_entry_withInstruction, defines_withInstruction, ← h.sites, hres]
    simp only [getElem?_fresh_eq_some_iff hlt]
  · intro k i' hi' v hv
    rw [Circuit.withInstruction, Array.getElem?_push] at hi'
    split at hi'
    · next hk =>
      cases hi'
      rw [hk, definedBefore_withInstruction le_rfl, definedBefore_size, h.mem_definitions_iff]
      refine ⟨hops v hv, fun r hr => ?_⟩
      obtain ⟨j, hj⟩ := List.mem_iff_getElem?.1 (hres ▸ hr)
      have hr' := ((getElem?_fresh_eq_some_iff hlt).1 hj).2
      have hv' : v.index < c.table.size := hops v hv
      omega
    · rw [definedBefore_withInstruction (Array.getElem?_eq_some_iff.1 hi').1.le]
      exact h.scoping k i' hi' v hv
  · intro i' hi'
    rcases Array.mem_push.1 hi' with hi' | rfl
    · obtain ⟨types', hfix', htypes⟩ := h.typing i' hi'
      exact ⟨types', hfix', htypes.imp fun _ _ ht => ht.of_grows hgrows⟩
    · exact ⟨types, hfix, hres ▸ forall₂_hasType_fresh _ hlt⟩

/-! ## Built circuits -/

theorem Grows.wellFormed {d : Circuit} (hd : Grows c d) (hsize : d.table.size ≤ UInt32.size)
    (h : c.WellFormed) : d.WellFormed := by
  cases hd with
  | argument ty => exact h.withArgument ty hsize
  | instruction hres hops hfix => exact h.withInstruction hres hops hfix hsize

theorem wellFormed_of_grows {d : Circuit} (h : Relation.ReflTransGen Grows {} d)
    (hsize : d.table.size ≤ UInt32.size) : d.WellFormed := by
  induction h with
  | refl => exact wellFormed_empty
  | tail _ hd ih =>
    have hle := size_le_of_grows (.single hd)
    exact hd.wellFormed hsize (ih (hle.trans hsize))

/-- The call asks for the instruction, and the table gives its results the types that the call
fixes: for a composition the declared type, or the type of the first gate. -/
inductive Records (c : Circuit) : Call → Instruction → Prop
  | constant {g : Gate} {out : Value} :
      c.HasType out (.gate g.arity) → Records c (.constant g) (.constant g out)
  | quaternion {real i j k out : Value} :
      c.HasType out (.gate 1) →
      Records c (.quaternion real i j k) (.quaternion real i j k out)
  | composeAs {lhs rhs out : Value} {ty : Ty} :
      c.HasType out ty → Records c (.composeAs lhs rhs ty) (.compose lhs rhs out)
  | compose {lhs rhs out : Value} {ty : Ty} :
      c.HasType lhs ty → c.HasType out ty → Records c (.compose lhs rhs) (.compose lhs rhs out)
  | xzs {x z phase out : Value} :
      c.HasType out (.gate 1) → Records c (.xzs x z phase) (.xzs x z phase out)
  | qrefGate {a : Attribute} {ins : List Value} : Records c (.qrefGate a ins) (.qrefGate a ins)
  | qrefDynGate {gate : Value} {ins : List Value} :
      Records c (.qrefDynGate gate ins) (.qrefDynGate ins gate)
  | qrefMeasure {qubit out : Value} :
      c.HasType out .bool → Records c (.qrefMeasure qubit) (.qrefMeasure qubit out)
  | qssaGate {a : Attribute} {ins outs : List Value} :
      outs.length = ins.length → (∀ q ∈ outs, c.HasType q .qubit) →
      Records c (.qssaGate a ins) (.qssaGate a ins outs)
  | qssaMeasure {qubit out outQubit : Value} :
      c.HasType out .bool → c.HasType outQubit .qubit →
      Records c (.qssaMeasure qubit) (.qssaMeasure qubit out outQubit)

/-- What a call adds to a circuit is on record in every circuit that grows out of it. -/
theorem records_of_added? {d : Circuit} {call : Call} {i : Instruction} {types : List Ty}
    (h : call.added? c = some (i, types)) (hd : Relation.ReflTransGen Grows c d)
    (htypes : List.Forall₂ d.HasType i.results types) : d.Records call i := by
  cases call with
  | argument ty => cases h
  | qubits n => cases h
  | compose lhs rhs =>
    obtain ⟨ty, hty, hi⟩ := Option.map_eq_some_iff.1 h
    cases hi
    have hlhs : c.typeOf lhs = .ok ty := by
      cases hc : c.typeOf lhs <;> simp_all [Except.toOption]
    cases htypes with
    | cons hout _ => exact .compose ((typeOf_eq_ok_iff.1 hlhs).of_grows hd) hout
  | qssaGate gate ins =>
    cases h
    obtain ⟨hlength, hqubits⟩ := forall₂_replicate_iff.1 htypes
    exact .qssaGate hlength hqubits
  | qssaMeasure qubit =>
    cases h
    obtain ⟨hout, hqubit⟩ := List.forall₂_cons.1 htypes
    exact .qssaMeasure hout (List.forall₂_cons.1 hqubit).1
  | constant gate =>
    cases h
    exact .constant (List.forall₂_cons.1 htypes).1
  | quaternion real i j k =>
    cases h
    exact .quaternion (List.forall₂_cons.1 htypes).1
  | composeAs lhs rhs ty =>
    cases h
    exact .composeAs (List.forall₂_cons.1 htypes).1
  | xzs x z phase =>
    cases h
    exact .xzs (List.forall₂_cons.1 htypes).1
  | qrefGate gate ins =>
    cases h
    exact .qrefGate
  | qrefDynGate gate ins =>
    cases h
    exact .qrefDynGate
  | qrefMeasure qubit =>
    cases h
    exact .qrefMeasure (List.forall₂_cons.1 htypes).1

theorem instructions_foldl_withArgument (types : List Ty) (c : Circuit) :
    (types.foldl withArgument c).instructions = c.instructions := by
  induction types generalizing c with
  | nil => rfl
  | cons ty types ih => exact ih _

theorem instructions_action (c : Circuit) (call : Call) :
    (outcome call.action c).2.instructions = c.instructions ∨
      ∃ i types, call.added? c = some (i, types) ∧
        (outcome call.action c).2 = c.withInstruction i types := by
  rcases call.action_cases c with h | ⟨-, h⟩
  · rw [h]
    exact .inl rfl
  · rw [h, Call.grow]
    split
    · next i types hi => exact .inr ⟨i, types, hi, rfl⟩
    · exact .inl (instructions_foldl_withArgument _ c)

/-- Every instruction was added by a call. -/
theorem exists_call_of_instruction {calls : List Call} {k : Nat} {i : Instruction}
    (h : (built calls).instructions[k]? = some i) :
    ∃ before call after types, calls = before ++ call :: after ∧
      call.added? (built before) = some (i, types) ∧ (built before).instructions.size = k ∧
      built (before ++ [call]) = (built before).withInstruction i types := by
  induction calls using List.reverseRecOn with
  | nil => simp [built] at h
  | append_singleton calls call ih =>
    have hold (h : (built calls).instructions[k]? = some i) : ∃ before call' after types,
        calls ++ [call] = before ++ call' :: after ∧
        call'.added? (built before) = some (i, types) ∧ (built before).instructions.size = k ∧
        built (before ++ [call']) = (built before).withInstruction i types := by
      obtain ⟨before, call', after, types, rfl, hrest⟩ := ih h
      exact ⟨before, call', after ++ [call], types, by simp, hrest⟩
    rw [built_concat] at h
    rcases instructions_action (built calls) call with hc | ⟨i', types, hi', hc⟩
    · exact hold (hc ▸ h)
    · rw [hc, withInstruction, Array.getElem?_push] at h
      split at h
      · next hk =>
        cases h
        exact ⟨calls, call, [], types, rfl, hi', hk.symm, by rw [built_concat, hc]⟩
      · exact hold h

theorem wellFormed_built {calls : List Call} (hsize : (built calls).table.size ≤ UInt32.size) :
    (built calls).WellFormed := wellFormed_of_grows (grows_built calls) hsize

/-- **The builder keeps circuits well formed**, and the table gives the results of every instruction
the types that its call fixes. -/
theorem built_wellFormed (calls : List Call) (hsize : (built calls).table.size ≤ UInt32.size) :
    (built calls).WellFormed ∧
      ∀ k i, (built calls).instructions[k]? = some i →
        ∃ before call after, calls = before ++ call :: after ∧
          (built before).instructions.size = k ∧
          (built (before ++ [call])).instructions.size = k + 1 ∧
          (built calls).Records call i := by
  refine ⟨wellFormed_built hsize, fun k i hi => ?_⟩
  obtain ⟨before, call, after, types, rfl, hadded, hk, hnext⟩ := exists_call_of_instruction hi
  have hgrows := grows_built_append before (call :: after)
  have hgrows' : Relation.ReflTransGen Grows ((built before).withInstruction i types)
      (built (before ++ call :: after)) := by
    have h := grows_built_append (before ++ [call]) after
    rwa [hnext, List.append_assoc, List.singleton_append] at h
  have hlt : (built before).table.size + types.length ≤ UInt32.size := by
    have := (size_le_of_grows hgrows').trans hsize
    simpa [withInstruction] using this
  have htypes : List.Forall₂ (built (before ++ call :: after)).HasType i.results types := by
    rw [(Call.spec_of_added? hadded).2.1]
    exact (forall₂_hasType_fresh i hlt).imp fun _ _ ht => ht.of_grows hgrows'
  refine ⟨before, call, after, rfl, hk, ?_, records_of_added? hadded hgrows htypes⟩
  rw [hnext, withInstruction, Array.size_push, hk]

theorem built_wellFormed_entangled :
    (built [.qubits 2, .qssaGate (.gate .cnot) [.ofIndex 0, .ofIndex 1],
        .qrefMeasure (.ofIndex 9)]).table.size ≤ UInt32.size ∧
      (built [.qubits 2, .qssaGate (.gate .cnot) [.ofIndex 0, .ofIndex 1],
        .qrefMeasure (.ofIndex 9)]).WellFormed :=
  ⟨by decide, (built_wellFormed _ (by decide)).1⟩

end Circuit

end GateIR

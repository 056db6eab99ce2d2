import GateIR.Proofs.Circuit.WellFormed

/-!
# Renumbering a circuit

`Circuit.renumber` gives every value its position in definition order, the arguments first and then
the results of each instruction, and sorts the value table accordingly. The types and the defining
sites of the values stay as they are.

**Theorem (`renumber_eq_self`).** A circuit whose values are already in definition order is its own
renumbering.

**Stages.** A renumbered circuit grows out of the empty one in definition order: `stage` is the part
of it with the given arguments and instructions, and one more of either is one step of the builder
(`withArgument_stage`, `withInstruction_stage`).
-/

namespace GateIR

/-- The instruction with every handle replaced. -/
def Instruction.rename (f : Value → Value) : Instruction → Instruction
  | constant gate out => .constant gate (f out)
  | quaternion real i j k out => .quaternion (f real) (f i) (f j) (f k) (f out)
  | compose lhs rhs out => .compose (f lhs) (f rhs) (f out)
  | xzs x z phase out => .xzs (f x) (f z) (f phase) (f out)
  | qrefGate gate ins => .qrefGate gate (ins.map f)
  | qrefDynGate ins gate => .qrefDynGate (ins.map f) (f gate)
  | qrefMeasure qubit out => .qrefMeasure (f qubit) (f out)
  | qssaGate gate ins outs => .qssaGate gate (ins.map f) (outs.map f)
  | qssaMeasure qubit out outQubit => .qssaMeasure (f qubit) (f out) (f outQubit)

@[simp] theorem Instruction.operands_rename (f : Value → Value) (i : Instruction) :
    (i.rename f).operands = i.operands.map f := by
  cases i <;> simp [rename, operands]

@[simp] theorem Instruction.results_rename (f : Value → Value) (i : Instruction) :
    (i.rename f).results = i.results.map f := by
  cases i <;> simp [rename, results]

/-- Only the values of the instruction matter. -/
theorem Instruction.rename_eq_self {f : Value → Value} {i : Instruction}
    (h : ∀ v ∈ i.operands ++ i.results, f v = v) : i.rename f = i := by
  have hmap {vs : List Value} (hvs : ∀ v ∈ vs, f v = v) : vs.map f = vs :=
    (List.map_congr_left hvs).trans (List.map_id vs)
  cases i <;> simp_all [rename, operands, results]

namespace Circuit

variable {c : Circuit}

/-! ## Renumbering -/

/-- The handle of the position of a value in definition order. -/
def renamed (c : Circuit) (v : Value) : Value := .ofIndex (c.definitions.idxOf v)

/-- The table entries of several values. -/
def entries (c : Circuit) (vs : List Value) : List Entry := vs.filterMap fun v => c.table[v.index]?

/-- The circuit with every handle replaced by its position in definition order. -/
def renumber (c : Circuit) : Circuit where
  arguments := c.arguments.map c.renamed
  table := (c.entries c.definitions).toArray
  instructions := c.instructions.map (·.rename c.renamed)

/-- The type of a value that is in the table. -/
def tyOf (c : Circuit) (v : Value) : Ty := (c.typeOf v).toOption.getD .qubit

theorem HasType.tyOf_eq {v : Value} {t : Ty} (h : c.HasType v t) : c.tyOf v = t := by
  rw [tyOf, typeOf_eq_ok_iff.2 h]
  rfl

theorem hasType_tyOf {v : Value} (h : c.Knows v) : c.HasType v (c.tyOf v) := by
  obtain ⟨t, ht⟩ := knows_iff_hasType.1 h
  exact ht.tyOf_eq.symm ▸ ht

theorem entries_append (vs ws : List Value) :
    c.entries (vs ++ ws) = c.entries vs ++ c.entries ws := List.filterMap_append

theorem length_entries {vs : List Value} (h : ∀ v ∈ vs, c.Knows v) :
    (c.entries vs).length = vs.length := by
  induction vs with
  | nil => rfl
  | cons v vs ih =>
    obtain ⟨hv, hvs⟩ := List.forall_mem_cons.1 h
    rw [entries, List.filterMap_cons, Array.getElem?_eq_getElem hv, List.length_cons,
      List.length_cons, ← ih hvs]
    rfl

theorem getElem?_entries {vs : List Value} (h : ∀ v ∈ vs, c.Knows v) {j : Nat} {v : Value}
    (hv : vs[j]? = some v) : (c.entries vs)[j]? = c.table[v.index]? := by
  induction vs generalizing j with
  | nil => simp at hv
  | cons w vs ih =>
    obtain ⟨hw, hvs⟩ := List.forall_mem_cons.1 h
    rw [entries, List.filterMap_cons, Array.getElem?_eq_getElem hw]
    cases j with
    | zero =>
      obtain rfl : w = v := Option.some.inj hv
      exact (Array.getElem?_eq_getElem hw).symm
    | succ j => exact ih hvs hv

/-! ## Definition order -/

/-- The handles of the circuit count its values in definition order. -/
def InOrder (c : Circuit) : Prop := c.definitions.map Value.index = List.range c.table.size

theorem ofIndex_index (v : Value) : Value.ofIndex v.index = v :=
  congrArg Value.mk UInt32.ofNat_toNat

theorem InOrder.renamed_eq (h : c.InOrder) {v : Value} (hv : v ∈ c.definitions) :
    c.renamed v = v := by
  have hlt := List.idxOf_lt_length_of_mem hv
  have hindex : (c.definitions.map Value.index)[c.definitions.idxOf v]? = some v.index := by
    rw [List.getElem?_map, List.getElem?_eq_getElem hlt, List.getElem_idxOf, Option.map_some]
  rw [h] at hindex
  obtain ⟨_, hindex⟩ := List.getElem?_eq_some_iff.1 hindex
  rw [List.getElem_range] at hindex
  rw [renamed, hindex, ofIndex_index]

theorem filterMap_range_getElem? {α : Type} (xs : List α) :
    (List.range xs.length).filterMap (xs[·]?) = xs := by
  induction xs with
  | nil => rfl
  | cons x xs ih =>
    rw [List.length_cons, List.range_succ_eq_map, List.filterMap_cons, List.getElem?_cons_zero,
      List.filterMap_map]
    exact congrArg (x :: ·) ih

theorem mem_definitions_of_definedBefore {k : Nat} {v : Value} (hv : v ∈ c.definedBefore k) :
    v ∈ c.definitions := by
  rcases List.mem_append.1 hv with hv | hv
  · exact List.mem_append_left _ hv
  · exact List.mem_append_right _ ((List.take_sublist k _).flatMap _ |>.subset hv)

/-- Definition order is the order of the table. -/
theorem renumber_eq_self (h : c.InOrder) (hwf : c.WellFormed) : c.renumber = c := by
  have harguments : c.arguments.map c.renamed = c.arguments := by
    refine (Array.map_congr_left fun v hv => h.renamed_eq ?_).trans (Array.map_id _)
    exact List.mem_append_left _ (Array.mem_toList_iff.2 hv)
  have hinstructions : c.instructions.map (·.rename c.renamed) = c.instructions := by
    refine (Array.map_congr_left fun i hi => ?_).trans (Array.map_id _)
    obtain ⟨k, hk⟩ := Array.mem_iff_getElem?.1 hi
    refine Instruction.rename_eq_self fun v hv => h.renamed_eq ?_
    rcases List.mem_append.1 hv with hv | hv
    · exact mem_definitions_of_definedBefore (hwf.scoping k i hk v hv).1
    · exact List.mem_append_right _ (List.mem_flatMap.2 ⟨i, Array.mem_toList_iff.2 hi, hv⟩)
  have htable : (c.entries c.definitions).toArray = c.table := by
    have hentries : c.entries c.definitions =
        (c.definitions.map Value.index).filterMap (c.table.toList[·]?) := by
      rw [List.filterMap_map, entries]
      simp only [Function.comp_def, Array.getElem?_toList]
    rw [hentries, h, ← Array.length_toList, filterMap_range_getElem?, Array.toArray_toList]
  unfold renumber
  rw [harguments, hinstructions, htable]

/-! ## Stages -/

/-- The part of the renumbered circuit with the given arguments and instructions. -/
def stage (c : Circuit) (vs : List Value) (is : List Instruction) : Circuit where
  arguments := (vs.map c.renamed).toArray
  table := (c.entries (vs ++ is.flatMap Instruction.results)).toArray
  instructions := (is.map (·.rename c.renamed)).toArray

theorem stage_all (c : Circuit) :
    c.stage c.arguments.toList c.instructions.toList = c.renumber := by
  simp [stage, renumber, definitions, ← Array.toList_inj]

variable {vs : List Value} {is : List Instruction}

theorem size_table_stage (h : ∀ v ∈ vs ++ is.flatMap Instruction.results, c.Knows v) :
    (c.stage vs is).table.size = (vs ++ is.flatMap Instruction.results).length :=
  length_entries h

/-- The new handles of consecutive values are consecutive. -/
theorem map_renamed (hwf : c.WellFormed) {before ws after : List Value}
    (h : c.definitions = before ++ (ws ++ after)) :
    ws.map c.renamed = (List.range ws.length).map fun j => .ofIndex (before.length + j) := by
  refine List.ext_getElem (by simp) fun j hj _ => ?_
  have hj' : j < ws.length := by simpa using hj
  have hlt : before.length + j < c.definitions.length := by
    rw [h, List.length_append, List.length_append]
    omega
  have hget : c.definitions[before.length + j] = ws[j] := by
    simp [h, hj']
  have hidx := hwf.nodup_definitions.idxOf_getElem _ hlt
  rw [hget] at hidx
  simp [renamed, hidx]

theorem entries_eq_mapIdx {ws : List Value} {f : Nat → Value → Entry}
    (h : ∀ j v, ws[j]? = some v → c.table[v.index]? = some (f j v)) :
    c.entries ws = ws.mapIdx f := by
  induction ws generalizing f with
  | nil => rfl
  | cons w ws ih =>
    rw [entries, List.filterMap_cons, h 0 w rfl, List.mapIdx_cons]
    exact congrArg (f 0 w :: ·) (ih fun j v hv => h (j + 1) v hv)

/-- The entry of a value, by its defining site. -/
theorem WellFormed.entry_of_defines (hwf : c.WellFormed) {v : Value} {s : Site}
    (h : c.Defines v s) : c.table[v.index]? = some ⟨c.tyOf v, s⟩ := by
  obtain ⟨⟨t, s'⟩, he, rfl⟩ := (hwf.sites v s).2 h
  have ht : c.HasType v t := ⟨_, he, rfl⟩
  rw [he, ht.tyOf_eq]

/-- The next argument is the next handle of the stage. -/
theorem upcoming_stage (hwf : c.WellFormed) {v : Value} {more : List Value}
    (h : c.arguments.toList = vs ++ v :: more) : (c.stage vs []).upcoming 0 = c.renamed v := by
  have hdefinitions : c.definitions =
      vs ++ ([v] ++ (more ++ c.instructions.toList.flatMap Instruction.results)) := by
    simp [definitions, h]
  have hknown : ∀ w ∈ vs, c.Knows w := fun w hw => by
    rw [← hwf.mem_definitions_iff, hdefinitions]
    exact List.mem_append_left _ hw
  have hrenamed := map_renamed hwf hdefinitions
  rw [upcoming, size_table_stage (by simpa using hknown)]
  simpa using hrenamed.symm

/-- One more argument. -/
theorem withArgument_stage (hwf : c.WellFormed) {v : Value} {more : List Value}
    (h : c.arguments.toList = vs ++ v :: more) :
    (c.stage vs []).withArgument (c.tyOf v) = c.stage (vs ++ [v]) [] := by
  have hentry : c.table[v.index]? = some ⟨c.tyOf v, .argument vs.length⟩ := by
    refine hwf.entry_of_defines ?_
    rw [Defines, ← Array.getElem?_toList, h]
    simp
  unfold withArgument
  rw [upcoming_stage hwf h]
  simp [stage, entries, hentry]

theorem getElem?_of_split {i : Instruction} {more : List Instruction}
    (h : c.instructions.toList = is ++ i :: more) : c.instructions[is.length]? = some i := by
  rw [← Array.getElem?_toList, h]
  simp

/-- One more instruction. -/
theorem withInstruction_stage (hwf : c.WellFormed) {i : Instruction} {more : List Instruction}
    (h : c.instructions.toList = is ++ i :: more) :
    (c.stage c.arguments.toList is).withInstruction (i.rename c.renamed) (i.results.map c.tyOf) =
      c.stage c.arguments.toList (is ++ [i]) := by
  have hentries : c.entries i.results = i.results.mapIdx fun j v =>
      ⟨c.tyOf v, .result is.length j⟩ := by
    refine entries_eq_mapIdx fun j v hv => ?_
    exact hwf.entry_of_defines ⟨i, getElem?_of_split h, hv⟩
  have hresults : (c.stage c.arguments.toList is).resultEntries (i.results.map c.tyOf) =
      c.entries i.results := by
    rw [hentries]
    refine List.ext_getElem? fun j => ?_
    simp [resultEntries, stage, Function.comp_def]
  unfold withInstruction
  rw [hresults]
  simp [stage, entries_append, ← List.append_assoc]

theorem definitions_split {i : Instruction} {more : List Instruction}
    (h : c.instructions.toList = is ++ i :: more) :
    c.definitions = (c.arguments.toList ++ is.flatMap Instruction.results) ++
      (i.results ++ more.flatMap Instruction.results) := by
  simp [definitions, h]

theorem WellFormed.knows_of_split (hwf : c.WellFormed) {before after : List Value}
    (h : c.definitions = before ++ after) : ∀ v ∈ before, c.Knows v := fun v hv => by
  rw [← hwf.mem_definitions_iff, h]
  exact List.mem_append_left _ hv

/-- The results of the next instruction are the next handles of the stage. -/
theorem map_renamed_results (hwf : c.WellFormed) {i : Instruction} {more : List Instruction}
    (h : c.instructions.toList = is ++ i :: more) :
    i.results.map c.renamed = (c.stage c.arguments.toList is).fresh i.results.length := by
  have hsplit := definitions_split h
  rw [map_renamed hwf hsplit, fresh, ← size_table_stage (hwf.knows_of_split hsplit)]
  rfl

theorem WellFormed.length_definitions (hwf : c.WellFormed) :
    c.definitions.length = c.table.size := by
  simpa using hwf.numbering.length_eq

theorem WellFormed.index_renamed (hwf : c.WellFormed) (hsize : c.table.size ≤ UInt32.size)
    {v : Value} (hv : v ∈ c.definitions) : (c.renamed v).index = c.definitions.idxOf v := by
  have hlt := List.idxOf_lt_length_of_mem hv
  rw [hwf.length_definitions] at hlt
  exact Value.index_ofIndex (by omega)

/-- A value keeps its table entry under its new handle. -/
theorem getElem?_table_stage (hwf : c.WellFormed) (hsize : c.table.size ≤ UInt32.size)
    {after : List Value} (h : c.definitions = (vs ++ is.flatMap Instruction.results) ++ after)
    {v : Value} (hv : v ∈ vs ++ is.flatMap Instruction.results) :
    (c.stage vs is).table[(c.renamed v).index]? = c.table[v.index]? := by
  have hmem : v ∈ c.definitions := h ▸ List.mem_append_left _ hv
  have hidx : c.definitions.idxOf v = (vs ++ is.flatMap Instruction.results).idxOf v := by
    rw [h, List.idxOf_append_of_mem hv]
  have hget : (vs ++ is.flatMap Instruction.results)[c.definitions.idxOf v]? = some v := by
    rw [hidx, List.getElem?_eq_getElem (List.idxOf_lt_length_of_mem hv), List.getElem_idxOf]
  rw [hwf.index_renamed hsize hmem, stage, List.getElem?_toArray,
    getElem?_entries (hwf.knows_of_split h) hget]

theorem hasType_stage (hwf : c.WellFormed) (hsize : c.table.size ≤ UInt32.size)
    {after : List Value} (h : c.definitions = (vs ++ is.flatMap Instruction.results) ++ after)
    {v : Value} (hv : v ∈ vs ++ is.flatMap Instruction.results) :
    (c.stage vs is).HasType (c.renamed v) (c.tyOf v) := by
  obtain ⟨e, he, ht⟩ := hasType_tyOf (hwf.knows_of_split h v hv)
  exact ⟨e, (getElem?_table_stage hwf hsize h hv).trans he, ht⟩

/-- Renumbering moves every table entry to the new handle of its value. -/
theorem getElem?_table_renumber (hwf : c.WellFormed) (hsize : c.table.size ≤ UInt32.size)
    {v : Value} (hv : v ∈ c.definitions) :
    c.renumber.table[(c.renamed v).index]? = c.table[v.index]? := by
  rw [← stage_all]
  exact getElem?_table_stage hwf hsize (List.append_nil _).symm hv

/-! ## Arguments first -/

/-- An argument keeps the order as long as there is no instruction; an instruction always does. -/
theorem Grows.inOrder {d : Circuit} (hd : Grows c d) (hsize : d.table.size ≤ UInt32.size)
    (hfirst : d.instructions = #[] ∨ d.arguments = c.arguments) (h : c.InOrder) : d.InOrder := by
  cases hd with
  | argument ty =>
    have hempty : c.instructions = #[] := hfirst.resolve_right fun heq => by
      have := congrArg Array.size heq
      simp [withArgument] at this
    have hlt : c.table.size + 0 < UInt32.size := by simpa [withArgument] using hsize
    have hnext := index_upcoming hlt
    simp only [InOrder, definitions, hempty] at h
    simp only [InOrder, definitions, withArgument, hempty, Array.size_push, List.range_succ, ← h]
    simp [hnext]
  | @instruction i types hres hops hfix =>
    have hlt : c.table.size + types.length ≤ UInt32.size := by
      simpa [withInstruction] using hsize
    have hindex := map_index_fresh hlt
    have hrange : List.range (c.table.size + types.length) = _ := List.range_add
    simp only [InOrder, definitions] at h
    simp [InOrder, definitions, withInstruction, hres, hindex, hrange, ← h]

theorem inOrder_of_grows {d : Circuit} (h : Relation.ReflTransGen Grows c d)
    (hsize : d.table.size ≤ UInt32.size)
    (hfirst : d.instructions = #[] ∨ d.arguments = c.arguments) (hc : c.InOrder) : d.InOrder := by
  induction h with
  | refl => exact hc
  | @tail d e hcd hde ih =>
    obtain ⟨hargs, -, hinstrs⟩ := hde.prefixes
    obtain ⟨hargs', -, -⟩ := prefixes_of_grows hcd
    have hle := size_le_of_grows (.single hde)
    have hlengths := hargs.length_le
    have hlengths' := hargs'.length_le
    rcases hfirst with hempty | hsame
    · have hd : d.instructions = #[] := by
        have := hinstrs.length_le
        rw [hempty] at this
        exact Array.eq_empty_of_size_eq_zero (by simpa using this)
      exact hde.inOrder hsize (.inl hempty) (ih (hle.trans hsize) (.inl hd))
    · have hd : d.arguments = c.arguments := by
        rw [hsame] at hargs hlengths
        exact (Array.toList_inj.1 (hargs'.eq_of_length_le hlengths)).symm
      exact hde.inOrder hsize (.inr (hsame.trans hd.symm)) (ih (hle.trans hsize) (.inr hd))

/-- All arguments are added before the first instruction. -/
def ArgumentsFirst (calls : List Call) : Prop :=
  ∃ before after, calls = before ++ after ∧ (built before).instructions = #[] ∧
    (built calls).arguments = (built before).arguments

theorem inOrder_built {calls : List Call} (hsize : (built calls).table.size ≤ UInt32.size)
    (h : ArgumentsFirst calls) : (built calls).InOrder := by
  obtain ⟨before, after, rfl, hempty, hsame⟩ := h
  have hgrows := grows_built_append before after
  have hle := size_le_of_grows hgrows
  refine inOrder_of_grows hgrows hsize (.inr hsame) ?_
  exact inOrder_of_grows (grows_built before) (hle.trans hsize) (.inl hempty) rfl

end Circuit

end GateIR

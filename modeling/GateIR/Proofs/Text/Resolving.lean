import GateIR.Proofs.Text.Naming
import GateIR.Proofs.Text.Scope

/-!
# Resolving a printed circuit

Resolving the program of a well-formed circuit builds its renumbering, value by value in definition
order. The scope after some arguments and instructions (`scopeFor`) holds that stage of the
renumbered circuit and the names of its values.

**Theorem (`toCircuit_programFor`).** The program of a well-formed circuit resolves to the
renumbered circuit when the operands of every quaternion share one type.

**Theorem (`sharesType_of_toCircuit`).** It does not resolve otherwise.

A quaternion is printed with the type of its first operand only, which is then compared with all
four. The types in every other annotation are looked up value by value, so they always agree.
-/

namespace GateIR

open Text (Resolve Scope Error Program)

namespace Circuit

open Text.Resolve

variable {c : Circuit} {namePrefix : String}

/-! ## Names in scope -/

/-- The names of values that are defined in the given order, the last one first. -/
def scopeNames (c : Circuit) (namePrefix : String) (vs : List Value) : List (String × Value) :=
  (vs.map fun v => (c.nameIn namePrefix v, c.renamed v)).reverse

theorem scopeNames_concat (vs : List Value) (v : Value) :
    c.scopeNames namePrefix (vs ++ [v]) =
      (c.nameIn namePrefix v, c.renamed v) :: c.scopeNames namePrefix vs := by
  simp [scopeNames]

theorem nameIn_inj {v w : Value} (hv : v ∈ c.definitions)
    (h : c.nameIn namePrefix v = c.nameIn namePrefix w) : v = w := by
  have htext := congrArg String.toList h
  simp only [nameIn, String.toList_append, Nat.toList_repr, List.append_cancel_left_eq] at htext
  have hidx := congrArg Text.digitsValue htext
  rw [show Nat.toDigits 10 = decimalDigits from rfl] at hidx
  rw [Text.digitsValue_decimalDigits, Text.digitsValue_decimalDigits] at hidx
  exact (List.idxOf_inj hv).1 hidx

theorem lookup_scopeNames {vs : List Value} (hvs : ∀ v ∈ vs, v ∈ c.definitions) {v : Value} :
    (c.scopeNames namePrefix vs).lookup (c.nameIn namePrefix v) =
      if v ∈ vs then some (c.renamed v) else none := by
  induction vs using List.reverseRecOn with
  | nil => rfl
  | append_singleton vs w ih =>
    obtain ⟨hvs, hw⟩ := List.forall_mem_append.1 hvs
    rw [scopeNames_concat, List.lookup_cons, ih hvs]
    by_cases h : v = w
    · simp [h]
    · have hne : c.nameIn namePrefix v ≠ c.nameIn namePrefix w := fun heq =>
        h (nameIn_inj (by simpa using hw) heq.symm).symm
      rw [beq_eq_false_iff_ne.2 hne]
      simp [h]

/-- The scope after the given arguments and instructions. -/
def scopeFor (c : Circuit) (namePrefix : String) (vs : List Value) (is : List Instruction) :
    Scope where
  circuit := c.stage vs is
  names := c.scopeNames namePrefix (vs ++ is.flatMap Instruction.results)

/-- Naming the next value of the circuit. -/
theorem run_define_next (hwf : c.WellFormed) {before after : List Value} {v : Value}
    (h : c.definitions = before ++ v :: after) {s : Scope}
    (hs : s.names = c.scopeNames namePrefix before) :
    (define (c.nameIn namePrefix v) (c.renamed v)).run s =
      .ok ((), { s with names := c.scopeNames namePrefix (before ++ [v]) }) := by
  have hmem : ∀ w ∈ before, w ∈ c.definitions := fun w hw => h ▸ List.mem_append_left _ hw
  have hnew : v ∉ before := fun hv => by
    have hnodup := h ▸ hwf.nodup_definitions
    exact (List.nodup_append.1 hnodup).2.2 v hv v (by simp) rfl
  have hfree : s.names.lookup (c.nameIn namePrefix v) = none := by
    rw [hs, lookup_scopeNames hmem, if_neg hnew]
  rw [run_define hfree, hs, scopeNames_concat]

theorem run_forM_define (hwf : c.WellFormed) {before ws after : List Value}
    (h : c.definitions = before ++ (ws ++ after)) {s : Scope}
    (hs : s.names = c.scopeNames namePrefix before) :
    (((ws.map (c.nameIn namePrefix)).zip (ws.map c.renamed)).forM
        fun (name, v) => define name v).run s =
      .ok ((), { s with names := c.scopeNames namePrefix (before ++ ws) }) := by
  induction ws generalizing before s with
  | nil =>
    rw [List.append_nil, ← hs]
    rfl
  | cons w ws ih =>
    have hdefinitions : c.definitions = (before ++ [w]) ++ (ws ++ after) := by simp [h]
    rw [List.map_cons, List.map_cons, List.zip_cons_cons, List.forM_eq_forM, List.forM_cons,
      run_bind_of_ok (run_define_next hwf h hs), ← List.forM_eq_forM, ih hdefinitions rfl]
    simp

/-! ## Arguments -/

theorem run_argument (hwf : c.WellFormed) {vs more : List Value} {v : Value}
    (h : c.arguments.toList = vs ++ v :: more) :
    (argument ⟨c.nameIn namePrefix v, c.tyOf v⟩).run (c.scopeFor namePrefix vs []) =
      .ok ((), c.scopeFor namePrefix (vs ++ [v]) []) := by
  have hbuild : outcome (addArgument (c.tyOf v)) (c.stage vs []) =
      (.ok (c.renamed v), c.stage (vs ++ [v]) []) := by
    rw [outcome_addArgument, upcoming_stage hwf h, withArgument_stage hwf h]
  have hdefinitions : c.definitions =
      vs ++ v :: (more ++ c.instructions.toList.flatMap Instruction.results) := by
    simp [definitions, h]
  have hnames : ∀ d : Circuit, ({ c.scopeFor namePrefix vs [] with circuit := d } : Scope).names =
      c.scopeNames namePrefix vs := by simp [scopeFor]
  rw [argument, run_bind_of_ok (run_build hbuild), run_define_next hwf hdefinitions (hnames _)]
  simp [scopeFor]

theorem run_arguments (hwf : c.WellFormed) {vs more : List Value}
    (h : c.arguments.toList = vs ++ more) :
    ((more.map fun v => ⟨c.nameIn namePrefix v, c.tyOf v⟩).forM argument).run
        (c.scopeFor namePrefix vs []) =
      .ok ((), c.scopeFor namePrefix c.arguments.toList []) := by
  induction more generalizing vs with
  | nil =>
    rw [h, List.append_nil]
    rfl
  | cons v more ih =>
    have hnext : c.arguments.toList = (vs ++ [v]) ++ more := by simp [h]
    rw [List.map_cons, List.forM_eq_forM, List.forM_cons, run_bind_of_ok (run_argument hwf h),
      ← List.forM_eq_forM, ih hnext]

/-! ## Instructions -/

/-- The operands of a quaternion share one type; nothing is asked of other instructions. -/
def SharesType (c : Circuit) : Instruction → Prop
  | .quaternion real i j k _ => ∃ t, ∀ v ∈ [real, i, j, k], c.HasType v t
  | _ => True

/-- The shared type is the type of the first operand. -/
theorem sharesType_quaternion_iff {real i j k out : Value} :
    c.SharesType (.quaternion real i j k out) ↔
      ∀ v ∈ [real, i, j, k], c.HasType v (c.tyOf real) := by
  constructor
  · intro h
    rcases h with ⟨t, ht⟩
    have hreal := ht real (by simp)
    exact hreal.tyOf_eq.symm ▸ ht
  · exact fun h => ⟨_, h⟩

instance (c : Circuit) (i : Instruction) : Decidable (c.SharesType i) :=
  match i with
  | .quaternion .. => decidable_of_iff _ sharesType_quaternion_iff.symm
  | .constant .. | .compose .. | .xzs .. | .qrefGate .. | .qrefDynGate .. | .qrefMeasure ..
  | .qssaGate .. | .qssaMeasure .. => .isTrue trivial

/-- The types of the results are the ones that the instruction fixes. -/
theorem WellFormed.fixes_tyOf (hwf : c.WellFormed) {i : Instruction} (hi : i ∈ c.instructions) :
    ∃ types, i.Fixes types ∧ i.results.map c.tyOf = types := by
  obtain ⟨types, hfix, htypes⟩ := hwf.typing i hi
  refine ⟨types, hfix, ?_⟩
  rw [← List.forall₂_eq_eq_eq, List.forall₂_map_left_iff]
  exact htypes.imp fun _ _ ht => ht.tyOf_eq

section Step

variable {is more : List Instruction} {i : Instruction}

theorem WellFormed.operand_split (hwf : c.WellFormed) (h : c.instructions.toList = is ++ i :: more)
    {v : Value} (hv : v ∈ i.operands) :
    v ∈ c.arguments.toList ++ is.flatMap Instruction.results := by
  have hbefore := (hwf.scoping is.length i (getElem?_of_split h) v hv).1
  rwa [definedBefore, h, List.take_left] at hbefore

theorem lookup_operand (namePrefix : String) (hwf : c.WellFormed)
    (h : c.instructions.toList = is ++ i :: more)
    {v : Value} (hv : v ∈ i.operands) :
    (c.scopeFor namePrefix c.arguments.toList is).names.lookup (c.nameIn namePrefix v) =
      some (c.renamed v) := by
  have hmem : ∀ w ∈ c.arguments.toList ++ is.flatMap Instruction.results, w ∈ c.definitions :=
    fun w hw => definitions_split h ▸ List.mem_append_left _ hw
  rw [scopeFor, lookup_scopeNames hmem, if_pos (hwf.operand_split h hv)]

theorem hasType_operand (namePrefix : String) (hwf : c.WellFormed)
    (hsize : c.table.size ≤ UInt32.size) (h : c.instructions.toList = is ++ i :: more) {v : Value}
    (hv : v ∈ i.operands) :
    (c.scopeFor namePrefix c.arguments.toList is).circuit.HasType (c.renamed v) (c.tyOf v) :=
  hasType_stage hwf hsize (definitions_split h) (hwf.operand_split h hv)

theorem run_typedValue_operand (namePrefix : String) (hwf : c.WellFormed)
    (hsize : c.table.size ≤ UInt32.size) (h : c.instructions.toList = is ++ i :: more) {v : Value}
    {t : Ty} (hv : v ∈ i.operands) (ht : c.HasType v t) :
    (typedValue (c.nameIn namePrefix v) t).run (c.scopeFor namePrefix c.arguments.toList is) =
      .ok (c.renamed v, c.scopeFor namePrefix c.arguments.toList is) := by
  have htype := hasType_operand namePrefix hwf hsize h hv
  rw [ht.tyOf_eq] at htype
  exact run_typedValue_of_hasType (lookup_operand namePrefix hwf h hv) htype

/-- An action that adds the renamed instruction to the stage before it. -/
theorem run_build_next (namePrefix : String) (hwf : c.WellFormed)
    (hsize : c.table.size ≤ UInt32.size) (h : c.instructions.toList = is ++ i :: more) {types : List Ty}
    (htypes : i.results.map c.tyOf = types) {α : Type} {b : Builder α} {a : α}
    (hb : outcome b (c.stage c.arguments.toList is) =
      (c.stage c.arguments.toList is).guarded (i.operands.map c.renamed) a
        ((c.stage c.arguments.toList is).withInstruction (i.rename c.renamed) types)) :
    (build b).run (c.scopeFor namePrefix c.arguments.toList is) =
      .ok (a, { c.scopeFor namePrefix c.arguments.toList is with
        circuit := c.stage c.arguments.toList (is ++ [i]) }) := by
  have hknown : ∀ v ∈ i.operands.map c.renamed, (c.stage c.arguments.toList is).Knows v := by
    refine List.forall_mem_map.2 fun v hv => ?_
    exact knows_iff_hasType.2 ⟨_, hasType_operand namePrefix hwf hsize h hv⟩
  rw [guarded_of_knows hknown, ← htypes, withInstruction_stage hwf h] at hb
  exact run_build hb

theorem run_body (hwf : c.WellFormed) (hsize : c.table.size ≤ UInt32.size)
    (h : c.instructions.toList = is ++ i :: more) (hshares : c.SharesType i) :
    (body (c.bodyFor namePrefix i)).run (c.scopeFor namePrefix c.arguments.toList is) =
      .ok (i.results.map c.renamed, { c.scopeFor namePrefix c.arguments.toList is with
        circuit := c.stage c.arguments.toList (is ++ [i]) }) := by
  have hi : i ∈ c.instructions := Array.mem_of_getElem? (getElem?_of_split h)
  obtain ⟨types, hfix, htypes⟩ := hwf.fixes_tyOf hi
  have hres := map_renamed_results hwf h
  have hlookup : ∀ v ∈ i.operands, _ := fun v hv => lookup_operand namePrefix hwf h hv
  have htype : ∀ v ∈ i.operands, _ := fun v hv => hasType_operand namePrefix hwf hsize h hv
  have hvalue : ∀ v ∈ i.operands, _ := fun v hv => run_value (hlookup v hv)
  have hbuild {α : Type} {b : Builder α} {a : α} :=
    run_build_next (b := b) (a := a) namePrefix hwf hsize h htypes
  -- the only result of an instruction is the next handle
  cases hfix with
  | constant =>
    have hb := outcome_constant (c.stage c.arguments.toList is)
    rw [← (List.cons.inj hres).1] at hb
    rw [bodyFor, body, run_bind_of_ok (hbuild (hb _))]
    rfl
  | @quaternion real i j k out =>
    have hb := outcome_quaternion (c.stage c.arguments.toList is)
    obtain ⟨t, ht⟩ := hshares
    have hrun : ∀ v ∈ [real, i, j, k], _ := fun v hv =>
      run_typedValue_operand namePrefix hwf hsize h hv (ht v hv)
    simp only [List.forall_mem_cons] at hrun
    obtain ⟨hreal, hi, hj, hk, -⟩ := hrun
    rw [← (List.cons.inj hres).1] at hb
    rw [bodyFor, body, (ht real (by simp)).tyOf_eq, run_bind_of_ok hreal, run_bind_of_ok hi,
      run_bind_of_ok hj, run_bind_of_ok hk, run_bind_of_ok (hbuild (hb ..))]
    rfl
  | compose =>
    have hb := outcome_composeAs (c.stage c.arguments.toList is)
    simp only [Instruction.operands, List.forall_mem_cons] at hvalue
    obtain ⟨hlhs, hrhs, -⟩ := hvalue
    rw [← (List.cons.inj hres).1] at hb
    rw [bodyFor, body, run_bind_of_ok hlhs, run_bind_of_ok hrhs, (List.cons.inj htypes).1,
      run_bind_of_ok (hbuild (hb ..))]
    rfl
  | xzs =>
    have hb := outcome_xzs (c.stage c.arguments.toList is)
    simp only [Instruction.operands, List.forall_mem_cons] at hvalue
    obtain ⟨hx, hz, hphase, -⟩ := hvalue
    rw [← (List.cons.inj hres).1] at hb
    rw [bodyFor, body, run_bind_of_ok hx, run_bind_of_ok hz, run_bind_of_ok hphase,
      run_bind_of_ok (hbuild (hb ..))]
    rfl
  | @qrefGate a ins =>
    have hb := outcome_qrefGate (c.stage c.arguments.toList is) a (ins.map c.renamed)
    simp only [Instruction.operands] at hlookup htype
    rw [bodyFor, body, run_bind_of_ok (run_typedValues hlookup htype), run_bind_of_ok (hbuild hb)]
    rfl
  | @qrefDynGate g ins =>
    have hb := outcome_qrefDynGate (c.stage c.arguments.toList is) (c.renamed g)
      (ins.map c.renamed)
    obtain ⟨hins, -⟩ := List.forall_mem_append.1 hlookup
    obtain ⟨htins, -⟩ := List.forall_mem_append.1 htype
    obtain ⟨-, hg⟩ := List.forall_mem_append.1 hvalue
    rw [List.forall_mem_singleton] at hg
    rw [← List.map_singleton, ← List.map_append] at hb
    rw [bodyFor, body, run_bind_of_ok (run_typedValues hins htins), run_bind_of_ok hg,
      run_bind_of_ok (hbuild hb)]
    rfl
  | qrefMeasure =>
    have hb := outcome_qrefMeasure (c.stage c.arguments.toList is)
    simp only [Instruction.operands, List.forall_mem_singleton] at hvalue
    rw [← (List.cons.inj hres).1] at hb
    rw [bodyFor, body, run_bind_of_ok hvalue, run_bind_of_ok (hbuild (hb _))]
    rfl
  | @qssaGate a ins outs =>
    have hb := outcome_qssaGate (c.stage c.arguments.toList is) a (ins.map c.renamed)
    have hlength : outs.length = ins.length := by
      simpa [Instruction.results] using congrArg List.length htypes
    simp only [Instruction.operands] at hlookup htype
    simp only [Instruction.results] at hres
    rw [List.length_map, ← hlength, ← hres, hlength] at hb
    rw [bodyFor, body, run_bind_of_ok (run_typedValues hlookup htype), hbuild hb]
    rfl
  | qssaMeasure =>
    have hb := outcome_qssaMeasure (c.stage c.arguments.toList is)
    obtain ⟨hout, hrest⟩ := List.cons.inj hres
    have houtQubit : _ = (c.stage c.arguments.toList is).upcoming 1 := (List.cons.inj hrest).1
    simp only [Instruction.operands, List.forall_mem_singleton] at hvalue
    rw [← hout, ← houtQubit] at hb
    rw [bodyFor, body, run_bind_of_ok hvalue, run_bind_of_ok (hbuild (hb _))]
    rfl

/-- A quaternion is only resolved when all its operands have the type of the first. -/
theorem sharesType_of_run_body (hwf : c.WellFormed) (hsize : c.table.size ≤ UInt32.size)
    (h : c.instructions.toList = is ++ i :: more) {r : List Value × Scope}
    (hrun : (body (c.bodyFor namePrefix i)).run (c.scopeFor namePrefix c.arguments.toList is) =
      .ok r) : c.SharesType i := by
  cases i with
  | quaternion real i j k out =>
    have hlookup : ∀ v ∈ [real, i, j, k], _ := fun v hv => lookup_operand namePrefix hwf h hv
    have htype : ∀ v ∈ [real, i, j, k], _ := fun v hv => hasType_operand namePrefix hwf hsize h hv
    simp only [List.forall_mem_cons] at hlookup htype
    obtain ⟨hreal, hi, hj, hk, -⟩ := hlookup
    obtain ⟨htreal, hti, htj, htk, -⟩ := htype
    rw [bodyFor, body, run_bind_of_ok (run_typedValue_of_hasType hreal htreal)] at hrun
    obtain ⟨_, _, hrun_i, hrun⟩ := exists_of_run_bind hrun
    obtain ⟨heq_i, rfl⟩ := of_run_typedValue hi hti hrun_i
    obtain ⟨_, _, hrun_j, hrun⟩ := exists_of_run_bind hrun
    obtain ⟨heq_j, rfl⟩ := of_run_typedValue hj htj hrun_j
    obtain ⟨_, _, hrun_k, hrun⟩ := exists_of_run_bind hrun
    obtain ⟨heq_k, -⟩ := of_run_typedValue hk htk hrun_k
    have hmem : ∀ v ∈ [real, i, j, k], v ∈ c.definitions := fun v hv =>
      definitions_split h ▸ List.mem_append_left _ (hwf.operand_split h hv)
    have heq : ∀ v ∈ [real, i, j, k], c.tyOf v = c.tyOf real := by
      simp [heq_i, heq_j, heq_k]
    refine sharesType_quaternion_iff.2 fun v hv => ?_
    rw [← heq v hv]
    exact hasType_tyOf (hwf.mem_definitions_iff.1 (hmem v hv))
  | _ => trivial

theorem length_results_statementFor (hwf : c.WellFormed) {line : Nat} (hi : i ∈ c.instructions) :
    (c.statementFor namePrefix i line).results.length =
      (c.statementFor namePrefix i line).body.resultCount := by
  obtain ⟨types, hfix, htypes⟩ := hwf.fixes_tyOf hi
  have hlength := congrArg List.length htypes
  rw [List.length_map] at hlength
  cases hfix <;> simpa [statementFor, bodyFor, Text.Body.resultCount] using hlength

theorem run_statement (hwf : c.WellFormed) (hsize : c.table.size ≤ UInt32.size)
    (h : c.instructions.toList = is ++ i :: more) (hshares : c.SharesType i) (line : Nat) :
    (statement (c.statementFor namePrefix i line)).run
        (c.scopeFor namePrefix c.arguments.toList is) =
      .ok ((), c.scopeFor namePrefix c.arguments.toList (is ++ [i])) := by
  have hi : i ∈ c.instructions := Array.mem_of_getElem? (getElem?_of_split h)
  have hbody : (body (c.statementFor namePrefix i line).body).run _ = _ :=
    run_body hwf hsize h hshares
  rw [statement, if_pos (length_results_statementFor hwf hi), run_bind_of_ok hbody]
  rw [statementFor, run_forM_define hwf (definitions_split h) rfl]
  simp [scopeFor]

theorem sharesType_of_run_statement (hwf : c.WellFormed) (hsize : c.table.size ≤ UInt32.size)
    (h : c.instructions.toList = is ++ i :: more) {line : Nat} {r : Unit × Scope}
    (hrun : (statement (c.statementFor namePrefix i line)).run
      (c.scopeFor namePrefix c.arguments.toList is) = .ok r) : c.SharesType i := by
  rw [statement] at hrun
  split at hrun
  · obtain ⟨_, _, hbody, -⟩ := exists_of_run_bind hrun
    exact sharesType_of_run_body hwf hsize h hbody
  · cases hrun

end Step

/-! ## The whole program -/

variable {is more : List Instruction}

theorem run_statements (hwf : c.WellFormed) (hsize : c.table.size ≤ UInt32.size)
    (h : c.instructions.toList = is ++ more) (hshares : ∀ i ∈ more, c.SharesType i) (line : Nat) :
    (((more.zipIdx line).map fun p => c.statementFor namePrefix p.1 p.2).forM statement).run
        (c.scopeFor namePrefix c.arguments.toList is) =
      .ok ((), c.scopeFor namePrefix c.arguments.toList c.instructions.toList) := by
  induction more generalizing is line with
  | nil =>
    rw [h, List.append_nil]
    rfl
  | cons i more ih =>
    obtain ⟨hi, hmore⟩ := List.forall_mem_cons.1 hshares
    have hnext : c.instructions.toList = (is ++ [i]) ++ more := by simp [h]
    rw [List.zipIdx_cons, List.map_cons, List.forM_eq_forM, List.forM_cons,
      run_bind_of_ok (run_statement hwf hsize h hi line), ← List.forM_eq_forM, ih hnext hmore]

theorem sharesType_of_run_statements (hwf : c.WellFormed) (hsize : c.table.size ≤ UInt32.size)
    (h : c.instructions.toList = is ++ more) {line : Nat} {r : Unit × Scope}
    (hrun : (((more.zipIdx line).map fun p => c.statementFor namePrefix p.1 p.2).forM
      statement).run (c.scopeFor namePrefix c.arguments.toList is) = .ok r) :
    ∀ i ∈ more, c.SharesType i := by
  induction more generalizing is line with
  | nil => simp
  | cons i more ih =>
    have hnext : c.instructions.toList = (is ++ [i]) ++ more := by simp [h]
    rw [List.zipIdx_cons, List.map_cons, List.forM_eq_forM, List.forM_cons] at hrun
    obtain ⟨_, _, hstatement, hmore⟩ := exists_of_run_bind hrun
    have hi := sharesType_of_run_statement hwf hsize h hstatement
    rw [run_statement hwf hsize h hi] at hstatement
    cases hstatement
    exact List.forall_mem_cons.2 ⟨hi, ih hnext hmore⟩

theorem run_program_arguments (hwf : c.WellFormed) :
    (program (c.programFor namePrefix)).run {} =
      (((c.instructions.toList.zipIdx 2).map fun p => c.statementFor namePrefix p.1 p.2).forM
        statement).run (c.scopeFor namePrefix c.arguments.toList []) := by
  have harguments : ((c.programFor namePrefix).arguments.forM argument).run {} = _ :=
    run_arguments hwf (List.nil_append _).symm
  rw [program, run_bind_of_ok harguments]
  rfl

/-- **Resolving the program of a circuit renumbers the circuit**, when quaternions permit. -/
theorem toCircuit_programFor (hwf : c.WellFormed) (hsize : c.table.size ≤ UInt32.size)
    (hshares : ∀ i ∈ c.instructions, c.SharesType i) :
    (c.programFor namePrefix).toCircuit = .ok c.renumber := by
  have hall : ∀ i ∈ c.instructions.toList, c.SharesType i := by simpa using hshares
  rw [Program.toCircuit, run_program_arguments hwf,
    run_statements hwf hsize (List.nil_append _).symm hall, ← stage_all]
  rfl

theorem sharesType_of_toCircuit (hwf : c.WellFormed) (hsize : c.table.size ≤ UInt32.size)
    {d : Circuit} (h : (c.programFor namePrefix).toCircuit = .ok d) :
    ∀ i ∈ c.instructions, c.SharesType i := by
  obtain ⟨r, hrun, -⟩ := bind_eq_ok_iff.1 h
  rw [run_program_arguments hwf] at hrun
  simpa using sharesType_of_run_statements hwf hsize (List.nil_append _).symm hrun

end Circuit

end GateIR

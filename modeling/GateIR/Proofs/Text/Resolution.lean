import GateIR.Proofs.Text.Scope
import GateIR.Proofs.Text.Scoping

/-!
# Resolving decides the scoping rules

**Simulation (`Program.Models`).** After some statements, the scope of the resolver holds the
circuit that the program so far denotes, and the names of the program with their positions.

**Step (`Models.run_statement_iff`, `Models.push`).** From such a scope a statement is resolved
exactly when it can follow the program, and the scope after it again models the longer program. The
builder is only handed positions of names, so it never meets a handle that it does not know.

**Theorem (`toCircuit_iff_wellScoped`).** A program with at most as many names as there are handles
has a circuit exactly when it is well scoped, and then the circuit is the one that it denotes.
-/

namespace GateIR.Text

open Resolve

namespace Program

variable {p : Program} {s : Statement} {b : Body}

/-! ## Scopes -/

/-- The scope holds the circuit of the program and the positions of its names. -/
structure Models (p : Program) (sc : Scope) : Prop where
  names : sc.names = numbered p.names
  distinct : p.names.Nodup
  denotes : p.Denotes sc.circuit
  defined : ∀ s ∈ p.statements, ∀ n ∈ s.body.operands, n ∈ p.names
  length_entries : p.entries.length = p.names.length
  size : p.names.length ≤ UInt32.size

namespace Models

variable {sc : Scope} (h : p.Models sc)

include h

theorem size_table : sc.circuit.table.size = p.names.length := by
  rw [← Array.length_toList, h.denotes.table, h.length_entries]

theorem size_instructions : sc.circuit.instructions.size = p.statements.length := by
  rw [← Array.length_toList, h.denotes.instructions.length_eq]

theorem mem_of_typeOf? {n : String} {t : Ty} (ht : p.typeOf? n = some t) : n ∈ p.names :=
  mem_names_of_typeOf? h.length_entries ht

theorem index_position {n : String} (hn : n ∈ p.names) :
    (p.position n).index = p.names.idxOf n :=
  UInt32.toNat_ofNat_of_lt ((List.idxOf_lt_length_of_mem hn).trans_le h.size)

theorem hasType_position_iff {n : String} (hn : n ∈ p.names) {t : Ty} :
    sc.circuit.HasType (p.position n) t ↔ p.typeOf? n = some t := by
  rw [Circuit.HasType, h.index_position hn, ← Array.getElem?_toList, h.denotes.table, typeOf?,
    Option.map_eq_some_iff]

theorem knows_position {n : String} (hn : n ∈ p.names) : sc.circuit.Knows (p.position n) := by
  rw [Circuit.Knows, h.index_position hn, h.size_table]
  exact List.idxOf_lt_length_of_mem hn

theorem lookup_eq_some_iff {n : String} {v : Value} :
    sc.names.lookup n = some v ↔ n ∈ p.names ∧ p.position n = v := by
  rw [h.names, lookup_numbered h.distinct]
  split <;> simp_all [position]

/-- An annotation is accepted when it is the type of the name. -/
theorem typed_iff {n : String} {t : Ty} {v : Value} :
    sc.names.lookup n = some v ∧ sc.circuit.HasType v t ↔
      p.typeOf? n = some t ∧ p.position n = v := by
  rw [h.lookup_eq_some_iff]
  constructor
  · intro hv
    rcases hv with ⟨⟨hn, rfl⟩, ht⟩
    exact ⟨(h.hasType_position_iff hn).1 ht, rfl⟩
  · intro hv
    rcases hv with ⟨ht, rfl⟩
    have hn := h.mem_of_typeOf? ht
    exact ⟨⟨hn, rfl⟩, (h.hasType_position_iff hn).2 ht⟩

variable {α : Type} {r : α × Scope}

theorem run_value_bind_iff {n : String} {f : Value → Resolve α} :
    (Resolve.value n >>= f).run sc = .ok r ↔
      n ∈ p.names ∧ (f (p.position n)).run sc = .ok r := by
  obtain ⟨a, sc'⟩ := r
  simp only [run_bind_eq_ok_iff, run_value_eq_ok_iff, h.lookup_eq_some_iff]
  constructor
  · intro hrun
    rcases hrun with ⟨v, t, ⟨⟨hn, rfl⟩, rfl⟩, hrun⟩
    exact ⟨hn, hrun⟩
  · intro hrun
    exact ⟨_, _, ⟨⟨hrun.1, rfl⟩, rfl⟩, hrun.2⟩

theorem run_typedValue_bind_iff {n : String} {t : Ty} {f : Value → Resolve α} :
    (Resolve.typedValue n t >>= f).run sc = .ok r ↔
      p.typeOf? n = some t ∧ (f (p.position n)).run sc = .ok r := by
  obtain ⟨a, sc'⟩ := r
  simp only [run_bind_eq_ok_iff, run_typedValue_eq_ok_iff, h.typed_iff]
  constructor
  · intro hrun
    rcases hrun with ⟨v, t, ⟨⟨hn, rfl⟩, rfl⟩, hrun⟩
    exact ⟨hn, hrun⟩
  · intro hrun
    exact ⟨_, _, ⟨⟨hrun.1, rfl⟩, rfl⟩, hrun.2⟩

omit h in
/-- One value for each annotated name. -/
theorem forall₂_typed_iff {ns : List String} {ts : List Ty} (hlength : ns.length = ts.length)
    {vs : List Value} :
    List.Forall₂ (fun a v => p.typeOf? a.1 = some a.2 ∧ p.position a.1 = v) (ns.zip ts) vs ↔
      (∀ a ∈ ns.zip ts, p.typeOf? a.1 = some a.2) ∧ vs = ns.map p.position := by
  have hvs : List.Forall₂ (fun a v => p.position a.1 = v) (ns.zip ts) vs ↔
      ns.map p.position = vs := by
    have hfst : (ns.zip ts).map (fun a => p.position a.1) = ns.map p.position := by
      conv_rhs => rw [← List.map_fst_zip hlength.le, List.map_map]
      rfl
    rw [← hfst, ← List.forall₂_eq_eq_eq, List.forall₂_map_left_iff]
  rw [List.forall₂_and_left, hvs, eq_comm]

/-- Annotated names are names of the program. -/
theorem mem_names_of_annotated {ns : List String} {ts : List Ty} (hlength : ts.length = ns.length)
    (hann : ∀ a ∈ ns.zip ts, p.typeOf? a.1 = some a.2) : ∀ n ∈ ns, n ∈ p.names := by
  intro n hn
  rw [← List.map_fst_zip hlength.ge] at hn
  obtain ⟨a, ha, rfl⟩ := List.mem_map.1 hn
  exact h.mem_of_typeOf? (hann a ha)

theorem run_typedValues_bind_iff {i : String} {ns : List String} {ts : List Ty}
    {f : List Value → Resolve α} :
    (Resolve.typedValues i ns ts >>= f).run sc = .ok r ↔
      (ts.length = ns.length ∧ ∀ a ∈ ns.zip ts, p.typeOf? a.1 = some a.2) ∧
        (f (ns.map p.position)).run sc = .ok r := by
  obtain ⟨a, sc'⟩ := r
  simp only [run_bind_eq_ok_iff, run_typedValues_eq_ok_iff, h.typed_iff]
  constructor
  · intro hrun
    rcases hrun with ⟨vs, t, ⟨hlength, hvs, rfl⟩, hrun⟩
    obtain ⟨hann, rfl⟩ := (forall₂_typed_iff hlength).1 hvs
    exact ⟨⟨hlength.symm, hann⟩, hrun⟩
  · intro hrun
    rcases hrun with ⟨⟨hlength, hann⟩, hrun⟩
    exact ⟨_, _, ⟨hlength.symm, (forall₂_typed_iff hlength.symm).2 ⟨hann, rfl⟩, rfl⟩, hrun⟩

/-- A builder action on positions of names knows its handles. -/
theorem run_build {β : Type} {b : Builder β} {ns : List String}
    (hns : ∀ n ∈ ns, n ∈ p.names) {a : β}
    {d : Circuit} (hb : outcome b sc.circuit = sc.circuit.guarded (ns.map p.position) a d) :
    (Resolve.build b).run sc = .ok (a, { sc with circuit := d }) := by
  have hknown : ∀ v ∈ ns.map p.position, sc.circuit.Knows v :=
    List.forall_mem_map.2 fun n hn => h.knows_position (hns n hn)
  rw [Circuit.guarded_of_knows hknown] at hb
  exact Resolve.run_build hb

end Models

end Program

/-! ## Bodies -/

/-- The instruction of a body, with names resolved and the next values as results. -/
def Body.instruction (c : Circuit) (f : String → Value) : Body → Instruction
  | constant g => .constant g (c.upcoming 0)
  | quaternion _ real i j k => .quaternion (f real) (f i) (f j) (f k) (c.upcoming 0)
  | compose lhs rhs _ => .compose (f lhs) (f rhs) (c.upcoming 0)
  | xzs x z phase => .xzs (f x) (f z) (f phase) (c.upcoming 0)
  | qrefGate a qubits _ => .qrefGate a (qubits.map f)
  | qrefDynGate g qubits _ => .qrefDynGate (qubits.map f) (f g)
  | qrefMeasure q => .qrefMeasure (f q) (c.upcoming 0)
  | qssaGate a qubits _ => .qssaGate a (qubits.map f) (c.fresh qubits.length)
  | qssaMeasure q => .qssaMeasure (f q) (c.upcoming 0) (c.upcoming 1)

theorem Body.name_instruction (c : Circuit) (f : String → Value) (b : Body) :
    (b.instruction c f).name = b.name := by cases b <;> rfl

theorem Body.attribute?_instruction (c : Circuit) (f : String → Value) (b : Body) :
    (b.instruction c f).attribute? = b.attribute? := by cases b <;> rfl

theorem Body.operands_instruction (c : Circuit) (f : String → Value) (b : Body) :
    (b.instruction c f).operands = b.operands.map f := by
  cases b <;> simp [instruction, Instruction.operands, operands]

theorem Body.results_instruction (c : Circuit) (f : String → Value) (b : Body) :
    (b.instruction c f).results = c.fresh b.resultCount := by
  cases b <;> simp [instruction, Instruction.results, resultCount, Circuit.fresh]
  rfl

namespace Program

variable {p : Program} {sc : Scope} {s : Statement} {b : Body}

/-- The scope after the instruction of a body. -/
def afterBody (p : Program) (sc : Scope) (b : Body) : Scope where
  circuit := sc.circuit.withInstruction (b.instruction sc.circuit p.position) b.resultTypes
  names := sc.names

/-- A body whose instruction is added is accepted. -/
theorem Models.accepts_of_run_body (h : p.Models sc) {r : List Value × Scope}
    (hrun : (Resolve.body b).run sc = .ok r) : p.Accepts b := by
  cases b with
  | constant g => exact ⟨by simp [Body.operands], trivial, by simp [Body.annotations]⟩
  | quaternion t real i j k =>
    simp only [Resolve.body, h.run_typedValue_bind_iff] at hrun
    obtain ⟨hreal, hi, hj, hk, -⟩ := hrun
    refine ⟨?_, trivial, ?_⟩
    · simp [Body.operands, h.mem_of_typeOf? hreal, h.mem_of_typeOf? hi, h.mem_of_typeOf? hj,
        h.mem_of_typeOf? hk]
    · simp [Body.annotations, hreal, hi, hj, hk]
  | compose lhs rhs t =>
    simp only [Resolve.body, h.run_value_bind_iff] at hrun
    obtain ⟨hlhs, hrhs, -⟩ := hrun
    exact ⟨by simp [Body.operands, hlhs, hrhs], trivial, by simp [Body.annotations]⟩
  | xzs x z phase =>
    simp only [Resolve.body, h.run_value_bind_iff] at hrun
    obtain ⟨hx, hz, hphase, -⟩ := hrun
    exact ⟨by simp [Body.operands, hx, hz, hphase], trivial, by simp [Body.annotations]⟩
  | qrefMeasure q =>
    simp only [Resolve.body, h.run_value_bind_iff] at hrun
    exact ⟨by simp [Body.operands, hrun.1], trivial, by simp [Body.annotations]⟩
  | qssaMeasure q =>
    simp only [Resolve.body, h.run_value_bind_iff] at hrun
    exact ⟨by simp [Body.operands, hrun.1], trivial, by simp [Body.annotations]⟩
  | qrefGate a qubits types =>
    simp only [Resolve.body, h.run_typedValues_bind_iff] at hrun
    obtain ⟨⟨hlength, hann⟩, -⟩ := hrun
    exact ⟨h.mem_names_of_annotated hlength hann, hlength, hann⟩
  | qrefDynGate g qubits types =>
    simp only [Resolve.body, h.run_typedValues_bind_iff, h.run_value_bind_iff] at hrun
    obtain ⟨⟨hlength, hann⟩, hg, -⟩ := hrun
    have hqubits := h.mem_names_of_annotated hlength hann
    exact ⟨List.forall_mem_append.2 ⟨hqubits, by simpa using hg⟩, hlength, hann⟩
  | qssaGate a qubits types =>
    simp only [Resolve.body, h.run_typedValues_bind_iff] at hrun
    obtain ⟨⟨hlength, hann⟩, -⟩ := hrun
    exact ⟨h.mem_names_of_annotated hlength hann, hlength, hann⟩

/-- The instruction of an accepted body is added. -/
theorem Models.run_body (h : p.Models sc) (hb : p.Accepts b) :
    (Resolve.body b).run sc = .ok (sc.circuit.fresh b.resultCount, p.afterBody sc b) := by
  obtain ⟨hdefined, hcounted, hann⟩ := hb
  cases b with
  | constant g =>
    have hb : outcome _ sc.circuit = sc.circuit.guarded ([].map p.position) _ _ :=
      Circuit.outcome_constant sc.circuit g
    rw [Resolve.body, run_bind_of_ok (h.run_build hdefined hb)]
    rfl
  | quaternion t real i j k =>
    have hb := Circuit.outcome_quaternion sc.circuit (p.position real) (p.position i)
      (p.position j) (p.position k)
    simp only [Body.annotations, List.forall_mem_cons] at hann
    simp only [Resolve.body, h.run_typedValue_bind_iff]
    refine ⟨hann.1, hann.2.1, hann.2.2.1, hann.2.2.2.1, ?_⟩
    rw [run_bind_of_ok (h.run_build hdefined hb)]
    rfl
  | compose lhs rhs t =>
    have hb := Circuit.outcome_composeAs sc.circuit (p.position lhs) (p.position rhs) t
    have hnames := hdefined
    simp only [Body.operands, List.forall_mem_cons] at hnames
    simp only [Resolve.body, h.run_value_bind_iff]
    refine ⟨hnames.1, hnames.2.1, ?_⟩
    rw [run_bind_of_ok (h.run_build hdefined hb)]
    rfl
  | xzs x z phase =>
    have hb := Circuit.outcome_xzs sc.circuit (p.position x) (p.position z) (p.position phase)
    have hnames := hdefined
    simp only [Body.operands, List.forall_mem_cons] at hnames
    simp only [Resolve.body, h.run_value_bind_iff]
    refine ⟨hnames.1, hnames.2.1, hnames.2.2.1, ?_⟩
    rw [run_bind_of_ok (h.run_build hdefined hb)]
    rfl
  | qrefGate a qubits types =>
    have hb := Circuit.outcome_qrefGate sc.circuit a (qubits.map p.position)
    simp only [Resolve.body, h.run_typedValues_bind_iff]
    refine ⟨⟨hcounted, hann⟩, ?_⟩
    rw [run_bind_of_ok (h.run_build hdefined hb)]
    rfl
  | qrefDynGate g qubits types =>
    have hb := Circuit.outcome_qrefDynGate sc.circuit (p.position g) (qubits.map p.position)
    rw [← List.map_singleton, ← List.map_append] at hb
    simp only [Resolve.body, h.run_typedValues_bind_iff, h.run_value_bind_iff]
    refine ⟨⟨hcounted, hann⟩, hdefined g (by simp [Body.operands]), ?_⟩
    rw [run_bind_of_ok (h.run_build hdefined hb)]
    rfl
  | qrefMeasure q =>
    have hb := Circuit.outcome_qrefMeasure sc.circuit (p.position q)
    simp only [Resolve.body, h.run_value_bind_iff]
    refine ⟨hdefined q (by simp [Body.operands]), ?_⟩
    rw [run_bind_of_ok (h.run_build hdefined hb)]
    rfl
  | qssaGate a qubits types =>
    have hb := Circuit.outcome_qssaGate sc.circuit a (qubits.map p.position)
    simp only [Resolve.body, h.run_typedValues_bind_iff]
    refine ⟨⟨hcounted, hann⟩, ?_⟩
    rw [h.run_build hdefined hb, List.length_map]
    rfl
  | qssaMeasure q =>
    have hb := Circuit.outcome_qssaMeasure sc.circuit (p.position q)
    simp only [Resolve.body, h.run_value_bind_iff]
    refine ⟨hdefined q (by simp [Body.operands]), ?_⟩
    rw [run_bind_of_ok (h.run_build hdefined hb)]
    rfl


/-! ## Statements -/

/-- The scope after a statement. -/
def afterStatement (p : Program) (sc : Scope) (s : Statement) : Scope where
  circuit := (p.afterBody sc s.body).circuit
  names := numbered (p.push s).names

theorem Models.fresh_eq (h : p.Models sc) (n : Nat) :
    sc.circuit.fresh n = (List.range' p.names.length n).map Value.ofIndex := by
  rw [Circuit.fresh, List.range'_eq_map_range, List.map_map, ← h.size_table]
  rfl

/-- A statement is resolved exactly when it can follow the program. -/
theorem Models.run_statement_iff (h : p.Models sc) {sc' : Scope} :
    (Resolve.statement s).run sc = .ok ((), sc') ↔
      p.Admits s ∧ sc' = p.afterStatement sc s := by
  have hnames : (p.afterBody sc s.body).names = numbered p.names := h.names
  rw [Resolve.statement]
  split
  · next hcounted =>
    constructor
    · intro hrun
      obtain ⟨values, t, hbody, hrun⟩ := exists_of_run_bind hrun
      have hb := h.accepts_of_run_body hbody
      rw [h.run_body hb] at hbody
      cases hbody
      rw [h.fresh_eq, ← hcounted] at hrun
      obtain ⟨hnodup, rfl⟩ := (run_forM_define_iff h.distinct hnames).1 hrun
      rw [← names_push] at hnodup
      obtain ⟨hdistinct, hfresh⟩ := (nodup_names_push_iff h.distinct).1 hnodup
      refine ⟨⟨hcounted, hb, hdistinct, hfresh⟩, ?_⟩
      rw [afterStatement, names_push]
    · intro hs
      obtain ⟨hs, rfl⟩ := hs
      have hnodup := (nodup_names_push_iff h.distinct).2 ⟨hs.distinct, hs.fresh⟩
      rw [names_push] at hnodup
      rw [run_bind_of_ok (h.run_body hs.accepts), h.fresh_eq, ← hs.counted]
      refine (run_forM_define_iff h.distinct hnames).2 ⟨hnodup, ?_⟩
      rw [afterStatement, names_push]
  · next hcounted =>
    constructor
    · nofun
    · intro hs
      exact absurd hs.1.counted hcounted

/-- The new instruction is the one of the statement. -/
theorem Models.resolves_instruction (h : p.Models sc) (hs : p.Admits s) :
    (p.push s).Resolves s (s.body.instruction sc.circuit p.position) where
  name := s.body.name_instruction _ _
  attribute? := s.body.attribute?_instruction _ _
  operands := by rw [Body.operands_instruction, map_position_push_of_mem hs.accepts.defined]
  results := by
    rw [Body.results_instruction, map_position_push hs.distinct hs.fresh, h.fresh_eq, hs.counted]

theorem Models.denotes_push (h : p.Models sc) (hs : p.Admits s) :
    (p.push s).Denotes (p.afterStatement sc s).circuit where
  arguments := by
    have harguments : p.arguments.map (fun a => (p.push s).position a.name) =
        p.arguments.map fun a => p.position a.name :=
      List.map_congr_left fun a ha => position_push (mem_names_of_mem_arguments ha)
    exact h.denotes.arguments.trans harguments.symm
  table := by
    rw [entries_push, ← h.size_instructions, ← h.denotes.table]
    simp [afterStatement, afterBody, Circuit.withInstruction, Circuit.resultEntries]
  instructions := by
    have hold : List.Forall₂ (p.push s).Resolves p.statements sc.circuit.instructions.toList := by
      have hmem : ∀ t ∈ p.statements, t ∈ p.statements := fun _ ht => ht
      have hall := (List.forall₂_and_left _ _).2 ⟨hmem, h.denotes.instructions⟩
      exact hall.imp fun t i ht => ht.2.push ht.1 (h.defined t ht.1)
    have hinstructions : (p.afterStatement sc s).circuit.instructions.toList =
        sc.circuit.instructions.toList ++ [s.body.instruction sc.circuit p.position] := by
      simp [afterStatement, afterBody, Circuit.withInstruction]
    rw [hinstructions]
    exact List.rel_append hold (.cons (h.resolves_instruction hs) .nil)

/-- A statement that can follow the program goes on to model it. -/
theorem Models.push (h : p.Models sc) (hs : p.Admits s)
    (hsize : (p.push s).names.length ≤ UInt32.size) :
    (p.push s).Models (p.afterStatement sc s) where
  names := rfl
  distinct := (nodup_names_push_iff h.distinct).2 ⟨hs.distinct, hs.fresh⟩
  denotes := h.denotes_push hs
  defined := by
    intro t ht n hn
    rw [names_push]
    apply List.mem_append_left
    rcases List.mem_append.1 ht with ht | ht
    · exact h.defined t ht n hn
    · obtain rfl := List.mem_singleton.1 ht
      exact hs.accepts.defined n hn
  length_entries := length_entries_push h.length_entries hs.counted
  size := hsize

/-! ## Arguments -/

section Arguments

variable {as : List Argument} {a : Argument}

theorem names_arguments (as : List Argument) :
    (⟨as, []⟩ : Program).names = as.map Argument.name := by
  simp [Program.names]

theorem entries_arguments (as : List Argument) :
    (⟨as, []⟩ : Program).entries = as.mapIdx fun n a => ⟨a.ty, .argument n⟩ := by
  simp [entries]

/-- The scope after an argument. -/
def afterArgument (sc : Scope) (as : List Argument) (a : Argument) : Scope where
  circuit := sc.circuit.withArgument a.ty
  names := numbered ((as ++ [a]).map Argument.name)

/-- An argument is resolved exactly when its name is new. -/
theorem Models.run_argument_iff (h : (⟨as, []⟩ : Program).Models sc) {sc' : Scope} :
    (argument a).run sc = .ok ((), sc') ↔
      ((as ++ [a]).map Argument.name).Nodup ∧ sc' = afterArgument sc as a := by
  have hbuild := Resolve.run_build (Circuit.outcome_addArgument sc.circuit a.ty)
  have hdistinct := h.distinct
  have hnames := h.names
  have hupcoming : sc.circuit.upcoming 0 = .ofIndex (as.map Argument.name).length := by
    rw [Circuit.upcoming, h.size_table, names_arguments, Nat.add_zero]
  rw [names_arguments] at hdistinct hnames
  rw [argument, run_bind_of_ok hbuild, run_define_eq_ok_iff, hnames,
    lookup_numbered_eq_none_iff hdistinct, hupcoming, ← numbered_concat,
    ← nodup_concat_iff hdistinct, afterArgument, List.map_append, List.map_singleton]

/-- Arguments get the first positions. -/
theorem map_position_arguments (hdistinct : (as.map Argument.name).Nodup) :
    as.map (fun a => (⟨as, []⟩ : Program).position a.name) =
      (List.range as.length).map Value.ofIndex := by
  apply List.ext_getElem (by simp)
  intro k hk _
  have hidx := hdistinct.idxOf_getElem k (by simpa using hk)
  rw [List.getElem_map] at hidx
  simp [position, names_arguments, hidx]

theorem Models.denotes_pushArgument (h : (⟨as, []⟩ : Program).Models sc)
    (hdistinct : ((as ++ [a]).map Argument.name).Nodup) :
    (⟨as ++ [a], []⟩ : Program).Denotes (afterArgument sc as a).circuit where
  arguments := by
    have hold := h.distinct
    have harguments := h.denotes.arguments
    have hsize := h.size_table
    rw [names_arguments] at hold hsize
    rw [map_position_arguments hold] at harguments
    rw [map_position_arguments hdistinct]
    simp [afterArgument, Circuit.withArgument, Circuit.upcoming, harguments, hsize,
      List.range_succ]
  table := by
    have htable := h.denotes.table
    have hsize := congrArg List.length h.denotes.arguments
    rw [entries_arguments] at htable ⊢
    rw [Array.length_toList, List.length_map] at hsize
    simp [afterArgument, Circuit.withArgument, htable, hsize, List.mapIdx_append]
  instructions := by
    have hinstructions := h.denotes.instructions
    rwa [List.forall₂_nil_left_iff] at hinstructions ⊢

theorem Models.pushArgument (h : (⟨as, []⟩ : Program).Models sc)
    (hdistinct : ((as ++ [a]).map Argument.name).Nodup) (hsize : (as ++ [a]).length ≤ UInt32.size) :
    (⟨as ++ [a], []⟩ : Program).Models (afterArgument sc as a) where
  names := by rw [names_arguments]; rfl
  distinct := by rwa [names_arguments]
  denotes := h.denotes_pushArgument hdistinct
  defined := by simp
  length_entries := by simp [names_arguments, entries_arguments]
  size := by rwa [names_arguments, List.length_map]

theorem models_empty : (⟨[], []⟩ : Program).Models {} where
  names := rfl
  distinct := .nil
  denotes := ⟨rfl, rfl, .nil⟩
  defined := by simp
  length_entries := rfl
  size := Nat.zero_le _

theorem run_arguments_of_nodup (hsize : as.length ≤ UInt32.size)
    (h : (as.map Argument.name).Nodup) :
    ∃ sc, (as.forM argument).run {} = .ok ((), sc) ∧ (⟨as, []⟩ : Program).Models sc := by
  induction as using List.reverseRecOn with
  | nil => exact ⟨_, rfl, models_empty⟩
  | append_singleton as a ih =>
    have hlength : as.length ≤ UInt32.size := le_trans (by simp) hsize
    have hnodup := h
    rw [List.map_append, List.nodup_append] at hnodup
    obtain ⟨sc, hrun, hmodels⟩ := ih hlength hnodup.1
    rw [forM_concat, run_bind_of_ok hrun]
    exact ⟨_, hmodels.run_argument_iff.2 ⟨h, rfl⟩, hmodels.pushArgument h hsize⟩

theorem nodup_of_run_arguments (hsize : as.length ≤ UInt32.size) {r : Unit × Scope}
    (hrun : (as.forM argument).run {} = .ok r) : (as.map Argument.name).Nodup := by
  induction as using List.reverseRecOn generalizing r with
  | nil => exact .nil
  | append_singleton as a ih =>
    have hlength : as.length ≤ UInt32.size := le_trans (by simp) hsize
    rw [forM_concat] at hrun
    obtain ⟨u, t, hbefore, hrun⟩ := exists_of_run_bind hrun
    obtain ⟨sc, hmodel, hmodels⟩ := run_arguments_of_nodup hlength (ih hlength hbefore)
    rw [hmodel] at hbefore
    cases hbefore
    exact (hmodels.run_argument_iff.1 hrun).1

end Arguments

/-! ## The whole program -/

theorem program_push (p : Program) (s : Statement) :
    Resolve.program (p.push s) = Resolve.program p >>= fun _ => Resolve.statement s := by
  rw [program, Program.push, forM_concat, program, bind_assoc]

theorem length_names_le_push (p : Program) (s : Statement) :
    p.names.length ≤ (p.push s).names.length := by
  simp [names_push]

/-- Induction over the statements of a program, the last one first. -/
theorem push_induction {motive : Program → Prop} (arguments : ∀ as, motive ⟨as, []⟩)
    (push : ∀ p s, motive p → motive (p.push s)) (p : Program) : motive p := by
  obtain ⟨as, ss⟩ := p
  induction ss using List.reverseRecOn with
  | nil => exact arguments as
  | append_singleton ss s ih => exact push _ s ih

/-- A well-scoped program is resolved to a scope that models it. -/
theorem WellScoped.run_program (h : p.WellScoped) (hsize : p.names.length ≤ UInt32.size) :
    ∃ sc, (Resolve.program p).run {} = .ok ((), sc) ∧ p.Models sc := by
  induction p using push_induction with
  | arguments as =>
    rw [names_arguments, List.length_map] at hsize
    obtain ⟨sc, hrun, hmodels⟩ := run_arguments_of_nodup hsize h.arguments
    refine ⟨sc, ?_, hmodels⟩
    rw [program, run_bind_of_ok hrun]
    rfl
  | push p s ih =>
    obtain ⟨hp, hs⟩ := wellScoped_push_iff.1 h
    obtain ⟨sc, hrun, hmodels⟩ := ih hp ((length_names_le_push p s).trans hsize)
    rw [program_push, run_bind_of_ok hrun]
    exact ⟨_, hmodels.run_statement_iff.2 ⟨hs, rfl⟩, hmodels.push hs hsize⟩

/-- Only well-scoped programs are resolved. -/
theorem wellScoped_of_run_program (hsize : p.names.length ≤ UInt32.size) {r : Unit × Scope}
    (hrun : (Resolve.program p).run {} = .ok r) : p.WellScoped := by
  induction p using push_induction generalizing r with
  | arguments as =>
    rw [names_arguments, List.length_map] at hsize
    obtain ⟨u, t, hrun, -⟩ := exists_of_run_bind hrun
    exact ⟨nodup_of_run_arguments hsize hrun, by simp⟩
  | push p s ih =>
    have hlength := (length_names_le_push p s).trans hsize
    rw [program_push] at hrun
    obtain ⟨u, t, hbefore, hrun⟩ := exists_of_run_bind hrun
    have hp := ih hlength hbefore
    obtain ⟨sc, hmodel, hmodels⟩ := hp.run_program hlength
    rw [hmodel] at hbefore
    cases hbefore
    exact wellScoped_push_iff.2 ⟨hp, (hmodels.run_statement_iff.1 hrun).1⟩

theorem WellScoped.toCircuit (h : p.WellScoped) (hsize : p.names.length ≤ UInt32.size) :
    ∃ c, p.toCircuit = .ok c ∧ p.Denotes c := by
  obtain ⟨sc, hrun, hmodels⟩ := h.run_program hsize
  refine ⟨sc.circuit, ?_, hmodels.denotes⟩
  rw [Program.toCircuit, hrun]
  rfl

theorem wellScoped_of_toCircuit (hsize : p.names.length ≤ UInt32.size) {c : Circuit}
    (h : p.toCircuit = .ok c) : p.WellScoped := by
  obtain ⟨r, hrun, -⟩ := bind_eq_ok_iff.1 h
  exact wellScoped_of_run_program hsize hrun

/-- **Resolving decides the scoping rules.** A program has a circuit exactly when it is well scoped,
and then the circuit is the one that it denotes. -/
theorem toCircuit_iff_wellScoped (p : Program) (hsize : p.names.length ≤ UInt32.size) :
    ((∃ c, p.toCircuit = .ok c) ↔ p.WellScoped) ∧ ∀ c, p.toCircuit = .ok c → p.Denotes c := by
  constructor
  · constructor
    · intro h
      obtain ⟨c, hc⟩ := h
      exact wellScoped_of_toCircuit hsize hc
    · intro h
      obtain ⟨c, hc, -⟩ := h.toCircuit hsize
      exact ⟨c, hc⟩
  · intro c hc
    obtain ⟨d, hd, hdenotes⟩ := (wellScoped_of_toCircuit hsize hc).toCircuit hsize
    rw [hc] at hd
    cases hd
    exact hdenotes

/-- A composed gate is applied to a qubit, which is then measured. -/
def composeAndMeasure : Program where
  arguments := [⟨"q", .qubit⟩]
  statements := [
    ⟨["h"], .constant .h, 2⟩,
    ⟨["x"], .constant .x, 3⟩,
    ⟨["g"], .compose "h" "x" (.gate 1), 4⟩,
    ⟨[], .qrefDynGate "g" ["q"] [.qubit], 5⟩,
    ⟨["r"], .qssaGate (.gate .z) ["q"] [.qubit], 6⟩,
    ⟨["b", "s"], .qssaMeasure "r", 7⟩]

theorem toCircuit_iff_wellScoped_composeAndMeasure :
    composeAndMeasure.names.length ≤ UInt32.size ∧ composeAndMeasure.WellScoped ∧
      ∃ c, composeAndMeasure.toCircuit = .ok c ∧ composeAndMeasure.Denotes c := by
  have hsize : composeAndMeasure.names.length ≤ UInt32.size := by decide
  have hok : composeAndMeasure.toCircuit =
      .ok (Circuit.built [.argument .qubit, .constant .h, .constant .x,
        .composeAs (.ofIndex 1) (.ofIndex 2) (.gate 1), .qrefDynGate (.ofIndex 3) [.ofIndex 0],
        .qssaGate (.gate .z) [.ofIndex 0], .qssaMeasure (.ofIndex 4)]) := by
    decide +kernel
  obtain ⟨hiff, hdenotes⟩ := toCircuit_iff_wellScoped composeAndMeasure hsize
  exact ⟨hsize, hiff.1 ⟨_, hok⟩, _, hok, hdenotes _ hok⟩

end Program

end GateIR.Text

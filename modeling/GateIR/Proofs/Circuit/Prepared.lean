import GateIR.Circuit.Prepared
import GateIR.Proofs.Circuit.Growth
import GateIR.Proofs.Text.RoundTrip

/-!
# The GHZ preparation

A loop of builder calls whose handles are all known runs to its end, and builds what the calls build
one after the other (`outcome_forM_action`). The preparation adds its qubits and then runs such
loops, so it is a built circuit.

**Theorem (`ghz_prepares`).** For any number of qubits whose measurements still have handles, the
preparation is a Hadamard gate, a chain of controlled gates and the measurements, in this order. It
obeys the typing rules, and its text parses back to it.
-/

namespace GateIR.Circuit

open Relation (ReflTransGen)

variable {c : Circuit} {n : Nat}

/-! ## Loops of calls -/

/-- The circuit after some calls. -/
def after (c : Circuit) (calls : List Call) : Circuit :=
  calls.foldl (fun c call => (outcome call.action c).2) c

theorem after_append (c : Circuit) (calls more : List Call) :
    c.after (calls ++ more) = (c.after calls).after more := List.foldl_append

theorem grows_after (c : Circuit) (calls : List Call) : ReflTransGen Grows c (c.after calls) := by
  induction calls generalizing c with
  | nil => exact .refl
  | cons call calls ih => exact (grows_action c call).trans (ih _)

theorem outcome_action_of_knows {call : Call} (h : ∀ v ∈ call.handles, c.Knows v) :
    outcome call.action c = (.ok (), call.grow c) := by
  rw [Call.outcome_action, guarded_of_knows h]

theorem after_cons {call : Call} (h : ∀ v ∈ call.handles, c.Knows v) (calls : List Call) :
    c.after (call :: calls) = (call.grow c).after calls := by
  rw [after, List.foldl_cons, outcome_action_of_knows h]
  rfl

/-- A handle that is known stays known after a call. -/
theorem Knows.grow {v : Value} (hv : c.Knows v) {call : Call} (h : ∀ v ∈ call.handles, c.Knows v) :
    (call.grow c).Knows v := by
  have hgrows := grows_action c call
  rw [outcome_action_of_knows h] at hgrows
  exact hv.of_grows hgrows

/-- A loop of calls whose handles are known from the start runs to its end. -/
theorem outcome_forM_action {calls : List Call}
    (h : ∀ call ∈ calls, ∀ v ∈ call.handles, c.Knows v) :
    outcome (forM calls Call.action) c = (.ok (), c.after calls) := by
  induction calls generalizing c with
  | nil => rfl
  | cons call calls ih =>
    obtain ⟨hcall, hcalls⟩ := List.forall_mem_cons.1 h
    rw [List.forM_cons, outcome_bind_of_ok (outcome_action_of_knows hcall), after_cons hcall]
    exact ih fun call' hcall' v hv => (hcalls call' hcall' v hv).grow hcall

/-! ## Qubits -/

/-- The circuit with more qubit arguments. -/
def withQubits (c : Circuit) (n : Nat) : Circuit :=
  (List.replicate n Ty.qubit).foldl withArgument c

theorem withQubits_succ (c : Circuit) (n : Nat) :
    c.withQubits (n + 1) = (c.withQubits n).withArgument .qubit := by
  rw [withQubits, List.replicate_succ', List.foldl_append]
  rfl

theorem size_table_withQubits (c : Circuit) (n : Nat) :
    (c.withQubits n).table.size = c.table.size + n := by
  induction n with
  | zero => rfl
  | succ n ih =>
    rw [withQubits_succ, withArgument, Array.size_push, ih]
    rfl

theorem fresh_succ (c : Circuit) (n : Nat) : c.fresh (n + 1) = c.fresh n ++ [c.upcoming n] := by
  rw [fresh, List.range_succ, List.map_append]
  rfl

theorem upcoming_withQubits (c : Circuit) (n : Nat) : (c.withQubits n).upcoming 0 = c.upcoming n := by
  rw [upcoming, size_table_withQubits]
  rfl

theorem arguments_withQubits (c : Circuit) (n : Nat) :
    (c.withQubits n).arguments.toList = c.arguments.toList ++ c.fresh n := by
  induction n with
  | zero => simp [withQubits, fresh]
  | succ n ih =>
    rw [withQubits_succ, withArgument, Array.toList_push, ih, upcoming_withQubits, fresh_succ,
      List.append_assoc]

/-- Qubits are added with consecutive handles. -/
theorem outcome_addQubits_eq (c : Circuit) (n : Nat) :
    outcome (addQubits n) c = (.ok (c.fresh n), c.withQubits n) := by
  induction n with
  | zero => rfl
  | succ n ih =>
    rw [addQubits] at ih ⊢
    rw [List.replicate_succ', List.mapM_append, outcome_bind_of_ok ih, withQubits_succ, fresh_succ]
    simp [outcome_map, outcome_addArgument, Except.map, upcoming_withQubits]

theorem hasType_withQubits (h : c.table.size + n ≤ UInt32.size) :
    ∀ q ∈ c.fresh n, (c.withQubits n).HasType q .qubit := by
  induction n with
  | zero => simp [fresh]
  | succ n ih =>
    intro q hq
    rw [fresh_succ] at hq
    rw [withQubits_succ]
    rcases List.mem_append.1 hq with hq | hq
    · exact (ih (by omega) q hq).of_grows (.single (.argument .qubit))
    · obtain rfl := List.mem_singleton.1 hq
      refine ⟨⟨.qubit, .argument (c.withQubits n).arguments.size⟩, ?_, rfl⟩
      rw [index_upcoming (by omega), getElem?_table_withArgument, size_table_withQubits, if_pos rfl]

/-! ## Gates and measurements -/

/-- Gates on known qubits add no values. -/
theorem after_gates {gates : List (Attribute × List Value)}
    (h : ∀ p ∈ gates, ∀ v ∈ p.2, c.Knows v) :
    (c.after (gates.map fun p => .qrefGate p.1 p.2)).arguments = c.arguments ∧
      (c.after (gates.map fun p => .qrefGate p.1 p.2)).table.size = c.table.size ∧
      (c.after (gates.map fun p => .qrefGate p.1 p.2)).instructions.toList =
        c.instructions.toList ++ gates.map fun p => .qrefGate p.1 p.2 := by
  induction gates generalizing c with
  | nil => simp [after]
  | cons p gates ih =>
    obtain ⟨hp, hgates⟩ := List.forall_mem_cons.1 h
    have hknown : ∀ v ∈ (Call.qrefGate p.1 p.2).handles, c.Knows v := hp
    have hsize : ((Call.qrefGate p.1 p.2).grow c).table.size = c.table.size := by
      simp [Call.grow, Call.added?, withInstruction]
    have hinstruction : ((Call.qrefGate p.1 p.2).grow c).instructions =
        c.instructions.push (.qrefGate p.1 p.2) := rfl
    obtain ⟨harguments, htable, hinstructions⟩ :=
      ih fun p' hp' v hv => (hgates p' hp' v hv).grow hknown
    rw [List.map_cons, after_cons hknown]
    refine ⟨harguments, htable.trans hsize, ?_⟩
    simp [hinstructions, hinstruction]

/-- Measurements of known qubits have consecutive outcomes. -/
theorem after_measurements {qubits : List Value} (h : ∀ q ∈ qubits, c.Knows q) :
    (c.after (qubits.map .qrefMeasure)).arguments = c.arguments ∧
      (c.after (qubits.map .qrefMeasure)).table.size = c.table.size + qubits.length ∧
      (c.after (qubits.map .qrefMeasure)).instructions.toList = c.instructions.toList ++
        qubits.mapIdx fun j q => .qrefMeasure q (c.upcoming j) := by
  induction qubits generalizing c with
  | nil => simp [after]
  | cons q qubits ih =>
    obtain ⟨hq, hqubits⟩ := List.forall_mem_cons.1 h
    have hknown : ∀ v ∈ (Call.qrefMeasure q).handles, c.Knows v := by simpa [Call.handles] using hq
    have hsize : ((Call.qrefMeasure q).grow c).table.size = c.table.size + 1 := by
      simp [Call.grow, Call.added?, withInstruction]
    have hnext (j : Nat) : ((Call.qrefMeasure q).grow c).upcoming j = c.upcoming (j + 1) := by
      rw [upcoming, hsize, upcoming, Nat.add_right_comm, Nat.add_assoc]
    have hinstruction : ((Call.qrefMeasure q).grow c).instructions =
        c.instructions.push (.qrefMeasure q (c.upcoming 0)) := rfl
    obtain ⟨harguments, htable, hinstructions⟩ := ih fun v hv => (hqubits v hv).grow hknown
    rw [List.map_cons, after_cons hknown]
    refine ⟨harguments, ?_, ?_⟩
    · rw [htable, hsize, List.length_cons]
      omega
    · simp [hinstructions, hnext, hinstruction]

/-! ## The preparation -/

theorem build_of_outcome {α : Type} {b : Builder α} {a : α} (h : outcome b {} = (.ok a, c)) :
    b.build = .ok c := by
  have hrun : b.run.run {} = (.ok a, c) := h
  rw [Builder.build, hrun]

/-- The gates that entangle the qubits, with the qubits of each. -/
def ghzGates (qubits : List Value) : List (Attribute × List Value) :=
  (qubits.head?.toList.map fun q => (.gate .h, [q])) ++
    (qubits.zip qubits.tail).map fun p => (.gate .cnot, [p.1, p.2])

/-- The calls that follow the qubits. -/
def ghzCalls (qubits : List Value) : List Call :=
  ((ghzGates qubits).map fun p => .qrefGate p.1 p.2) ++ qubits.map .qrefMeasure

theorem mem_of_mem_ghzGates {qubits : List Value} {p : Attribute × List Value}
    (hp : p ∈ ghzGates qubits) : ∀ v ∈ p.2, v ∈ qubits := by
  intro v hv
  rcases List.mem_append.1 hp with hp | hp
  · obtain ⟨q, hq, rfl⟩ := List.mem_map.1 hp
    obtain rfl := List.mem_singleton.1 hv
    exact List.mem_of_mem_head? (Option.mem_toList.1 hq)
  · obtain ⟨⟨a, b⟩, hab, rfl⟩ := List.mem_map.1 hp
    obtain ⟨ha, hb⟩ := List.of_mem_zip hab
    rcases List.mem_pair.1 hv with rfl | rfl
    · exact ha
    · exact List.mem_of_mem_tail hb

theorem handles_known {qubits : List Value} (h : ∀ q ∈ qubits, c.Knows q) :
    ∀ call ∈ ghzCalls qubits, ∀ v ∈ call.handles, c.Knows v := by
  intro call hcall v hv
  rcases List.mem_append.1 hcall with hcall | hcall
  · obtain ⟨p, hp, rfl⟩ := List.mem_map.1 hcall
    exact h v (mem_of_mem_ghzGates hp v hv)
  · obtain ⟨q, hq, rfl⟩ := List.mem_map.1 hcall
    obtain rfl := List.mem_singleton.1 hv
    exact h _ hq

/-- The loops of the preparation make its calls. -/
theorem forM_ghzCalls (qubits : List Value) :
    forM (ghzCalls qubits) Call.action =
      (do
        qubits.head?.forM fun q => qrefGate (.gate .h) [q]
        (qubits.zip qubits.tail).forM fun p => qrefGate (.gate .cnot) [p.1, p.2]
        qubits.forM fun q => discard (qrefMeasure q)) := by
  rw [ghzCalls, ghzGates, List.map_append, List.forM_append, List.forM_append, bind_assoc]
  simp only [List.forM_eq_forM, List.forM_map]
  cases qubits.head? with
  | none => simp [Option.forM]; rfl
  | some q => simp [Option.forM]; rfl

/-- The calls of the preparation of `n` qubits. -/
def ghzProgram (n : Nat) : List Call := .qubits n :: ghzCalls (({} : Circuit).fresh n)

theorem built_qubits (n : Nat) : built [.qubits n] = withQubits {} n := by
  have hqubits : outcome (Call.qubits n).action {} = (.ok (), withQubits {} n) :=
    outcome_action_of_knows (by simp [Call.handles])
  rw [built, List.foldl_cons, hqubits]
  rfl

theorem built_ghzProgram (n : Nat) :
    built (ghzProgram n) = (withQubits {} n).after (ghzCalls (({} : Circuit).fresh n)) := by
  rw [← built_qubits]
  rfl

section Sized

variable (hn : n ≤ 2 ^ 31)

include hn

theorem hasType_qubit : ∀ q ∈ ({} : Circuit).fresh n, (withQubits {} n).HasType q .qubit := by
  refine hasType_withQubits ?_
  have hsize : UInt32.size = 2 ^ 32 := rfl
  simp only [List.size_toArray, List.length_nil]
  omega

/-- The preparation runs to its end, and is built by its calls. -/
theorem ghz_eq_built : ghz n = .ok (built (ghzProgram n)) := by
  have hknown := handles_known fun q hq => (hasType_qubit hn q hq).knows
  have hrun := outcome_bind_of_ok (f := fun qubits => forM (ghzCalls qubits) Call.action)
    (outcome_addQubits_eq {} n)
  rw [outcome_forM_action hknown, ← built_ghzProgram] at hrun
  simp only [forM_ghzCalls] at hrun
  exact build_of_outcome hrun

/-- What the calls of the preparation add. -/
theorem built_ghz :
    (built (ghzProgram n)).arguments.toList = ({} : Circuit).fresh n ∧
      (built (ghzProgram n)).table.size = n + n ∧
      (built (ghzProgram n)).instructions.toList =
        ((ghzGates (({} : Circuit).fresh n)).map fun p => .qrefGate p.1 p.2) ++
          (({} : Circuit).fresh n).mapIdx fun j q => .qrefMeasure q (.ofIndex (n + j)) := by
  have hknown : ∀ q ∈ ({} : Circuit).fresh n, (withQubits {} n).Knows q :=
    fun q hq => (hasType_qubit hn q hq).knows
  have hsize : (withQubits {} n).table.size = n := by simp [size_table_withQubits]
  have hempty : (withQubits {} n).instructions = #[] := instructions_foldl_withArgument _ _
  have hgates : ∀ p ∈ ghzGates (({} : Circuit).fresh n), ∀ v ∈ p.2, (withQubits {} n).Knows v :=
    fun p hp v hv => hknown v (mem_of_mem_ghzGates hp v hv)
  obtain ⟨harguments, htable, hinstructions⟩ := after_gates hgates
  obtain ⟨harguments', htable', hinstructions'⟩ :=
    after_measurements fun q hq => (hknown q hq).of_grows (grows_after _
      ((ghzGates (({} : Circuit).fresh n)).map fun p => .qrefGate p.1 p.2))
  rw [built_ghzProgram, ghzCalls, after_append, harguments', htable', hinstructions', harguments,
    htable, hinstructions, hsize, hempty, arguments_withQubits]
  simp [upcoming, htable, hsize]

end Sized

/-! ## The prepared circuit -/

/-- An instruction that obeys its rule loses nothing in the text. -/
theorem Obeys.sharesType {i : Instruction} (h : c.Obeys i) : c.SharesType i := by
  cases h with
  | quaternion _ hreal hi hj hk _ => exact ⟨_, by simpa using ⟨hreal, hi, hj, hk⟩⟩
  | _ => trivial

/-- The instructions of a preparation: a Hadamard gate on the first qubit, a controlled gate on each
pair of neighbours, and the measurements, whose outcomes come after the qubits. -/
def ghzInstructions : Nat → List Instruction
  | 0 => []
  | n + 1 =>
    .qrefGate (.gate .h) [.ofIndex 0] ::
      (((List.range n).map fun i => .qrefGate (.gate .cnot) [.ofIndex i, .ofIndex (i + 1)]) ++
        (List.range (n + 1)).map fun i => .qrefMeasure (.ofIndex i) (.ofIndex (n + 1 + i)))

theorem fresh_empty (n : Nat) : ({} : Circuit).fresh n = (List.range n).map Value.ofIndex := by
  simp [fresh, upcoming]

theorem length_ghzInstructions (n : Nat) : (ghzInstructions n).length = 2 * n := by
  cases n with
  | zero => rfl
  | succ n =>
    simp [ghzInstructions]
    omega

/-- Neighbours are one place apart. -/
theorem zip_tail_fresh (n : Nat) :
    (({} : Circuit).fresh (n + 1)).zip (({} : Circuit).fresh (n + 1)).tail =
      (List.range n).map fun i => (Value.ofIndex i, Value.ofIndex (i + 1)) := by
  refine List.ext_getElem (by simp) fun i _ _ => ?_
  simp [fresh_empty]

theorem ghzGates_fresh (n : Nat) :
    ((ghzGates (({} : Circuit).fresh n)).map fun p => Instruction.qrefGate p.1 p.2) ++
        (({} : Circuit).fresh n).mapIdx (fun j q => .qrefMeasure q (.ofIndex (n + j))) =
      ghzInstructions n := by
  cases n with
  | zero => rfl
  | succ n =>
    have hhead : (({} : Circuit).fresh (n + 1)).head? = some (.ofIndex 0) := by
      simp [fresh_empty, List.range_succ_eq_map]
    have hmeasure : (({} : Circuit).fresh (n + 1)).mapIdx
        (fun j q => Instruction.qrefMeasure q (.ofIndex (n + 1 + j))) =
          (List.range (n + 1)).map fun i => .qrefMeasure (.ofIndex i) (.ofIndex (n + 1 + i)) := by
      refine List.ext_getElem (by simp) fun i _ _ => ?_
      simp [fresh_empty]
    rw [ghzGates, hhead, zip_tail_fresh, hmeasure, ghzInstructions]
    simp [Function.comp_def]

section Sized

variable (hn : n ≤ 2 ^ 31)

include hn

theorem instructions_built_ghz : (built (ghzProgram n)).instructions.toList = ghzInstructions n := by
  rw [(built_ghz hn).2.2, ghzGates_fresh]

theorem size_built_ghz : (built (ghzProgram n)).table.size ≤ UInt32.size := by
  have hsize : UInt32.size = 2 ^ 32 := rfl
  rw [(built_ghz hn).2.1]
  omega

/-- The qubits keep their type. -/
theorem hasType_built_ghz {i : Nat} (hi : i < n) :
    (built (ghzProgram n)).HasType (.ofIndex i) .qubit := by
  rw [built_ghzProgram]
  refine (hasType_qubit hn _ ?_).of_grows (grows_after _ _)
  rw [fresh_empty]
  exact List.mem_map_of_mem (List.mem_range.2 hi)

/-- Every instruction obeys its rule: a controlled gate has two different qubits. -/
theorem obeys_built_ghz :
    ∀ i ∈ (built (ghzProgram n)).instructions, (built (ghzProgram n)).Obeys i := by
  have hqubit {i : Nat} (hi : i < n) := hasType_built_ghz hn hi
  have hwf := wellFormed_built (size_built_ghz hn)
  have hresult {q out : Value} (h : .qrefMeasure q out ∈ (built (ghzProgram n)).instructions) :
      (built (ghzProgram n)).HasType out .bool := by
    obtain ⟨types, hfix, htypes⟩ := hwf.typing _ h
    cases hfix
    exact (List.forall₂_cons.1 htypes).1
  intro i hi
  have hmem := Array.mem_toList_iff.2 hi
  rw [instructions_built_ghz hn] at hmem
  cases n with
  | zero => cases hmem
  | succ n =>
    rcases List.mem_cons.1 hmem with rfl | hi'
    · refine .qrefGate rfl ?_ (List.nodup_singleton _)
      simpa using hqubit (Nat.succ_pos n)
    · rcases List.mem_append.1 hi' with hi' | hi'
      · obtain ⟨j, hj, rfl⟩ := List.mem_map.1 hi'
        rw [List.mem_range] at hj
        have hne : Value.ofIndex j ≠ .ofIndex (j + 1) := by
          refine ne_of_apply_ne Value.index ?_
          have hsize : UInt32.size = 2 ^ 32 := rfl
          rw [Value.index_ofIndex (by omega), Value.index_ofIndex (by omega)]
          omega
        refine .qrefGate rfl ?_ (by simpa using hne)
        simpa using ⟨hqubit (by omega : j < n + 1), hqubit (by omega : j + 1 < n + 1)⟩
      · obtain ⟨j, hj, rfl⟩ := List.mem_map.1 hi'
        exact .qrefMeasure (hqubit (List.mem_range.1 hj)) (hresult hi)

theorem check_built_ghz : (built (ghzProgram n)).check = .ok () := by
  rw [check, List.forM_eq_forM, forM_eq_ok_iff]
  intro p hp
  refine checkInstruction_eq_ok_iff.2 (wellTyped_iff_obeys.2 (obeys_built_ghz hn p.1 ?_))
  exact Array.mem_toList_iff.1 (List.fst_mem_of_mem_zipIdx hp)

theorem argumentsFirst_ghz : ArgumentsFirst (ghzProgram n) := by
  refine ⟨[.qubits n], ghzCalls (({} : Circuit).fresh n), rfl, ?_, ?_⟩
  · rw [built_qubits]
    exact instructions_foldl_withArgument _ _
  · rw [built_qubits, ← Array.toList_inj, (built_ghz hn).1, arguments_withQubits]
    rfl

theorem parse_text_built_ghz :
    ∃ text, (built (ghzProgram n)).text {} = .ok text ∧
      Circuit.parse text = .ok (built (ghzProgram n)) := by
  have hsize := size_built_ghz hn
  have hwf := wellFormed_built hsize
  have hself := renumber_eq_self (inOrder_built hsize (argumentsFirst_ghz hn)) hwf
  have hshares : ∀ i ∈ (built (ghzProgram n)).instructions, (built (ghzProgram n)).SharesType i :=
    fun i hi => (obeys_built_ghz hn i hi).sharesType
  refine ⟨_, text_eq hwf {}, ?_⟩
  rw [parse_text_programFor {} (by simp), toCircuit_programFor hwf hsize hshares, hself]

/-- **The GHZ preparation is right at every size.** -/
theorem ghz_prepares :
    ∃ c, ghz n = .ok c ∧
      c.arguments.toList = (List.range n).map .ofIndex ∧
      (∀ q ∈ c.arguments, c.HasType q .qubit) ∧
      c.instructions.toList = ghzInstructions n ∧ c.instructions.size = 2 * n ∧
      c.check = .ok () ∧
      ∃ text, c.text {} = .ok text ∧ Circuit.parse text = .ok c := by
  have harguments : (built (ghzProgram n)).arguments.toList = (List.range n).map .ofIndex := by
    rw [(built_ghz hn).1, fresh_empty]
  refine ⟨_, ghz_eq_built hn, harguments, ?_, instructions_built_ghz hn, ?_, check_built_ghz hn,
    parse_text_built_ghz hn⟩
  · intro q hq
    rw [← Array.mem_toList_iff, harguments] at hq
    obtain ⟨i, hi, rfl⟩ := List.mem_map.1 hq
    exact hasType_built_ghz hn (List.mem_range.1 hi)
  · rw [← Array.length_toList, instructions_built_ghz hn, length_ghzInstructions]

end Sized

theorem ghz_prepares_three :
    3 ≤ 2 ^ 31 ∧ ∃ c, ghz 3 = .ok c ∧ c.instructions.toList =
      [.qrefGate (.gate .h) [.ofIndex 0], .qrefGate (.gate .cnot) [.ofIndex 0, .ofIndex 1],
        .qrefGate (.gate .cnot) [.ofIndex 1, .ofIndex 2], .qrefMeasure (.ofIndex 0) (.ofIndex 3),
        .qrefMeasure (.ofIndex 1) (.ofIndex 4), .qrefMeasure (.ofIndex 2) (.ofIndex 5)] ∧
      c.check = .ok () ∧ ∃ text, c.text {} = .ok text ∧ Circuit.parse text = .ok c := by
  have hle : 3 ≤ 2 ^ 31 := by decide
  obtain ⟨c, hc, -, -, hinstructions, -, hcheck, htext⟩ := ghz_prepares hle
  exact ⟨hle, c, hc, hinstructions, hcheck, htext⟩

end GateIR.Circuit

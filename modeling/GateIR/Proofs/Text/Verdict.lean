import GateIR.Proofs.Circuit.Fault
import GateIR.Proofs.Instruction.Renaming

/-!
# Printing and parsing keep the verdict

Reading a printed circuit gives its renumbering, in which every value has its type from before. The
typing check looks at types, and at handles only to tell them apart.

**Renumbering (`check_renumber`).** A renumbered circuit is checked as before. A qubit that is named
twice is reported by its new handle.

**Theorem (`check_reparsed`).** If the text of a built circuit parses, the circuit that is read
passes exactly when the built one does. Otherwise both fail at the same instruction, by the same
violation: a repeated qubit is reported by the number that it was printed with.
-/

namespace GateIR

/-- The error with every handle replaced. -/
def CircuitError.rename (f : Value → Value) : CircuitError → CircuitError
  | unknownValue v => unknownValue (f v)
  | illTyped k name cause => illTyped k name (cause.rename f)

namespace Circuit

variable {c : Circuit}

/-! ## Renumbering -/

theorem WellFormed.renamed_injOn (hwf : c.WellFormed) (hsize : c.table.size ≤ UInt32.size) :
    Set.InjOn c.renamed {v | v ∈ c.definitions} := by
  intro v hv w hw h
  have hindex := congrArg Value.index h
  rw [hwf.index_renamed hsize hv, hwf.index_renamed hsize hw] at hindex
  exact (List.idxOf_inj hv).1 hindex

/-- A renumbered circuit gives the new handles the types of the old ones. -/
theorem WellFormed.typesOf_renumber (hwf : c.WellFormed) (hsize : c.table.size ≤ UInt32.size)
    {vs : List Value} (hvs : ∀ v ∈ vs, v ∈ c.definitions) :
    c.renumber.typesOf (vs.map c.renamed) = .ok (vs.map c.tyOf) := by
  rw [typesOf_eq_ok_iff, List.forall₂_map_left_iff, List.forall₂_map_right_iff]
  refine List.forall₂_same.2 fun v hv => ?_
  obtain ⟨e, he, ht⟩ := hasType_tyOf (hwf.mem_definitions_iff.1 (hvs v hv))
  exact ⟨e, (getElem?_table_renumber hwf hsize (hvs v hv)).trans he, ht⟩

theorem WellFormed.checkInstruction_renumber (hwf : c.WellFormed)
    (hsize : c.table.size ≤ UInt32.size) {i : Instruction} (hi : i ∈ c.instructions) (k : Nat) :
    c.renumber.checkInstruction (i.rename c.renamed) k =
      (c.checkInstruction i k).mapError (CircuitError.rename c.renamed) := by
  have hoperands := hwf.mem_definitions_of_operand hi
  have hinj : Set.InjOn c.renamed {v | v ∈ i.operands} :=
    (hwf.renamed_injOn hsize).mono hoperands
  rw [hwf.checkInstruction_eq hi, checkInstruction, Instruction.operands_rename,
    Instruction.results_rename, Instruction.name_rename, hwf.typesOf_renumber hsize hoperands,
    hwf.typesOf_renumber hsize (mem_definitions_of_result hi)]
  show (Instruction.check _ _ _).mapError _ = _
  rw [Instruction.check_rename hinj]
  cases i.check (i.operands.map c.tyOf) (i.results.map c.tyOf) <;> rfl

/-- **A renumbered circuit is checked as before**, apart from the handle that is reported. -/
theorem WellFormed.check_renumber (hwf : c.WellFormed) (hsize : c.table.size ≤ UInt32.size) :
    c.renumber.check = c.check.mapError (CircuitError.rename c.renamed) := by
  have hinstructions : c.renumber.instructions.toList.zipIdx =
      c.instructions.toList.zipIdx.map (Prod.map (·.rename c.renamed) id) := by
    rw [renumber, Array.toList_map, List.zipIdx_map]
  rw [check, check, List.forM_eq_forM, hinstructions]
  refine forM_map_mapError fun p hp => ?_
  have hi : p.1 ∈ c.instructions := Array.mem_toList_iff.1 (List.fst_mem_of_mem_zipIdx hp)
  exact hwf.checkInstruction_renumber hsize hi p.2

/-! ## Reading what was printed -/

/-- If the text of a well-formed circuit parses, it parses to the renumbering. -/
theorem WellFormed.eq_renumber_of_parse (hwf : c.WellFormed) (hsize : c.table.size ≤ UInt32.size)
    {d : Circuit} (h : Circuit.parse ((c.programFor "").text 2) = .ok d) : d = c.renumber := by
  have hparse := parse_text_programFor (c := c) {} (by simp)
  rw [toCircuit_programFor hwf hsize (sharesType_of_parse_text hwf hsize h)] at hparse
  exact Except.ok.inj (h.symm.trans hparse)

/-- The number that a value is printed with is its new handle. -/
theorem WellFormed.nameOf_eq_index_renamed (hwf : c.WellFormed)
    (hsize : c.table.size ≤ UInt32.size) {v : Value} (hv : v ∈ c.definitions) :
    c.nameOf "" v = .ok (c.renamed v).index.repr := by
  rw [hwf.nameOf_eq hv, hwf.index_renamed hsize hv, nameIn, String.empty_append]

/-- A repeated qubit is one of the operands. -/
theorem mem_operands_of_fault {ts rs : List Ty} {i : Instruction} {v : Value}
    (h : Instruction.Fault ts rs i (.repeatedQubit v)) : v ∈ i.operands := by
  cases h with
  | qrefGate happ | qssaGate happ =>
    cases happ with
    | repeated hv => exact Instruction.mem_of_firstRepeated? hv
  | qrefDynGate _ happ =>
    cases happ with
    | repeated hv => exact List.mem_append_left _ (Instruction.mem_of_firstRepeated? hv)

/-- What the check of a well-formed circuit reports is a violation; a qubit in it is defined. -/
theorem WellFormed.illTyped_of_check (hwf : c.WellFormed) {e : CircuitError}
    (h : c.check = .error e) :
    ∃ k name cause, e = .illTyped k name cause ∧
      ∀ v, cause = .repeatedQubit v → v ∈ c.definitions := by
  obtain ⟨k, i, hk, he⟩ := exists_checkInstruction_of_check h
  have hi := Array.mem_of_getElem? hk
  obtain ⟨cause, rfl, hfault⟩ := hwf.fault_of_checkInstruction hi he
  refine ⟨k, i.name, cause, rfl, ?_⟩
  rintro v rfl
  exact hwf.mem_definitions_of_operand hi v (mem_operands_of_fault hfault)

/-- **Printing and parsing keep the verdict.** -/
theorem check_reparsed (calls : List Call) (hsize : (built calls).table.size ≤ UInt32.size) :
    ∃ text, (built calls).text {} = .ok text ∧ ∀ d, Circuit.parse text = .ok d →
      (d.check = .ok () ↔ (built calls).check = .ok ()) ∧
      ∀ e, (built calls).check = .error e → ∃ k name cause, e = .illTyped k name cause ∧
        d.check = .error (.illTyped k name (cause.rename (built calls).renamed)) ∧
        ∀ v, cause = .repeatedQubit v →
          (built calls).nameOf "" v = .ok ((built calls).renamed v).index.repr := by
  have hwf := wellFormed_built hsize
  refine ⟨_, text_eq hwf {}, fun d hparse => ?_⟩
  obtain rfl := hwf.eq_renumber_of_parse hsize hparse
  rw [hwf.check_renumber hsize]
  refine ⟨mapError_eq_ok_iff, fun e he => ?_⟩
  obtain ⟨k, name, cause, rfl, hdefined⟩ := hwf.illTyped_of_check he
  refine ⟨k, name, cause, rfl, by rw [he]; rfl, fun v hv => ?_⟩
  exact hwf.nameOf_eq_index_renamed hsize (hdefined v hv)

/-- Two qubits with a gate made between them, which is applied to the second one twice. -/
def entangledWithItself : List Call :=
  [.argument .qubit, .constant .cnot, .argument .qubit,
    .qrefDynGate (.ofIndex 1) [.ofIndex 2, .ofIndex 2]]

theorem check_reparsed_entangledWithItself :
    (built entangledWithItself).table.size ≤ UInt32.size ∧
      ∃ text d, (built entangledWithItself).text {} = .ok text ∧ Circuit.parse text = .ok d ∧
        (built entangledWithItself).check =
          .error (.illTyped 1 "qref.dyn_gate" (.repeatedQubit (.ofIndex 2))) ∧
        d.check = .error (.illTyped 1 "qref.dyn_gate" (.repeatedQubit (.ofIndex 1))) := by
  have hsize : (built entangledWithItself).table.size ≤ UInt32.size := by decide
  have hcheck : (built entangledWithItself).check =
      .error (.illTyped 1 "qref.dyn_gate" (.repeatedQubit (.ofIndex 2))) := rfl
  obtain ⟨text, htext, hverdict⟩ := check_reparsed entangledWithItself hsize
  have hparse : Circuit.parse text = .ok (built entangledWithItself).renumber := by
    have hwf := wellFormed_built hsize
    obtain rfl := Except.ok.inj ((text_eq hwf {}).symm.trans htext)
    rw [parse_text_programFor {} (by simp), toCircuit_programFor hwf hsize (by decide)]
  obtain ⟨k, name, cause, he, hagain, -⟩ := (hverdict _ hparse).2 _ hcheck
  cases he
  exact ⟨hsize, text, _, htext, hparse, hcheck, hagain⟩

end Circuit

end GateIR

import GateIR.Proofs.Circuit.Typing
import GateIR.Proofs.Instruction.Fault
import GateIR.Proofs.Text.RoundTrip

/-!
# What can be wrong with a built circuit

The builder records instructions without looking at types, so a built circuit may break any typing
rule by the operands that it was given. It breaks none in another way: handles are known, operands
are counted by the shape of the instruction, and results have the types that the instruction fixes.

**Theorem (`built_faults`).** A built circuit has a text, with every indentation that a string can
have, and its check reports operand faults only: never an unknown handle, a wrong count or a variable
that stands for a type and for a list. Lifting a gate never fails, and measurements and Pauli-frame
corrections fail by the type of an operand only.
-/

namespace GateIR

open Instruction (Fault)

namespace Circuit

variable {c : Circuit} {i : Instruction} {k : Nat} {e : CircuitError}

/-! ## Checking a well-formed circuit -/

/-- An instruction is checked at the types in the table. -/
theorem WellFormed.checkInstruction_eq (hwf : c.WellFormed) (hi : i ∈ c.instructions) (k : Nat) :
    c.checkInstruction i k =
      (i.check (i.operands.map c.tyOf) (i.results.map c.tyOf)).mapError (.illTyped k i.name) := by
  rw [checkInstruction, hwf.typesOf_eq (hwf.mem_definitions_of_operand hi),
    hwf.typesOf_eq (mem_definitions_of_result hi)]
  rfl

theorem WellFormed.fault_of_checkInstruction (hwf : c.WellFormed) (hi : i ∈ c.instructions)
    (h : c.checkInstruction i k = .error e) :
    ∃ cause, e = .illTyped k i.name cause ∧
      Fault (i.operands.map c.tyOf) (i.results.map c.tyOf) i cause := by
  rw [hwf.checkInstruction_eq hi] at h
  obtain ⟨cause, hcause, rfl⟩ := mapError_eq_error_iff.1 h
  obtain ⟨types, hfix, htypes⟩ := hwf.fixes_tyOf hi
  rw [← htypes] at hfix
  exact ⟨cause, rfl, Instruction.fault_of_check hfix (List.length_map _) hcause⟩

/-! ## Operand faults -/

/-- The violation does not blame anything that the builder sees to. -/
structure OperandFault (c : Circuit) (i : Instruction) (cause : Violation) : Prop where
  /-- Operands and results are as many as the instruction asks for. -/
  counted : ∀ name slot m n, cause ≠ .wrongCount name slot m n
  /-- There is one result for each operand of a gate. -/
  paired : ∀ m n, cause ≠ .resultArity m n
  /-- No variable stands for a type and for a list. -/
  unmixed : ∀ var, cause ≠ .mixedBinding var
  /-- Lifting a gate has no operand. -/
  lifted : ∀ g out, i ≠ .constant g out
  /-- Measurements and Pauli-frame corrections have a required type for each operand. -/
  required : i.name ∈ ["qref.measure", "qssa.measure", "gate.xzs"] →
    ∃ expected found, cause = .typeMismatch expected found ∧ ∃ v ∈ i.operands, c.HasType v found

theorem not_blamed_of_fault {ts rs : List Ty} {cause : Violation} (h : Fault ts rs i cause) :
    (∀ name slot m n, cause ≠ .wrongCount name slot m n) ∧ (∀ m n, cause ≠ .resultArity m n) ∧
      ∀ var, cause ≠ .mixedBinding var := by
  cases h with
  | qrefGate happ | qrefDynGate _ happ | qssaGate happ => cases happ <;> simp
  | _ => simp

theorem WellFormed.operandFault (hwf : c.WellFormed) (hi : i ∈ c.instructions) {cause : Violation}
    (h : Fault (i.operands.map c.tyOf) (i.results.map c.tyOf) i cause) :
    c.OperandFault i cause := by
  have hoperand {t : Ty} (ht : t ∈ i.operands.map c.tyOf) : ∃ v ∈ i.operands, c.HasType v t := by
    obtain ⟨v, hv, rfl⟩ := List.mem_map.1 ht
    have hdef := hwf.mem_definitions_of_operand hi v hv
    exact ⟨v, hv, hasType_tyOf (hwf.mem_definitions_iff.1 hdef)⟩
  obtain ⟨hcounted, hpaired, hunmixed⟩ := not_blamed_of_fault h
  refine ⟨hcounted, hpaired, hunmixed, ?_, fun hname => ?_⟩
  · rintro g out rfl
    cases h
  · cases h with
    | notABool ht | qrefMeasure ht | qssaMeasure ht => exact ⟨_, _, rfl, hoperand ht⟩
    | _ => simp [Instruction.name] at hname

/-- **Built circuits have operand faults only**, in every instruction and so in the one that is
reported; and they have a text, unless its indentation is too long for a string. -/
theorem built_faults (calls : List Call) (hsize : (built calls).table.size ≤ UInt32.size) :
    (∀ config, config.indent < 2 ^ 63 → ∃ text, (built calls).text config = .ok text) ∧
      (∀ v, (built calls).check ≠ .error (.unknownValue v)) ∧
      (∀ k name cause, (built calls).check = .error (.illTyped k name cause) →
        ∃ i, (built calls).instructions[k]? = some i ∧ i.name = name ∧
          (built calls).OperandFault i cause) ∧
      ∀ k i e, (built calls).instructions[k]? = some i →
        (built calls).checkInstruction i k = .error e →
          ∃ cause, e = .illTyped k i.name cause ∧ (built calls).OperandFault i cause := by
  have hwf := wellFormed_built hsize
  have hfault {k : Nat} {i : Instruction} {e : CircuitError}
      (hk : (built calls).instructions[k]? = some i)
      (he : (built calls).checkInstruction i k = .error e) :
      ∃ cause, e = .illTyped k i.name cause ∧ (built calls).OperandFault i cause := by
    have hi := Array.mem_of_getElem? hk
    obtain ⟨cause, rfl, hcause⟩ := hwf.fault_of_checkInstruction hi he
    exact ⟨cause, rfl, hwf.operandFault hi hcause⟩
  refine ⟨fun config _ => ⟨_, text_eq hwf config⟩, fun v hcheck => ?_,
    fun k name cause hcheck => ?_, fun k i e => hfault⟩
  · obtain ⟨k, i, hk, he⟩ := exists_checkInstruction_of_check hcheck
    obtain ⟨cause, heq, -⟩ := hfault hk he
    cases heq
  · obtain ⟨k', i, hk, he⟩ := exists_checkInstruction_of_check hcheck
    obtain ⟨cause', heq, hcause⟩ := hfault hk he
    cases heq
    exact ⟨i, hk, rfl, hcause⟩

/-- A lifted gate, a measurement of an unknown value, and a correction by a qubit. -/
def miscorrected : List Call :=
  [.argument .qubit, .constant .h, .qrefMeasure (.ofIndex 9),
    .xzs (.ofIndex 0) (.ofIndex 0) (.ofIndex 0)]

theorem built_faults_miscorrected :
    (built miscorrected).table.size ≤ UInt32.size ∧
      4 < 2 ^ 63 ∧ (∃ text, (built miscorrected).text ⟨4, ""⟩ = .ok text) ∧
      (built miscorrected).check = .error (.illTyped 1 "gate.xzs" (.typeMismatch .bool .qubit)) ∧
      ∃ i, (built miscorrected).instructions[1]? = some i ∧ i.name = "gate.xzs" ∧
        (built miscorrected).OperandFault i (.typeMismatch .bool .qubit) := by
  have hsize : (built miscorrected).table.size ≤ UInt32.size := by decide
  have hcheck : (built miscorrected).check =
      .error (.illTyped 1 "gate.xzs" (.typeMismatch .bool .qubit)) := rfl
  obtain ⟨htext, -, hfaults, -⟩ := built_faults miscorrected hsize
  exact ⟨hsize, by decide, htext ⟨4, ""⟩ (by decide), hcheck, hfaults _ _ _ hcheck⟩

end Circuit

end GateIR

import GateIR.Instruction.Basic
import GateIR.Typing.Constraint

/-!
# Typing rules of the instructions

`Instruction.check` is given the types of an instruction's operands and results, in the order of
`Instruction.operands` and `Instruction.results`, and reports the first violation. Every instruction
is checked with variables of its own: `T` stands for the type that several operands share, `Q` for the
qubit list whose length is the number of qubits of the gate.
-/

namespace GateIR

namespace Instruction

/-! ## Parts of rules -/

/-- All values with this rule have one gate type. -/
def sameGateType : TyConstraint := .var "T" .gate

/-- All values with this rule have one scalar type. -/
def sameScalarType : TyConstraint := .var "T" .scalar

/-- The qubits that the gate is applied to, or produces. -/
def gateQubits : RangeConstraint := .qubits "Q"

/-- The first value that repeats an earlier one or one of those already seen. -/
def firstRepeated? (seen : List Value) : List Value → Option Value
  | [] => none
  | v :: rest => if v ∈ seen then some v else firstRepeated? (v :: seen) rest

/-- No handle stands for two qubits of one application. -/
def checkDistinct (qubits : List Value) : Check Unit :=
  match firstRepeated? [] qubits with
  | none => pure ()
  | some v => throw (.repeatedQubit v)

/-- The violation by the length of a type list. -/
def wrongCount (i : Instruction) (slot : Slot) (expected : Nat) (types : List Ty) : Violation :=
  .wrongCount i.name slot expected types.length

/-! ## The rules -/

/-- The typing rule, as a check that binds the variables of the rule. -/
def rule (i : Instruction) (operands results : List Ty) : Check Unit :=
  match i with
  | constant gate _ =>
    match operands, results with
    | [], [out] => do
      (GateConstraint.mk sameGateType).check (.gate gate)
      sameGateType.check out
    | [], _ => throw (i.wrongCount .results 1 results)
    | _, _ => throw (i.wrongCount .operands 0 operands)
  | quaternion .. =>
    match operands, results with
    | [real, x, y, z], [out] => do
      [real, x, y, z].forM sameScalarType.check
      (Family.exact (.gate 1)).check out
    | [_, _, _, _], _ => throw (i.wrongCount .results 1 results)
    | _, _ => throw (i.wrongCount .operands 4 operands)
  | compose .. =>
    match operands, results with
    | [lhs, rhs], [out] => do
      sameGateType.check lhs
      sameGateType.check rhs
      sameGateType.check out
    | [_, _], _ => throw (i.wrongCount .results 1 results)
    | _, _ => throw (i.wrongCount .operands 2 operands)
  | xzs .. =>
    match operands, results with
    | [x, z, phase], [out] => do
      [x, z, phase].forM fun t => (Family.exact .bool).check t
      (Family.exact (.gate 1)).check out
    | [_, _, _], _ => throw (i.wrongCount .results 1 results)
    | _, _ => throw (i.wrongCount .operands 3 operands)
  | qrefGate gate ins =>
    match results with
    | [] => do
      (GateConstraint.qubits gateQubits.name).check gate
      gateQubits.check operands
      checkDistinct ins
    | _ => throw (i.wrongCount .results 0 results)
  | qrefDynGate ins _ =>
    match results, operands.getLast? with
    | [], some gate => do
      (TyConstraint.gateQubits gateQubits.name).check gate
      gateQubits.check operands.dropLast
      checkDistinct ins
    | [], none => throw (i.wrongCount .operands 1 operands)
    | _, _ => throw (i.wrongCount .results 0 results)
  | qrefMeasure .. =>
    match operands, results with
    | [q], [out] => do
      (Family.exact .qubit).check q
      (Family.exact .bool).check out
    | [_], _ => throw (i.wrongCount .results 1 results)
    | _, _ => throw (i.wrongCount .operands 1 operands)
  | qssaGate gate ins _ => do
    (GateConstraint.qubits gateQubits.name).check gate
    gateQubits.check operands
    (gateQubits.check results).adapt Violation.ofResults
    checkDistinct ins
  | qssaMeasure .. =>
    match operands, results with
    | [q], [out, outQubit] => do
      (Family.exact .qubit).check q
      (Family.exact .bool).check out
      (Family.exact .qubit).check outQubit
    | [_], _ => throw (i.wrongCount .results 2 results)
    | _, _ => throw (i.wrongCount .operands 1 operands)

/-- Accepts the operand and result types that obey the typing rule. -/
def check (i : Instruction) (operands results : List Ty) : Except Violation Unit :=
  ((i.rule operands results).run.run {}).1

end Instruction

end GateIR

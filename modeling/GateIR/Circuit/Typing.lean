import GateIR.Circuit.Basic
import GateIR.Instruction.Typing

/-!
# Typing of circuits

Every instruction is checked by itself, in program order; the first failure is reported with the
position and the name of the instruction.
-/

namespace GateIR

namespace Circuit

/-- Looks up the types of an instruction's operands and results, then applies its typing rule. -/
def checkInstruction (c : Circuit) (i : Instruction) (index : Nat) : Except CircuitError Unit := do
  let operands ← c.typesOf i.operands
  let results ← c.typesOf i.results
  (i.check operands results).mapError (.illTyped index i.name)

/-- Accepts the circuits whose instructions all obey their typing rules. -/
def check (c : Circuit) : Except CircuitError Unit :=
  c.instructions.toList.zipIdx.forM fun (i, index) => c.checkInstruction i index

end Circuit

end GateIR

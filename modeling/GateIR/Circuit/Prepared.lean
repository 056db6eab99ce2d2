import GateIR.Circuit.Builder

/-!
# Prepared circuits

Circuits that prepare and measure entangled states.
-/

namespace GateIR

namespace Circuit

/-- Prepares a Bell pair of qubit values and measures both. -/
def bell : Except CircuitError Circuit :=
  Builder.build do
    let first ← addArgument .qubit
    let second ← addArgument .qubit
    let hs ← qssaGate (.gate .h) [first]
    let pair ← qssaGate (.gate .cnot) (hs ++ [second])
    pair.forM fun q => discard (qssaMeasure q)

/-- Prepares a GHZ state of `n` qubit references and measures each. -/
def ghz (n : Nat) : Except CircuitError Circuit :=
  Builder.build do
    let qubits ← addQubits n
    qubits.head?.forM fun q => qrefGate (.gate .h) [q]
    (qubits.zip qubits.tail).forM fun (control, target) => qrefGate (.gate .cnot) [control, target]
    qubits.forM fun q => discard (qrefMeasure q)

end Circuit

end GateIR

import GateIR.Circuit.Basic

/-!
# Building circuits

A `Builder` action adds to a circuit. The actions record instructions without looking at their types;
they only insist that every handle they are given is in the value table, and test this before they
change anything.
-/

namespace GateIR

/-- An action on a circuit under construction; the circuit it leaves is there also when it fails. -/
abbrev Builder := ExceptT CircuitError (StateM Circuit)

/-- The circuit that an action makes out of nothing. -/
def Builder.build {α : Type} (b : Builder α) : Except CircuitError Circuit :=
  match b.run.run {} with
  | (.ok _, c) => .ok c
  | (.error e, _) => .error e

namespace Circuit

/-! ## Parts -/

/-- Adds an entry to the value table. -/
def addEntry (ty : Ty) (site : Site) : Builder Value :=
  modifyGet fun c => (.ofIndex c.table.size, { c with table := c.table.push ⟨ty, site⟩ })

/-- Adds the table entry of result `index` of the instruction that comes next. -/
def addResult (ty : Ty) (index : Nat) : Builder Value := do
  addEntry ty (.result (← get).instructions.size index)

/-- Adds an instruction. -/
def addInstruction (i : Instruction) : Builder Unit :=
  modify fun c => { c with instructions := c.instructions.push i }

/-- Fails on the first value that is not in the table. -/
def expectKnown (vs : List Value) : Builder Unit := do
  let c ← get
  vs.forM fun v => discard (c.entry v)

/-! ## Arguments -/

/-- Adds an entry argument. -/
def addArgument (ty : Ty) : Builder Value := do
  let v ← addEntry ty (.argument (← get).arguments.size)
  modify fun c => { c with arguments := c.arguments.push v }
  return v

/-- Adds entry arguments that are qubits. -/
def addQubits (n : Nat) : Builder (List Value) := (List.replicate n Ty.qubit).mapM addArgument

/-! ## Gate values -/

/-- Lifts a gate to a gate value. -/
def constant (gate : Gate) : Builder Value := do
  let out ← addResult gate.ty 0
  addInstruction (.constant gate out)
  return out

/-- The gate value of a quaternion. -/
def quaternion (real i j k : Value) : Builder Value := do
  expectKnown [real, i, j, k]
  let out ← addResult (.gate 1) 0
  addInstruction (.quaternion real i j k out)
  return out

/-- Composes two gate values; the result is declared to have a type. -/
def composeAs (lhs rhs : Value) (ty : Ty) : Builder Value := do
  expectKnown [lhs, rhs]
  let out ← addResult ty 0
  addInstruction (.compose lhs rhs out)
  return out

/-- Composes two gate values; the result has the type of the first. -/
def compose (lhs rhs : Value) : Builder Value := do
  let ty ← (← get).typeOf lhs
  composeAs lhs rhs ty

/-- The gate value of a Pauli-frame correction. -/
def xzs (x z phase : Value) : Builder Value := do
  expectKnown [x, z, phase]
  let out ← addResult (.gate 1) 0
  addInstruction (.xzs x z phase out)
  return out

/-! ## Qubit references -/

/-- Applies an attribute in gate position to qubit references. -/
def qrefGate (gate : Attribute) (qubits : List Value) : Builder Unit := do
  expectKnown qubits
  addInstruction (.qrefGate gate qubits)

/-- Applies a gate value to qubit references. -/
def qrefDynGate (gate : Value) (qubits : List Value) : Builder Unit := do
  expectKnown qubits
  expectKnown [gate]
  addInstruction (.qrefDynGate qubits gate)

/-- Measures a qubit reference; gives the outcome. -/
def qrefMeasure (qubit : Value) : Builder Value := do
  expectKnown [qubit]
  let out ← addResult .bool 0
  addInstruction (.qrefMeasure qubit out)
  return out

/-! ## Qubit values -/

/-- Applies an attribute in gate position to qubit values; gives one new qubit for each. -/
def qssaGate (gate : Attribute) (qubits : List Value) : Builder (List Value) := do
  expectKnown qubits
  let outs ← (List.range qubits.length).mapM (addResult .qubit)
  addInstruction (.qssaGate gate qubits outs)
  return outs

/-- Measures a qubit value; gives the outcome and the qubit after it. -/
def qssaMeasure (qubit : Value) : Builder (Value × Value) := do
  expectKnown [qubit]
  let out ← addResult .bool 0
  let outQubit ← addResult .qubit 1
  addInstruction (.qssaMeasure qubit out outQubit)
  return (out, outQubit)

end Circuit

end GateIR

import GateIR.Circuit.Basic
import GateIR.Json.Attribute

/-!
# JSON data of instructions and circuits
-/

namespace GateIR

instance : Codec Value where
  encode v := encode v.number
  decode j := (decode j).map Value.mk

instance : Codec Site where
  encode
    | .argument k => .variant "Argument" (encode k)
    | .result k n => .variant "Result" (.obj [("op", encode k), ("index", encode n)])
  decode j := do
    match ← j.variant? with
    | ("Argument", some k) => return .argument (← decode k)
    | ("Result", some r) => return .result (← r.field? "op") (← r.field? "index")
    | _ => none

instance : Codec Entry where
  encode e := .obj [("ty", encode e.ty), ("def", encode e.site)]
  decode j := return ⟨← j.field? "ty", ← j.field? "def"⟩

instance : Codec Instruction.Traits where
  encode t := .obj [("pure", encode t.effectFree), ("constant_like", encode t.constantLike)]
  decode j := return ⟨← j.field? "pure", ← j.field? "constant_like"⟩

namespace Instruction

/-- Writes an instruction as the variant of its dialect. -/
def toJson : Instruction → Json
  | constant gate out =>
    .variant "Gate" (.variant "Constant" (.obj [("gate", encode gate), ("out", encode out)]))
  | quaternion real i j k out =>
    .variant "Gate" (.variant "Quaternion" (.obj [("real", encode real), ("i", encode i),
      ("j", encode j), ("k", encode k), ("out", encode out)]))
  | compose lhs rhs out =>
    .variant "Gate" (.variant "Compose"
      (.obj [("lhs", encode lhs), ("rhs", encode rhs), ("out", encode out)]))
  | xzs x z phase out =>
    .variant "Gate" (.variant "Xzs" (.obj [("x", encode x), ("z", encode z),
      ("phase", encode phase), ("out", encode out)]))
  | qrefGate gate ins =>
    .variant "Qref" (.variant "Gate" (.obj [("gate", encode gate), ("ins", encode ins)]))
  | qrefDynGate ins gate =>
    .variant "Qref" (.variant "DynGate" (.obj [("ins", encode ins), ("gate", encode gate)]))
  | qrefMeasure qubit out =>
    .variant "Qref" (.variant "Measure" (.obj [("in_qubit", encode qubit), ("out", encode out)]))
  | qssaGate gate ins outs =>
    .variant "Qssa" (.variant "Gate"
      (.obj [("gate", encode gate), ("ins", encode ins), ("outs", encode outs)]))
  | qssaMeasure qubit out outQubit =>
    .variant "Qssa" (.variant "Measure" (.obj [("in_qubit", encode qubit), ("out", encode out),
      ("out_qubit", encode outQubit)]))

/-- Reads an instruction from its record, by the names of its dialect and variant. -/
def ofRecord? (dialect name : String) (j : Json) : Option Instruction :=
  match dialect, name with
  | "Gate", "Constant" => return .constant (← j.field? "gate") (← j.field? "out")
  | "Gate", "Quaternion" =>
    return .quaternion (← j.field? "real") (← j.field? "i") (← j.field? "j") (← j.field? "k")
      (← j.field? "out")
  | "Gate", "Compose" => return .compose (← j.field? "lhs") (← j.field? "rhs") (← j.field? "out")
  | "Gate", "Xzs" =>
    return .xzs (← j.field? "x") (← j.field? "z") (← j.field? "phase") (← j.field? "out")
  | "Qref", "Gate" => return .qrefGate (← j.field? "gate") (← j.field? "ins")
  | "Qref", "DynGate" => return .qrefDynGate (← j.field? "ins") (← j.field? "gate")
  | "Qref", "Measure" => return .qrefMeasure (← j.field? "in_qubit") (← j.field? "out")
  | "Qssa", "Gate" => return .qssaGate (← j.field? "gate") (← j.field? "ins") (← j.field? "outs")
  | "Qssa", "Measure" =>
    return .qssaMeasure (← j.field? "in_qubit") (← j.field? "out") (← j.field? "out_qubit")
  | _, _ => none

instance : Codec Instruction where
  encode := toJson
  decode j := do
    match ← j.variant? with
    | (dialect, some contents) =>
      match ← contents.variant? with
      | (name, some record) => ofRecord? dialect name record
      | _ => none
    | _ => none

end Instruction

instance : Codec Circuit where
  encode c := .obj [("arguments", encode c.arguments), ("values", encode c.table),
    ("ops", encode c.instructions)]
  decode j := return ⟨← j.field? "arguments", ← j.field? "values", ← j.field? "ops"⟩

end GateIR

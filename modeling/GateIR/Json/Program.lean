import GateIR.Json.Attribute
import GateIR.Text.Naming

/-!
# JSON data of programs and printer settings

Settings that are missing have their usual values; no other record has optional fields.
-/

namespace GateIR

/-- A field that has a usual value when it is missing. -/
def Json.fieldOr? {α : Type} [Codec α] (j : Json) (name : String) (usual : α) : Option α :=
  match j.get? name with
  | some contents => decode contents
  | none => some usual

instance : Codec PrintConfig where
  encode c := .obj [("indent", encode c.indent), ("value_prefix", encode c.valuePrefix)]
  decode
    | .obj fields => do
      let usual : PrintConfig := {}
      return { indent := ← (Json.obj fields).fieldOr? "indent" usual.indent
               valuePrefix := ← (Json.obj fields).fieldOr? "value_prefix" usual.valuePrefix }
    | _ => none

namespace Text

instance : Codec Argument where
  encode a := .obj [("name", encode a.name), ("ty", encode a.ty)]
  decode j := return ⟨← j.field? "name", ← j.field? "ty"⟩

namespace Body

/-- Writes an instruction as the variant of its name. -/
def toJson : Body → Json
  | constant gate => .variant "ConstantGate" (.obj [("gate", encode gate)])
  | quaternion ty real i j k =>
    .variant "Quaternion" (.obj [("ty", encode ty), ("real", encode real), ("i", encode i),
      ("j", encode j), ("k", encode k)])
  | compose lhs rhs ty =>
    .variant "Compose" (.obj [("lhs", encode lhs), ("rhs", encode rhs), ("ty", encode ty)])
  | xzs x z phase =>
    .variant "Xzs" (.obj [("x", encode x), ("z", encode z), ("phase", encode phase)])
  | qrefGate gate qubits types =>
    .variant "QrefGate"
      (.obj [("gate", encode gate), ("qubits", encode qubits), ("types", encode types)])
  | qrefDynGate gate qubits types =>
    .variant "QrefDynGate"
      (.obj [("gate", encode gate), ("qubits", encode qubits), ("types", encode types)])
  | qrefMeasure qubit => .variant "QrefMeasure" (.obj [("qubit", encode qubit)])
  | qssaGate gate qubits types =>
    .variant "QssaGate"
      (.obj [("gate", encode gate), ("qubits", encode qubits), ("types", encode types)])
  | qssaMeasure qubit => .variant "QssaMeasure" (.obj [("qubit", encode qubit)])

/-- Reads an instruction from its record, by the name of its variant. -/
def ofRecord? (name : String) (j : Json) : Option Body :=
  match name with
  | "ConstantGate" => return .constant (← j.field? "gate")
  | "Quaternion" =>
    return .quaternion (← j.field? "ty") (← j.field? "real") (← j.field? "i") (← j.field? "j")
      (← j.field? "k")
  | "Compose" => return .compose (← j.field? "lhs") (← j.field? "rhs") (← j.field? "ty")
  | "Xzs" => return .xzs (← j.field? "x") (← j.field? "z") (← j.field? "phase")
  | "QrefGate" => return .qrefGate (← j.field? "gate") (← j.field? "qubits") (← j.field? "types")
  | "QrefDynGate" => return .qrefDynGate (← j.field? "gate") (← j.field? "qubits") (← j.field? "types")
  | "QrefMeasure" => return .qrefMeasure (← j.field? "qubit")
  | "QssaGate" => return .qssaGate (← j.field? "gate") (← j.field? "qubits") (← j.field? "types")
  | "QssaMeasure" => return .qssaMeasure (← j.field? "qubit")
  | _ => none

instance : Codec Body where
  encode := toJson
  decode j := do
    match ← j.variant? with
    | (name, some record) => ofRecord? name record
    | _ => none

end Body

instance : Codec Statement where
  encode s := .obj [("results", encode s.results), ("op", encode s.body), ("line", encode s.line)]
  decode j := return ⟨← j.field? "results", ← j.field? "op", ← j.field? "line"⟩

instance : Codec Program where
  encode p := .obj [("arguments", encode p.arguments), ("statements", encode p.statements)]
  decode j := return ⟨← j.field? "arguments", ← j.field? "statements"⟩

end Text

end GateIR

import GateIR.Json.Basic
import GateIR.Typing.Binding

/-!
# JSON data of attributes and types

Angles are their coefficients, and are reduced when they are read.
-/

namespace GateIR

instance : Codec Angle where
  encode a := encode a.coefficient
  decode j := (decode j).map Angle.reduce

/-- The name of a gate without parameter, or of the variant of one with a parameter. -/
def Gate.label : Gate → String
  | .h => "H"
  | .x => "X"
  | .y => "Y"
  | .z => "Z"
  | .s => "S"
  | .sDagger => "SDagger"
  | .t => "T"
  | .tDagger => "TDagger"
  | .id => "Id"
  | .rz _ => "Rz"
  | .cnot => "CNot"
  | .cz => "CZ"
  | .toffoli => "Toffoli"

instance : Codec Gate where
  encode
    | .rz a => .variant "Rz" (encode a)
    | g => .str g.label
  decode j := do
    match ← j.variant? with
    | ("Rz", some a) => return .rz (← decode a)
    | (label, none) => Gate.allFixed.find? (·.label = label)
    | _ => none

instance : Codec FloatWidth where
  encode
    | .f16 => .str "F16"
    | .f32 => .str "F32"
    | .f64 => .str "F64"
  decode
    | .str "F16" => some .f16
    | .str "F32" => some .f32
    | .str "F64" => some .f64
    | _ => none

instance : Codec Ty where
  encode
    | .qubit => .str "Qubit"
    | .int w => .variant "Int" (encode w)
    | .float w => .variant "Float" (encode w)
    | .index => .str "Index"
    | .gate n => .variant "Gate" (.obj [("num_qubits", encode n)])
  decode j := do
    match ← j.variant? with
    | ("Qubit", none) => return .qubit
    | ("Int", some w) => return .int (← decode w)
    | ("Float", some w) => return .float (← decode w)
    | ("Index", none) => return .index
    | ("Gate", some g) => return .gate (← g.field? "num_qubits")
    | _ => none

instance : Codec Attribute where
  encode
    | .gate g => .variant "Gate" (encode g)
    | .angle a => .variant "Angle" (encode a)
    | .ty t => .variant "Type" (encode t)
    | .int n => .variant "Int" (encode n)
  decode j := do
    match ← j.variant? with
    | ("Gate", some g) => return .gate (← decode g)
    | ("Angle", some a) => return .angle (← decode a)
    | ("Type", some t) => return .ty (← decode t)
    | ("Int", some n) => return .int (← decode n)
    | _ => none

instance : Codec Binding where
  encode
    | .type t => .variant "Type" (encode t)
    | .range ts => .variant "Range" (encode ts)
    | .qubits n => .variant "Qubits" (encode n)
  decode j := do
    match ← j.variant? with
    | ("Type", some t) => return .type (← decode t)
    | ("Range", some ts) => return .range (← decode ts)
    | ("Qubits", some n) => return .qubits (← decode n)
    | _ => none

end GateIR

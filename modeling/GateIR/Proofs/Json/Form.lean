import Mathlib.Tactic
import GateIR.Json.Circuit
import GateIR.Json.Program

/-!
# Forms of JSON data

Which data stands for which value, said type by type and without encoding or decoding. These are the
forms of the data protocol, and the only ones that are written. A record has its fields by their
names, in any order and among any others; a variant is its name alone, or its name with the contents.

A reader that is derived from the types takes more than that: the fields of a record as an array, in
their order, and a variant without contents as an object whose one field is null. It also refuses a
record in which a field is repeated, of which the first counts here. Such data is left aside.

The only data that is not taken as it stands is an angle, whose coefficient is reduced. The only
fields that may be missing are those of the printer settings.
-/

namespace GateIR

open Text (Argument Body Program Statement)

variable {α : Type}

/-! ## Records and lists -/

/-- The record has a field whose contents stand for the value. -/
def Json.Field (j : Json) (name : String) (form : Json → α → Prop) (a : α) : Prop :=
  ∃ contents, j.get? name = some contents ∧ form contents a

/-- The record has such a field, or it does not have the field and the value is the usual one. -/
def Json.FieldOr (j : Json) (name : String) (usual : α) (form : Json → α → Prop) (a : α) : Prop :=
  j.Field name form a ∨ j.get? name = none ∧ a = usual

/-- The items stand for the elements of a list, one by one. -/
inductive ListForm (form : Json → α → Prop) : Json → List α → Prop
  | arr {items : List Json} {as : List α} : List.Forall₂ form items as →
      ListForm form (.arr items) as

/-- The items stand for the elements of an array. -/
def ArrayForm (form : Json → α → Prop) (j : Json) (as : Array α) : Prop := ListForm form j as.toList

/-! ## Scalars -/

inductive StringForm : Json → String → Prop
  | str (s : String) : StringForm (.str s) s

/-- A number of 32 bits. -/
inductive WordForm : Json → UInt32 → Prop
  | int (n : UInt32) : WordForm (.int n.toNat) n

inductive Int64Form : Json → Int64 → Prop
  | int (n : Int64) : Int64Form (.int n.toInt) n

/-- A count or a position has 64 bits. -/
inductive CountForm : Json → Nat → Prop
  | int {n : Nat} : n < UInt64.size → CountForm (.int n) n

/-! ## Attributes and types -/

/-- The coefficient of an angle is reduced; a whole number stands for the double nearest to it. -/
inductive AngleForm : Json → Angle → Prop
  | real (x : Binary64) : AngleForm (.real x) (.reduce x)
  | int (n : Int) : AngleForm (.int n) (.reduce (.ofInt n))

/-- The names of the gates without a parameter. -/
def gateLabels : List (String × Gate) :=
  [("H", .h), ("X", .x), ("Y", .y), ("Z", .z), ("S", .s), ("SDagger", .sDagger), ("T", .t),
    ("TDagger", .tDagger), ("Id", .id), ("CNot", .cnot), ("CZ", .cz), ("Toffoli", .toffoli)]

inductive GateForm : Json → Gate → Prop
  | fixed {label : String} {g : Gate} : (label, g) ∈ gateLabels → GateForm (.str label) g
  | rz {j : Json} {a : Angle} : AngleForm j a → GateForm (.variant "Rz" j) (.rz a)

/-- The names of the widths. -/
def widthLabels : List (String × FloatWidth) := [("F16", .f16), ("F32", .f32), ("F64", .f64)]

inductive FloatWidthForm : Json → FloatWidth → Prop
  | mk {label : String} {w : FloatWidth} : (label, w) ∈ widthLabels → FloatWidthForm (.str label) w

inductive TyForm : Json → Ty → Prop
  | qubit : TyForm (.str "Qubit") .qubit
  | int {j : Json} {w : UInt32} : WordForm j w → TyForm (.variant "Int" j) (.int w)
  | float {j : Json} {w : FloatWidth} : FloatWidthForm j w → TyForm (.variant "Float" j) (.float w)
  | index : TyForm (.str "Index") .index
  | gate {r : Json} {n : UInt32} : r.Field "num_qubits" WordForm n →
      TyForm (.variant "Gate" r) (.gate n)

inductive AttributeForm : Json → Attribute → Prop
  | gate {j : Json} {g : Gate} : GateForm j g → AttributeForm (.variant "Gate" j) (.gate g)
  | angle {j : Json} {a : Angle} : AngleForm j a → AttributeForm (.variant "Angle" j) (.angle a)
  | ty {j : Json} {t : Ty} : TyForm j t → AttributeForm (.variant "Type" j) (.ty t)
  | int {j : Json} {n : Int64} : Int64Form j n → AttributeForm (.variant "Int" j) (.int n)

inductive BindingForm : Json → Binding → Prop
  | type {j : Json} {t : Ty} : TyForm j t → BindingForm (.variant "Type" j) (.type t)
  | range {j : Json} {ts : List Ty} : ListForm TyForm j ts →
      BindingForm (.variant "Range" j) (.range ts)
  | qubits {j : Json} {n : UInt32} : WordForm j n → BindingForm (.variant "Qubits" j) (.qubits n)

/-! ## Circuits -/

/-- A value is its number. -/
inductive ValueForm : Json → Value → Prop
  | mk {j : Json} {n : UInt32} : WordForm j n → ValueForm j ⟨n⟩

inductive SiteForm : Json → Site → Prop
  | argument {j : Json} {n : Nat} : CountForm j n → SiteForm (.variant "Argument" j) (.argument n)
  | result {r : Json} {k n : Nat} : r.Field "op" CountForm k → r.Field "index" CountForm n →
      SiteForm (.variant "Result" r) (.result k n)

inductive EntryForm : Json → Entry → Prop
  | mk {r : Json} {t : Ty} {s : Site} : r.Field "ty" TyForm t → r.Field "def" SiteForm s →
      EntryForm r ⟨t, s⟩

/-- An instruction is a variant of its dialect. -/
inductive InstructionForm : Json → Instruction → Prop
  | constant {r : Json} {g : Gate} {out : Value} :
      r.Field "gate" GateForm g → r.Field "out" ValueForm out →
      InstructionForm (.variant "Gate" (.variant "Constant" r)) (.constant g out)
  | quaternion {r : Json} {real i j k out : Value} :
      r.Field "real" ValueForm real → r.Field "i" ValueForm i → r.Field "j" ValueForm j →
      r.Field "k" ValueForm k → r.Field "out" ValueForm out →
      InstructionForm (.variant "Gate" (.variant "Quaternion" r)) (.quaternion real i j k out)
  | compose {r : Json} {lhs rhs out : Value} :
      r.Field "lhs" ValueForm lhs → r.Field "rhs" ValueForm rhs → r.Field "out" ValueForm out →
      InstructionForm (.variant "Gate" (.variant "Compose" r)) (.compose lhs rhs out)
  | xzs {r : Json} {x z phase out : Value} :
      r.Field "x" ValueForm x → r.Field "z" ValueForm z → r.Field "phase" ValueForm phase →
      r.Field "out" ValueForm out →
      InstructionForm (.variant "Gate" (.variant "Xzs" r)) (.xzs x z phase out)
  | qrefGate {r : Json} {a : Attribute} {ins : List Value} :
      r.Field "gate" AttributeForm a → r.Field "ins" (ListForm ValueForm) ins →
      InstructionForm (.variant "Qref" (.variant "Gate" r)) (.qrefGate a ins)
  | qrefDynGate {r : Json} {ins : List Value} {g : Value} :
      r.Field "ins" (ListForm ValueForm) ins → r.Field "gate" ValueForm g →
      InstructionForm (.variant "Qref" (.variant "DynGate" r)) (.qrefDynGate ins g)
  | qrefMeasure {r : Json} {q out : Value} :
      r.Field "in_qubit" ValueForm q → r.Field "out" ValueForm out →
      InstructionForm (.variant "Qref" (.variant "Measure" r)) (.qrefMeasure q out)
  | qssaGate {r : Json} {a : Attribute} {ins outs : List Value} :
      r.Field "gate" AttributeForm a → r.Field "ins" (ListForm ValueForm) ins →
      r.Field "outs" (ListForm ValueForm) outs →
      InstructionForm (.variant "Qssa" (.variant "Gate" r)) (.qssaGate a ins outs)
  | qssaMeasure {r : Json} {q out outQubit : Value} :
      r.Field "in_qubit" ValueForm q → r.Field "out" ValueForm out →
      r.Field "out_qubit" ValueForm outQubit →
      InstructionForm (.variant "Qssa" (.variant "Measure" r)) (.qssaMeasure q out outQubit)

inductive CircuitForm : Json → Circuit → Prop
  | mk {r : Json} {arguments : Array Value} {table : Array Entry}
      {instructions : Array Instruction} :
      r.Field "arguments" (ArrayForm ValueForm) arguments →
      r.Field "values" (ArrayForm EntryForm) table →
      r.Field "ops" (ArrayForm InstructionForm) instructions →
      CircuitForm r ⟨arguments, table, instructions⟩

/-! ## Programs and printer settings -/

inductive ArgumentForm : Json → Argument → Prop
  | mk {r : Json} {name : String} {t : Ty} : r.Field "name" StringForm name →
      r.Field "ty" TyForm t → ArgumentForm r ⟨name, t⟩

inductive BodyForm : Json → Body → Prop
  | constant {r : Json} {g : Gate} : r.Field "gate" GateForm g →
      BodyForm (.variant "ConstantGate" r) (.constant g)
  | quaternion {r : Json} {t : Ty} {real i j k : String} :
      r.Field "ty" TyForm t → r.Field "real" StringForm real → r.Field "i" StringForm i →
      r.Field "j" StringForm j → r.Field "k" StringForm k →
      BodyForm (.variant "Quaternion" r) (.quaternion t real i j k)
  | compose {r : Json} {lhs rhs : String} {t : Ty} :
      r.Field "lhs" StringForm lhs → r.Field "rhs" StringForm rhs → r.Field "ty" TyForm t →
      BodyForm (.variant "Compose" r) (.compose lhs rhs t)
  | xzs {r : Json} {x z phase : String} :
      r.Field "x" StringForm x → r.Field "z" StringForm z → r.Field "phase" StringForm phase →
      BodyForm (.variant "Xzs" r) (.xzs x z phase)
  | qrefGate {r : Json} {a : Attribute} {qubits : List String} {types : List Ty} :
      r.Field "gate" AttributeForm a → r.Field "qubits" (ListForm StringForm) qubits →
      r.Field "types" (ListForm TyForm) types →
      BodyForm (.variant "QrefGate" r) (.qrefGate a qubits types)
  | qrefDynGate {r : Json} {g : String} {qubits : List String} {types : List Ty} :
      r.Field "gate" StringForm g → r.Field "qubits" (ListForm StringForm) qubits →
      r.Field "types" (ListForm TyForm) types →
      BodyForm (.variant "QrefDynGate" r) (.qrefDynGate g qubits types)
  | qrefMeasure {r : Json} {q : String} : r.Field "qubit" StringForm q →
      BodyForm (.variant "QrefMeasure" r) (.qrefMeasure q)
  | qssaGate {r : Json} {a : Attribute} {qubits : List String} {types : List Ty} :
      r.Field "gate" AttributeForm a → r.Field "qubits" (ListForm StringForm) qubits →
      r.Field "types" (ListForm TyForm) types →
      BodyForm (.variant "QssaGate" r) (.qssaGate a qubits types)
  | qssaMeasure {r : Json} {q : String} : r.Field "qubit" StringForm q →
      BodyForm (.variant "QssaMeasure" r) (.qssaMeasure q)

inductive StatementForm : Json → Statement → Prop
  | mk {r : Json} {results : List String} {b : Body} {line : Nat} :
      r.Field "results" (ListForm StringForm) results → r.Field "op" BodyForm b →
      r.Field "line" CountForm line → StatementForm r ⟨results, b, line⟩

inductive ProgramForm : Json → Program → Prop
  | mk {r : Json} {arguments : List Argument} {statements : List Statement} :
      r.Field "arguments" (ListForm ArgumentForm) arguments →
      r.Field "statements" (ListForm StatementForm) statements →
      ProgramForm r ⟨arguments, statements⟩

inductive PrintConfigForm : Json → PrintConfig → Prop
  | mk {fields : List (String × Json)} {indent : Nat} {namePrefix : String} :
      (Json.obj fields).FieldOr "indent" 2 CountForm indent →
      (Json.obj fields).FieldOr "value_prefix" "" StringForm namePrefix →
      PrintConfigForm (.obj fields) ⟨indent, namePrefix⟩

end GateIR

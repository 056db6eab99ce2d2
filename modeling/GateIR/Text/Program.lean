import GateIR.Attribute

/-!
# Programs

The syntax tree of a circuit text. Values still go by their names, without the `%`; resolving the names
gives a circuit.

`Program.text` is the canonical layout: a header line with the arguments, one indented line for each
statement, and a closing brace.
-/

namespace GateIR.Text

/-- An instruction with its operands by name. -/
inductive Body where
  | constant (gate : Gate)
  /-- All four operands are annotated with one type. -/
  | quaternion (ty : Ty) (real i j k : String)
  /-- The annotation is the type of the result. -/
  | compose (lhs rhs : String) (ty : Ty)
  | xzs (x z phase : String)
  | qrefGate (gate : Attribute) (qubits : List String) (types : List Ty)
  | qrefDynGate (gate : String) (qubits : List String) (types : List Ty)
  | qrefMeasure (qubit : String)
  | qssaGate (gate : Attribute) (qubits : List String) (types : List Ty)
  | qssaMeasure (qubit : String)
deriving DecidableEq

/-- An entry argument. -/
structure Argument where
  name : String
  ty : Ty
deriving DecidableEq

/-- An instruction with the names of its results. -/
structure Statement where
  results : List String
  body : Body
  /-- The line of the first token. -/
  line : Nat
deriving DecidableEq

/-- A whole circuit text. -/
structure Program where
  arguments : List Argument
  statements : List Statement
deriving DecidableEq

namespace Body

/-- The dialect and the name. -/
def name : Body → String
  | constant .. => "gate.constant"
  | quaternion .. => "gate.quaternion"
  | compose .. => "gate.compose"
  | xzs .. => "gate.xzs"
  | qrefGate .. => "qref.gate"
  | qrefDynGate .. => "qref.dyn_gate"
  | qrefMeasure .. => "qref.measure"
  | qssaGate .. => "qssa.gate"
  | qssaMeasure .. => "qssa.measure"

/-- The number of results. -/
def resultCount : Body → Nat
  | qrefGate .. | qrefDynGate .. => 0
  | qssaGate _ qubits _ => qubits.length
  | qssaMeasure .. => 2
  | _ => 1

/-! ## Layout -/

/-- Value names with commas between them. -/
def namesText (names : List String) : String := ", ".intercalate (names.map ("%" ++ ·))

/-- An operand list with its types; an empty one is left out. -/
def operandsText (qubits : List String) (types : List Ty) : String :=
  if qubits = [] then ""
  else " " ++ namesText qubits ++ " : " ++ ", ".intercalate (types.map Ty.text)

def text (b : Body) : String :=
  b.name ++
    match b with
    | constant g => " " ++ g.text
    | quaternion t real i j k =>
      "<" ++ t.text ++ "> %" ++ real ++ " + %" ++ i ++ " i + %" ++ j ++ " j + %" ++ k ++ " k"
    | compose lhs rhs t => " " ++ namesText [lhs, rhs] ++ " : " ++ t.text
    | xzs x z phase => " " ++ namesText [x, z, phase]
    | qrefGate a qubits types => "<" ++ a.text ++ ">" ++ operandsText qubits types
    | qrefDynGate g qubits types => "<%" ++ g ++ ">" ++ operandsText qubits types
    | qrefMeasure q => " " ++ namesText [q]
    | qssaGate a qubits types => "<" ++ a.text ++ ">" ++ operandsText qubits types
    | qssaMeasure q => " " ++ namesText [q]

end Body

def Argument.text (a : Argument) : String := "%" ++ a.name ++ " : " ++ a.ty.text

def Statement.text (s : Statement) : String :=
  (if s.results = [] then "" else Body.namesText s.results ++ " = ") ++ s.body.text

/-- The canonical layout, with a number of spaces before each statement. -/
def Program.text (p : Program) (indent : Nat) : String :=
  "circuit(" ++ ", ".intercalate (p.arguments.map Argument.text) ++ ") \x7b\n" ++
    String.join (p.statements.map fun s =>
      String.ofList (List.replicate indent ' ') ++ s.text ++ "\n") ++
    "\x7d\n"

end GateIR.Text

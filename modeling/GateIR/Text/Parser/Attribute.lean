import GateIR.Text.Parser.Basic

/-!
# Parsing angles, gates, types and attributes

- An angle is `[-][numeral][pi]`. A missing numeral counts as `1` before `pi` and as `0` alone; a
  nonzero numeral needs its `pi`.
- A gate is `#gate.` and a name; `rz` has an angle in angle brackets. `#gate.angle` with an angle is an
  attribute of its own.
- A type is `!qubit`, `!gate.type` with a number of qubits, or one of the words `index`, `iN`, `f16`,
  `f32` and `f64`.
- An attribute is any of these but a bare angle, or an integer of 64 bits.
-/

namespace GateIR

/-- The type of a word: `index`, or `i` or `f` with a width. -/
def Ty.ofWord? (name : String) : Option Ty :=
  if name = "index" then some .index
  else
    match name.toList with
    | kind :: width =>
      if width ≠ [] ∧ width.all Char.isDigit ∧ Text.digitsValue width < UInt32.size then
        if kind = 'i' then some (.int (.ofNat (Text.digitsValue width)))
        else if kind = 'f' then (FloatWidth.ofBits? (Text.digitsValue width)).map .float
        else none
      else none
    | [] => none

namespace Text.Parser

/-! ## Angles -/

/-- The number that a numeral token stands for. -/
def coefficient? : Token → Option Binary64
  | .real x => some x
  | .int n => some (.ofInt n)
  | _ => none

def angle : Parser Angle := do
  let negative ← accept (.symbol .minus)
  let coefficient ← lexeme? coefficient?
  let hasPi ← accept .pi
  let x ←
    match coefficient, hasPi with
    | some (x, _), true => pure x
    | none, true => pure .one
    | none, false => pure .zero
    | some (x, line), false => if x = .zero then pure .zero else fail (.missingPi line x)
  return .reduce (if negative then x.neg else x)

/-- An angle in angle brackets, with the line of the closing one. -/
def bracketedAngle : Parser (Angle × Nat) := do
  expect (.symbol .less)
  let a ← angle
  let close ← expectAt (.symbol .greater)
  return (a, close)

/-! ## Gates -/

/-- What may follow `#gate.`. -/
inductive GateDialect where
  | gate (g : Gate)
  /-- A standalone angle, with the line of its closing bracket. -/
  | angle (a : Angle) (close : Nat)

def gateDialect : Parser GateDialect := do
  expect (.symbol .hash)
  keyword "gate"
  expect (.symbol .dot)
  let name ← identifier
  if name = "rz" then
    let (a, _) ← bracketedAngle
    return .gate (.rz a)
  else if name = "angle" then
    let (a, close) ← bracketedAngle
    return .angle a close
  else
    match Gate.ofName? name with
    | some g => return .gate g
    | none => fail (.unknownGate name)

def gate : Parser Gate := do
  match ← gateDialect with
  | .gate g => return g
  | .angle a close => fail (.unexpectedToken close "gate attribute" (Attribute.angle a).text)

/-! ## Types -/

/-- An integer below `2^32`. -/
def word32 : Parser UInt32 := do
  let (n, line) ← integer
  if n < UInt32.size then return .ofNat n
  else fail (.unexpectedToken line "32-bit integer" n.repr)

/-- What may follow the `!` of a type. -/
def markedTy : Parser Ty := do
  let name ← identifier
  if name = "qubit" then return .qubit
  else if name = "gate" then
    expect (.symbol .dot)
    keyword "type"
    expect (.symbol .less)
    let n ← word32
    expect (.symbol .greater)
    return .gate n
  else fail (.unknownType ("!" ++ name))

/-- The two ways in which a type starts. -/
inductive TyStart where
  | bang
  | word (name : String)

def ty : Parser Ty := do
  let start ← token "type" fun
    | .symbol .bang => some TyStart.bang
    | .word name => some (.word name)
    | _ => none
  match start with
  | .bang => markedTy
  | .word name =>
    match Ty.ofWord? name with
    | some t => return t
    | none => fail (.unknownType name)

/-! ## Attributes -/

/-- A signed integer of 64 bits. -/
def int64 : Parser Int64 := do
  let negative ← accept (.symbol .minus)
  let (n, line) ← integer
  let signed : Int := if negative then -n else n
  if Int64.minValue.toInt ≤ signed ∧ signed ≤ Int64.maxValue.toInt then return .ofInt signed
  else fail (.unexpectedToken line "64-bit integer" signed.repr)

def attr : Parser Attribute := do
  match ← peek with
  | some (.symbol .hash) =>
    match ← gateDialect with
    | .gate g => return .gate g
    | .angle a _ => return .angle a
  | some (.symbol .bang) | some (.word _) => return .ty (← ty)
  | some (.int _) | some (.symbol .minus) => return .int (← int64)
  | _ => token "attribute" fun _ => none

end Text.Parser

end GateIR

import GateIR.Binary64.Decimal

/-!
# JSON data

JSON values with whole numbers and doubles told apart. A `Codec` writes the values of a type as data and
reads them back; reading fails without a reason on data of another form.

**Records** are objects; fields that a record does not have are passed over. **Variants** are a name
alone, or an object whose single field is the name with the contents of the variant. These are the
forms of the protocol, and no others are read: not a record as an array, nor a variant without
contents as an object with null in its field.
-/

namespace GateIR

/-- A JSON value. -/
inductive Json where
  | null
  | bool (b : Bool)
  /-- A number without fraction. -/
  | int (n : Int)
  /-- A double. -/
  | real (x : Binary64)
  | str (s : String)
  | arr (items : List Json)
  | obj (fields : List (String × Json))
deriving Inhabited

namespace Json

/-- The field of a record. -/
def get? (name : String) : Json → Option Json
  | obj fields => fields.lookup name
  | _ => none

/-- The name and the contents of a variant. -/
def variant? : Json → Option (String × Option Json)
  | str name => some (name, none)
  | obj [(name, contents)] => some (name, some contents)
  | _ => none

/-- A variant with contents. -/
def variant (name : String) (contents : Json) : Json := obj [(name, contents)]

/-- A whole number in a range, both ends included. -/
def intIn? (low high : Int) : Json → Option Int
  | int n => if low ≤ n ∧ n ≤ high then some n else none
  | _ => none

end Json

/-- Values of a type as JSON data. -/
class Codec (α : Type) where
  encode : α → Json
  decode : Json → Option α

export Codec (encode decode)

/-- The decoded field of a record. -/
def Json.field? {α : Type} [Codec α] (j : Json) (name : String) : Option α :=
  (j.get? name).bind decode

instance : Codec Bool where
  encode := .bool
  decode
    | .bool b => some b
    | _ => none

instance : Codec String where
  encode := .str
  decode
    | .str s => some s
    | _ => none

/-- A whole number stands for the double nearest to it. -/
instance : Codec Binary64 where
  encode := .real
  decode
    | .real x => some x
    | .int n => some (.ofInt n)
    | _ => none

instance : Codec UInt32 where
  encode n := .int n.toNat
  decode j := (j.intIn? 0 (UInt32.size - 1)).map fun n => .ofNat n.toNat

instance : Codec Int64 where
  encode n := .int n.toInt
  decode j := (j.intIn? Int64.minValue.toInt Int64.maxValue.toInt).map .ofInt

/-- Counts and positions have 64 bits. -/
instance : Codec Nat where
  encode n := .int n
  decode j := (j.intIn? 0 (UInt64.size - 1)).map Int.toNat

instance {α : Type} [Codec α] : Codec (List α) where
  encode as := .arr (as.map encode)
  decode
    | .arr items => items.mapM decode
    | _ => none

instance {α : Type} [Codec α] : Codec (Array α) where
  encode as := encode as.toList
  decode j := (decode j).map List.toArray

end GateIR

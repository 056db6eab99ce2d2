import GateIR.Binary64.Decimal

/-!
# Rotation angles

An angle is a multiple of `π`, held as a coefficient in `[0, 2)`. The type holds canonical
coefficients only: their bits lie below those of `2`, which leaves out negative numbers, `-0`,
infinities and NaN.

**Reduction.** `Angle.reduce` takes any double to the circle: the exact residue modulo `2` is rounded
to a double, and a residue that rounds to `2` is the zero angle, as is anything not finite.

**Arithmetic.** Sums, differences and negations are computed on coefficients as double arithmetic
does, rounded once, and then reduced.
-/

namespace GateIR

/-- A coefficient of `π`, reduced to `[0, 2)`. -/
structure Angle where
  coefficient : Binary64
  lt_two : coefficient.bits < Binary64.two.bits
deriving DecidableEq

namespace Angle

def zero : Angle := ⟨.zero, by decide⟩

/-- The angle `π`. -/
def pi : Angle := ⟨.one, by decide⟩

instance : Inhabited Angle := ⟨zero⟩

/-- The coefficient in units. -/
def units (a : Angle) : Nat := Binary64.unitsOfBits a.coefficient.bits.toNat

def isZero (a : Angle) : Bool := a = zero

/-! ## Reduction -/

/-- The canonical angle of a coefficient that is already in `[0, 2]`: `2` is zero again. -/
def ofCoefficient (x : Binary64) : Angle :=
  if h : x.bits < Binary64.two.bits then ⟨x, h⟩ else zero

/-- The angle whose coefficient is a double, reduced modulo `2`. -/
def reduce (x : Binary64) : Angle :=
  match x.units? with
  | none => zero
  | some n => ofCoefficient (.ofUnits (n % (2 * Binary64.oneUnits : Nat)))

/-- The angle of a number of radians. -/
def ofRadians (r : Binary64) : Angle :=
  match r.units? with
  | none => zero
  | some n =>
    reduce (.ofRatio (n * Binary64.oneUnits) (Binary64.unitsOfBits Binary64.pi.bits.toNat))

/-- The angle in radians. -/
def radians (a : Angle) : Binary64 :=
  .ofRatio (a.units * Binary64.unitsOfBits Binary64.pi.bits.toNat : Nat) Binary64.oneUnits

/-! ## Arithmetic -/

instance : Add Angle := ⟨fun a b => reduce (.ofUnits (a.units + b.units))⟩

instance : Sub Angle := ⟨fun a b => reduce (.ofUnits (a.units - b.units : Int))⟩

instance : Neg Angle := ⟨fun a => reduce (.ofUnits (-a.units))⟩

/-! ## Text -/

/-- The canonical spelling: `0`, `pi`, or the coefficient followed by `pi`. -/
def text (a : Angle) : String :=
  if a = zero then "0" else if a = pi then "pi" else a.coefficient.text ++ "pi"

end Angle

end GateIR

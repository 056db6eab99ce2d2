import GateIR.Binary64.Basic

/-!
# Decimal text of binary64 numbers

**Reading.** `Binary64.ofDecimal` is the double nearest to an exact decimal `mantissa · 10^exponent`,
however many digits the mantissa has and however large the exponent is.

**Writing.** `Binary64.text` has the fewest significant digits that read back to the same double, and
of those the nearest to its value; it is positional, without an exponent, and whole numbers carry no
point.

The digits are found by exact integer arithmetic. Everything is scaled to multiples of `10^-1074`, of
which every unit `2^-1074` is a whole number (`5^1074`), and the decimal grids `10^n` are tried from
the coarsest down: the first grid with a point in the rounding interval of the number wins.
-/

namespace GateIR

/-- The exact number `mantissa · 10^exponent`. -/
structure Decimal where
  mantissa : Nat
  exponent : Int
deriving DecidableEq, Repr

/-! ## Positional text -/

/-- The powers of ten. -/
def tenPow (k : Nat) : Nat := Nat.pow 10 k

/-- The digits of a natural number, most significant first. -/
def decimalDigits (n : Nat) : List Char := Nat.toDigits 10 n

/-- Positional notation: zeros after a whole number, a point only before a fraction. -/
def Decimal.text (d : Decimal) : List Char :=
  match d.exponent with
  | .ofNat k => decimalDigits d.mantissa ++ List.replicate k '0'
  | .negSucc k =>
    decimalDigits (d.mantissa / tenPow (k + 1)) ++
      '.' :: (decimalDigits (d.mantissa % tenPow (k + 1))).leftpad (k + 1) '0'

namespace Binary64

/-! ## Reading -/

/-- The double nearest to an exact decimal.

A nonzero decimal with an exponent above 400 overflows. One with `l + 1` mantissa bits lies below
`10^(l / 3 + 1 + exponent)`, hence below half a unit when that exponent is less than `-324`. The
two tests only keep the powers of ten small. -/
def ofDecimal (d : Decimal) : Binary64 :=
  if d.mantissa = 0 ∨ d.exponent + (Nat.log2 d.mantissa / 3 + 1 : Nat) < -324 then zero
  else if 400 < d.exponent then infinity
  else
    match d.exponent with
    | .ofNat k => ofRatio (d.mantissa * tenPow k * oneUnits : Nat) 1
    | .negSucc k => ofRatio (d.mantissa * oneUnits : Nat) (tenPow (k + 1))

/-! ## Writing -/

/-- The decimals that round to one double, in halves of `10^-1074`. -/
structure RoundingInterval where
  low : Nat
  value : Nat
  high : Nat
  /-- Whether the two ends round to the double too. -/
  closed : Bool

/-- The number of multiples of `10^-1074` in a unit. -/
def decimalsPerUnit : Nat := Nat.pow 5 1074

/-- The rounding interval of a finite nonzero magnitude: it ends half way to its two neighbours,
and a tie is won by the magnitude whose last bit is zero. -/
def RoundingInterval.ofBits (m : Nat) : RoundingInterval where
  low := (unitsOfBits (m - 1) + unitsOfBits m) * decimalsPerUnit
  value := 2 * unitsOfBits m * decimalsPerUnit
  high := (unitsOfBits m + unitsOfBits (m + 1)) * decimalsPerUnit
  closed := m % 2 = 0

namespace RoundingInterval

/-- Whether `n · 10^-1074` lies in the interval. -/
def contains (i : RoundingInterval) (n : Nat) : Bool :=
  (i.low < 2 * n && 2 * n < i.high) || (i.closed && (2 * n = i.low || 2 * n = i.high))

/-- The multiple of the grid `10^n` in the interval that is nearest to the value, if there is one;
of two equally near the larger. -/
def gridPoint? (i : RoundingInterval) (n : Nat) : Option Nat :=
  let grid := tenPow n
  let k := i.value / (2 * grid)
  let below := i.contains (k * grid)
  let above := i.contains ((k + 1) * grid)
  if below && (!above || i.value % (2 * grid) < grid) then some k
  else if above then some (k + 1)
  else none

/-- The point of the coarsest grid not above `10^n` that has one. The finest grid holds the value
itself. -/
def coarsest (i : RoundingInterval) : Nat → Decimal
  | 0 => ⟨i.value / 2, -1074⟩
  | n + 1 =>
    match i.gridPoint? (n + 1) with
    | some k => ⟨k, (n + 1 : Nat) - 1074⟩
    | none => i.coarsest n

/-- The shortest decimal in the interval; the search starts at a power of ten above the value. -/
def shortest (i : RoundingInterval) : Decimal := i.coarsest (Nat.log2 i.value / 3 + 1)

end RoundingInterval

/-- The shortest decimal that reads back to the finite magnitude with the given bits. -/
def shortestDecimal (m : Nat) : Decimal :=
  if m = 0 then ⟨0, 0⟩ else (RoundingInterval.ofBits m).shortest

/-- The shortest text that reads back to the number. -/
def text (x : Binary64) : String :=
  if infinityBits < x.magnitude then "NaN"
  else
    String.ofList ((if x.isNegative then ['-'] else []) ++
      if x.magnitude = infinityBits then ['i', 'n', 'f'] else (shortestDecimal x.magnitude).text)

end Binary64

end GateIR

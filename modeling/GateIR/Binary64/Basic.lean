/-!
# Binary64 numbers as exact integers

An IEEE 754 binary64 number is held as its 64 interchange bits. Every finite one is an integer
number of *units*, a unit being `2^-1074`, the smallest positive double; all arithmetic below is
exact arithmetic on units followed by one rounding.

**Reading.** `Binary64.units?` is the exact value of a finite number; infinities and NaN have none.

**Rounding.** `Binary64.ofRatio num den` is the double nearest to the exact ratio `num / den` of
units, a tie going to the double whose last bit is zero, and an infinity beyond the largest double.
Magnitudes are ordered as their bits are, so a carry out of the significand needs no special case.
-/

namespace GateIR

/-- A binary64 number, by its bits: sign, eleven exponent bits, fifty-two fraction bits. -/
structure Binary64 where
  bits : UInt64
deriving DecidableEq, Repr

namespace Binary64

/-- The bits of positive infinity; the magnitudes below it are the finite ones. -/
def infinityBits : Nat := 0x7ff0000000000000

/-- The bit that holds the sign. -/
def signBit : Nat := 0x8000000000000000

/-- The lowest exponent bit. It has the weight of the leading significand bit of a normal number, which
is not stored. -/
def leadingBit : Nat := 0x10000000000000

/-! ## The exact value -/

/-- The number of units in the magnitude with the given bits. -/
def unitsOfBits (m : Nat) : Nat :=
  if m < leadingBit then m else (leadingBit + m % leadingBit) <<< (m / leadingBit - 1)

/-- The bits without the sign. -/
def magnitude (x : Binary64) : Nat := x.bits.toNat % signBit

def isNegative (x : Binary64) : Bool := signBit ≤ x.bits.toNat

def isFinite (x : Binary64) : Bool := x.magnitude < infinityBits

/-- The exact value of a finite number, in units. -/
def units? (x : Binary64) : Option Int :=
  if x.isFinite then
    some (if x.isNegative then -(unitsOfBits x.magnitude : Int) else unitsOfBits x.magnitude)
  else
    none

/-! ## Rounding -/

/-- The integer nearest to `num / den`; a tie goes to the even one. -/
def roundHalfEven (num den : Nat) : Nat :=
  let q := num / den
  let r := num % den
  if 2 * r < den then q else if den < 2 * r then q + 1 else q + q % 2

/-- The bits of the magnitude nearest to `num / den` units.

The significand keeps 53 bits of the quotient, so `e` low bits are rounded off. The sum of the
exponent part and the rounded significand is the right bit pattern for normal numbers, for
subnormal ones (`e = 0`) and when rounding carries into the next power of two. -/
def nearestBits (num den : Nat) : Nat :=
  let e := Nat.log2 (num / den) - 52
  min (e * leadingBit + roundHalfEven num (den <<< e)) infinityBits

/-- The number with the given sign and magnitude bits. -/
def ofSignBits (negative : Bool) (m : Nat) : Binary64 :=
  ⟨UInt64.ofNat (if negative then signBit + m else m)⟩

/-- The double nearest to `num / den` units. -/
def ofRatio (num : Int) (den : Nat) : Binary64 :=
  ofSignBits (num < 0) (nearestBits num.natAbs den)

/-- The double nearest to a whole number of units. -/
def ofUnits (n : Int) : Binary64 := ofRatio n 1

/-- The number of units in `1`. -/
def oneUnits : Nat := 1 <<< 1074

/-- The double nearest to an integer. -/
def ofInt (n : Int) : Binary64 := ofUnits (n * oneUnits)

/-- The number with the other sign. -/
def neg (x : Binary64) : Binary64 := ⟨x.bits ^^^ UInt64.ofNat signBit⟩

/-! ## Constants -/

def zero : Binary64 := ⟨0⟩

def one : Binary64 := ⟨0x3ff0000000000000⟩

def two : Binary64 := ⟨0x4000000000000000⟩

/-- The double nearest to `π`. -/
def pi : Binary64 := ⟨0x400921fb54442d18⟩

def infinity : Binary64 := ⟨0x7ff0000000000000⟩

instance : Inhabited Binary64 := ⟨zero⟩

end Binary64

end GateIR

import GateIR.Binary64.Decimal

/-!
# Numerals

An unsigned decimal numeral: digits, perhaps a point with further digits, perhaps a power of ten. The
digits after the point may be missing, those before it and those of the power of ten may not.

`Numeral.read` takes the longest numeral at the front of a text that starts with a digit.
-/

namespace GateIR.Text

/-- The number that digits spell. -/
def digitsValue (ds : List Char) : Nat := Nat.ofDigitChars 10 ds 0

/-- The power of ten in a numeral, with the spelling of its mark and sign. -/
structure Power where
  /-- `e` or `E`. -/
  mark : Char
  /-- `+`, `-` or nothing. -/
  sign : Option Char
  digits : List Char
deriving DecidableEq

/-- An unsigned decimal numeral, as it is spelt. -/
structure Numeral where
  whole : List Char
  /-- The digits after the point, if there is a point. -/
  fraction : Option (List Char)
  power : Option Power
deriving DecidableEq

namespace Power

def text (p : Power) : List Char := p.mark :: (p.sign.toList ++ p.digits)

def value (p : Power) : Int :=
  if p.sign = some '-' then -(digitsValue p.digits : Int) else digitsValue p.digits

/-- The sign at the front of a text, if there is one, and what comes after it. -/
def readSign : List Char → Option Char × List Char
  | '+' :: cs => (some '+', cs)
  | '-' :: cs => (some '-', cs)
  | cs => (none, cs)

/-- The power of ten at the front of a text, and what comes after it. -/
def read? : List Char → Option (Power × List Char)
  | [] => none
  | mark :: cs =>
    let (sign, rest) := readSign cs
    if (mark = 'e' ∨ mark = 'E') ∧ rest.takeWhile Char.isDigit ≠ [] then
      some (⟨mark, sign, rest.takeWhile Char.isDigit⟩, rest.dropWhile Char.isDigit)
    else
      none

/-- A power of ten takes nothing but its own characters. -/
theorem length_of_read? {cs rest : List Char} {p : Power}
    (h : read? cs = some (p, rest)) : rest.length ≤ cs.length := by
  cases cs with
  | nil => simp [read?] at h
  | cons mark cs =>
    have hs : (readSign cs).2.length ≤ cs.length := by
      unfold readSign; split <;> simp
    have hd := (List.dropWhile_suffix (l := (readSign cs).2) Char.isDigit).length_le
    simp only [read?] at h
    split at h
    · simp only [Option.some.injEq, Prod.mk.injEq] at h
      simp only [← h.2, List.length_cons]
      omega
    · simp at h

end Power

namespace Numeral

def text (n : Numeral) : List Char :=
  n.whole ++ (n.fraction.elim [] ('.' :: ·)) ++ (n.power.elim [] Power.text)

/-- The exact number that a numeral spells. -/
def value (n : Numeral) : Decimal where
  mantissa := digitsValue (n.whole ++ n.fraction.getD [])
  exponent := (n.power.elim 0 Power.value) - (n.fraction.getD []).length

/-- Reads an optional power of ten after the other parts of a numeral. -/
def readPower (whole : List Char) (fraction : Option (List Char)) (cs : List Char) :
    Numeral × List Char :=
  match Power.read? cs with
  | some (p, rest) => (⟨whole, fraction, some p⟩, rest)
  | none => (⟨whole, fraction, none⟩, cs)

/-- The longest numeral at the front of a text that starts with a digit, and what comes after it. -/
def read (cs : List Char) : Numeral × List Char :=
  let whole := cs.takeWhile Char.isDigit
  match cs.dropWhile Char.isDigit with
  | '.' :: rest => readPower whole (some (rest.takeWhile Char.isDigit)) (rest.dropWhile Char.isDigit)
  | rest => readPower whole none rest

theorem length_readPower (whole : List Char) (fraction : Option (List Char))
    (cs : List Char) : (readPower whole fraction cs).2.length ≤ cs.length := by
  unfold readPower
  split
  · next h => exact Power.length_of_read? h
  · exact Nat.le_refl _

/-- A numeral that starts with a digit takes that digit. -/
theorem length_read {c : Char} (h : c.isDigit = true) (cs : List Char) :
    (read (c :: cs)).2.length ≤ cs.length := by
  have hd := (List.dropWhile_suffix (l := cs) Char.isDigit).length_le
  unfold read
  simp only [List.dropWhile_cons, h, if_true]
  split
  · next rest hr =>
    have hd' := (List.dropWhile_suffix (l := rest) Char.isDigit).length_le
    have := length_readPower ((c :: cs).takeWhile Char.isDigit) (some (rest.takeWhile Char.isDigit))
      (rest.dropWhile Char.isDigit)
    rw [hr, List.length_cons] at hd
    omega
  · exact Nat.le_trans (length_readPower ..) hd

end Numeral

end GateIR.Text

import GateIR.Proofs.Angle.Reduction
import GateIR.Proofs.Binary64.Decimal
import GateIR.Proofs.Text.Parsing

/-!
# Angles from numerals

The number that a numeral spells is rounded once, and then reduced.

**Theorem (`parse_numeral`).** A numeral with `pi` after it is read as the reduction of the double
that its number is rounded to, and with a minus before it as the negation of that angle. So numerals
of one number are read as one angle, however they are spelt.

The token of a numeral is an integer or a double, which depends on its spelling; both stand for the
rounded number (`coefficient?_ofNumeral`). The minus belongs to the double that is reduced, and may
as well be taken after the reduction, since numbers without sign are reduced exactly (`reduce_neg`).
-/

namespace GateIR

open Text Text.Parser
open Binary64 (IsRounded ofDecimal)

variable {n : Numeral} {q : ℚ} {x : Binary64}

/-! ## The number of a numeral -/

/-- The number that a numeral spells. -/
def Text.Numeral.number (n : Numeral) : ℚ :=
  (digitsValue n.whole + digitsValue (n.fraction.getD []) / 10 ^ (n.fraction.getD []).length) *
    10 ^ n.power.elim 0 Power.value

/-- The reader collects all digits, and counts those after the point. -/
theorem Text.Numeral.value_eq_number (n : Numeral) : n.value.value = n.number := by
  have hten : (10 : ℚ) ≠ 0 := by norm_num
  rw [Decimal.value, Numeral.value, Numeral.number, digitsValue_append, zpow_sub₀ hten, zpow_natCast,
    Nat.cast_add, Nat.cast_mul, Binary64.cast_tenPow]
  field_simp

theorem isRounded_numeral (n : Numeral) : IsRounded n.number (ofDecimal n.value) := by
  rw [← n.value_eq_number]
  exact Binary64.isRounded_ofDecimal n.value

/-! ## Reading -/

theorem parse_multiple (hn : n.Valid) :
    Angle.parse (String.ofList n.text ++ "pi") = .ok (.reduce (ofDecimal n.value)) := by
  have hnumber := coefficient?_eq_some_iff.1 (coefficient?_ofNumeral n)
  have hspells : Spells (String.ofList n.text ++ "pi").toList [.ofNumeral n, .pi] := by
    simpa using spells_multiple hn
  exact parse_of_spells hspells fun _ hls =>
    angle_complete (.unsigned (.multiple hnumber)) hls (by simp [EndsAngle])

theorem Text.Spells.minus {cs : List Char} {ts : List Token} (h : Spells cs ts) :
    Spells ('-' :: cs) (.symbol .minus :: ts) := by
  intro line rest hrest
  simp [scan_cons, Token.read?, Token.startsWord, Symbol.ofChar?, h line rest hrest]

theorem parse_negative_multiple (hn : n.Valid) :
    Angle.parse ("-" ++ String.ofList n.text ++ "pi") = .ok (.reduce (ofDecimal n.value).neg) := by
  have hnumber := coefficient?_eq_some_iff.1 (coefficient?_ofNumeral n)
  have hspells : Spells ("-" ++ String.ofList n.text ++ "pi").toList
      [.symbol .minus, .ofNumeral n, .pi] := by
    simpa using (spells_multiple hn).minus
  exact parse_of_spells hspells fun _ hls =>
    angle_complete (.negative (.multiple hnumber)) hls (by simp [EndsAngle])

/-- The minus may be taken before the reduction or after it. Infinities are zero angles. -/
theorem reduce_neg_of_isRounded (h : IsRounded q x) : Angle.reduce x.neg = -Angle.reduce x := by
  rcases lt_or_ge q Binary64.overflow with hlt | hge
  · exact Angle.reduce_neg (h.nearest hlt).finite h.sign
  · rw [h.overflows hge]
    decide +kernel

/-- **A numeral is read as its number**, rounded and reduced. -/
theorem Angle.parse_numeral (hn : n.Valid) :
    ∃ d : Binary64, (∀ x, IsRounded n.number x ↔ x = d) ∧
      Angle.parse (String.ofList n.text ++ "pi") = .ok (.reduce d) ∧
      Angle.parse ("-" ++ String.ofList n.text ++ "pi") = .ok (-.reduce d) ∧
      ∀ m : Numeral, m.Valid → m.number = n.number →
        Angle.parse (String.ofList m.text ++ "pi") = Angle.parse (String.ofList n.text ++ "pi") := by
  have hrounded := isRounded_numeral n
  refine ⟨ofDecimal n.value, fun x => ⟨fun hx => hx.eq hrounded, ?_⟩, parse_multiple hn, ?_, ?_⟩
  · rintro rfl
    exact hrounded
  · rw [parse_negative_multiple hn, reduce_neg_of_isRounded hrounded]
  · intro m hm hnumber
    have heq : ofDecimal m.value = ofDecimal n.value :=
      (hnumber ▸ isRounded_numeral m).eq hrounded
    rw [parse_multiple hm, parse_multiple hn, heq]

/-- `3`, with more digits than an integer token has. -/
def wideThree : Numeral :=
  ⟨['0', '0', '0', '0', '0', '0', '0', '0', '0', '0', '0', '0', '0', '0', '0', '0', '0', '0', '0',
    '3'], none, none⟩

/-- `3`, with a point and a power of ten. -/
def scientificThree : Numeral := ⟨['0'], some ['3'], some ⟨'e', none, ['1']⟩⟩

theorem valid_wideThree : wideThree.Valid :=
  ⟨by decide, List.all_eq_true.1 (by decide), nofun, nofun⟩

theorem valid_scientificThree : scientificThree.Valid := by
  refine ⟨by decide, List.all_eq_true.1 (by decide), ?_, ?_⟩
  · rintro _ ⟨⟩
    exact List.all_eq_true.1 (by decide)
  · rintro _ ⟨⟩
    exact ⟨by decide, by decide, by decide, List.all_eq_true.1 (by decide)⟩

/-- Leading zeros make a numeral too wide for an integer token. -/
theorem Angle.parse_numeral_leadingZeros :
    wideThree.Valid ∧ scientificThree.Valid ∧ scientificThree.number = wideThree.number ∧
      ∃ d : Binary64, (∀ x, IsRounded wideThree.number x ↔ x = d) ∧
        Angle.parse "00000000000000000003pi" = .ok (.reduce d) ∧
        Angle.parse "-00000000000000000003pi" = .ok (-.reduce d) ∧
        Angle.parse "0.3e1pi" = Angle.parse "00000000000000000003pi" := by
  have hnumber : scientificThree.number = wideThree.number := by
    have hthree : wideThree.value = ⟨3, 0⟩ := by decide
    have htenths : scientificThree.value = ⟨3, 0⟩ := by decide
    rw [← Numeral.value_eq_number, ← Numeral.value_eq_number, hthree, htenths]
  obtain ⟨d, hd, hparse, hnegative, hsame⟩ := Angle.parse_numeral valid_wideThree
  exact ⟨valid_wideThree, valid_scientificThree, hnumber, d, hd, hparse, hnegative,
    hsame scientificThree valid_scientificThree hnumber⟩

end GateIR

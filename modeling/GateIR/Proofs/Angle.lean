import GateIR.Angle
import GateIR.Proofs.Binary64.Shortest

/-!
# Canonical angles

The coefficient of an angle is a finite number without a sign, printed as its shortest decimal, and
it is its own residue (`reduce_coefficient`).
-/

namespace GateIR

namespace Binary64

theorem ofSignBits_toNat (x : Binary64) : ofSignBits false x.bits.toNat = x := by
  unfold ofSignBits
  simp

end Binary64

namespace Angle

variable (a : Angle)

/-- The bits of the coefficient. -/
def bits : Nat := a.coefficient.bits.toNat

theorem bits_lt : a.bits < Binary64.two.bits.toNat := a.lt_two

theorem bits_lt_infinityBits : a.bits < Binary64.infinityBits := a.bits_lt.trans (by decide)

theorem ofSignBits_bits : Binary64.ofSignBits false a.bits = a.coefficient :=
  Binary64.ofSignBits_toNat _

theorem magnitude_coefficient : a.coefficient.magnitude = a.bits :=
  Nat.mod_eq_of_lt (a.bits_lt.trans (by decide))

theorem isNegative_coefficient : a.coefficient.isNegative = false := by
  have h : a.bits < Binary64.signBit := a.bits_lt.trans (by decide)
  exact decide_eq_false (by simpa [bits] using h)

theorem text_coefficient :
    a.coefficient.text = String.ofList (Binary64.shortestDecimal a.bits).text := by
  have h := a.bits_lt_infinityBits
  simp [Binary64.text, magnitude_coefficient, isNegative_coefficient, h.ne, h.le]

theorem units?_coefficient : a.coefficient.units? = some (Binary64.unitsOfBits a.bits : Int) := by
  have h := a.bits_lt_infinityBits
  simp [Binary64.units?, Binary64.isFinite, magnitude_coefficient, isNegative_coefficient, h]

theorem unitsOfBits_two :
    Binary64.unitsOfBits Binary64.two.bits.toNat = 2 * Binary64.oneUnits := by
  obtain ⟨n, hn, ho⟩ := Binary64.exists_oneUnits
  have he : Binary64.exponentOf Binary64.two.bits.toNat = 1023 := by decide
  have hs : Binary64.significandOf Binary64.two.bits.toNat = 2 ^ 52 := by decide
  rw [Binary64.unitsOfBits_eq, hs, ho, ← pow_add, ← pow_succ']
  exact congrArg (2 ^ ·) (by omega)

/-- A canonical coefficient is its own residue. -/
theorem reduce_coefficient : reduce a.coefficient = a := by
  have hlt : Binary64.unitsOfBits a.bits < 2 * Binary64.oneUnits := by
    rw [← unitsOfBits_two]
    exact Binary64.unitsOfBits_strictMono a.bits_lt
  have hmod : (Binary64.unitsOfBits a.bits : Int) % (2 * Binary64.oneUnits : Nat) =
      Binary64.unitsOfBits a.bits := Int.emod_eq_of_lt (by omega) (by omega)
  rw [reduce, units?_coefficient]
  dsimp only
  rw [hmod, Binary64.ofUnits_unitsOfBits a.bits_lt_infinityBits, ofSignBits_bits, ofCoefficient,
    dif_pos a.lt_two]

end Angle

end GateIR

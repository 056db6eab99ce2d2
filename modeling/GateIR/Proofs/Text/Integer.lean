import GateIR.Proofs.Text.Digits

/-!
# Integer literals

A natural number without leading zeros is written with its `decimalDigits`, which are an integer
token up to nineteen of them, and a double beyond. Widths and numbers of qubits have 32 bits,
integer attributes 64 bits and a sign.

**Theorem (`integer_exact_or_refused`).** Wherever an integer may stand, it is read exactly if it
fits there, and is refused otherwise. Nothing wraps: what has an integer token is compared with the
bounds as an unbounded integer, and what is read as a double fits nowhere.
-/

namespace GateIR

open Text Text.Parser
open Binary64 (ofDecimal)

variable {n : Nat}

namespace Text

/-- What is said of an integer that does not fit: it is compared with the range as long as it has an
integer token, and is no integer beyond. -/
def tooLarge (range atDouble : String) (value : Int) (n : Nat) : Error :=
  if n < 10 ^ 19 then .unexpectedToken 1 range value.repr
  else .unexpectedToken 1 atDouble (ofDecimal ⟨n, 0⟩).text

theorem repr_eq_ofList (n : Nat) : n.repr = String.ofList (decimalDigits n) :=
  Nat.repr_eq_ofList_toDigits

/-- Where nothing fits that has no integer token, the digits need not be counted first. -/
theorem answer_decimalDigits {α : Type} {fits : Prop} [Decidable fits] (hfits : fits → n < 10 ^ 19)
    (a : α) (range atDouble : String) (value : Int) :
    (if (decimalDigits n).length < 20 then
        if fits then .ok a else .error (.unexpectedToken 1 range value.repr)
      else .error (tooLong atDouble (decimalDigits n)) : Except Error α) =
      if fits then .ok a else .error (tooLarge range atDouble value n) := by
  rw [tooLarge, tooLong, digitsValue_decimalDigits]
  simp only [length_decimalDigits_lt_iff]
  by_cases htoken : n < 10 ^ 19
  · rw [if_pos htoken, if_pos htoken]
  · rw [if_neg htoken, if_neg htoken, if_neg (htoken ∘ hfits)]

end Text

/-! ## Places -/

theorem parse_width_repr (n : Nat) :
    Ty.parse ("i" ++ n.repr) =
      if n < 2 ^ 32 then .ok (.int (.ofNat n)) else .error (.unknownType ("i" ++ n.repr)) := by
  have h := parse_width (decimalDigits_ne_nil n) isDigit_decimalDigits
  rw [digitsValue_decimalDigits, ← repr_eq_ofList] at h
  exact h

theorem parse_arity_repr (n : Nat) :
    Ty.parse ("!gate.type<" ++ n.repr ++ ">") =
      if n < 2 ^ 32 then .ok (.gate (.ofNat n))
      else .error (tooLarge "32-bit integer" "integer" n n) := by
  have h := parse_arity (decimalDigits_ne_nil n) isDigit_decimalDigits
  rw [digitsValue_decimalDigits, ← repr_eq_ofList] at h
  exact h.trans (answer_decimalDigits (fun hfits => hfits.trans (by decide)) _ _ _ n)

theorem parse_attribute_repr (n : Nat) :
    Attribute.parse n.repr =
      if n < 2 ^ 63 then .ok (.int (.ofInt n))
      else .error (tooLarge "64-bit integer" "attribute" n n) := by
  have h := parse_natural (decimalDigits_ne_nil n) isDigit_decimalDigits
  rw [digitsValue_decimalDigits, ← repr_eq_ofList] at h
  exact h.trans (answer_decimalDigits (fun hfits => hfits.trans (by decide)) _ _ _ n)

theorem parse_minus_repr (n : Nat) :
    Attribute.parse ("-" ++ n.repr) =
      if n ≤ 2 ^ 63 then .ok (.int (.ofInt (-n)))
      else .error (tooLarge "64-bit integer" "integer" (-n) n) := by
  have h := parse_minus (decimalDigits_ne_nil n) isDigit_decimalDigits
  rw [digitsValue_decimalDigits, ← repr_eq_ofList] at h
  exact h.trans (answer_decimalDigits (fun hfits => hfits.trans_lt (by decide)) _ _ _ (-n))

/-! ## Integers that fit -/

theorem parse_width_of_lt (h : n < 2 ^ 32) :
    ∃ w : UInt32, w.toNat = n ∧ Ty.parse ("i" ++ n.repr) = .ok (.int w) :=
  ⟨.ofNat n, UInt32.toNat_ofNat_of_lt' h, (parse_width_repr n).trans (if_pos h)⟩

theorem parse_arity_of_lt (h : n < 2 ^ 32) :
    ∃ w : UInt32, w.toNat = n ∧ Ty.parse ("!gate.type<" ++ n.repr ++ ">") = .ok (.gate w) :=
  ⟨.ofNat n, UInt32.toNat_ofNat_of_lt' h, (parse_arity_repr n).trans (if_pos h)⟩

theorem parse_attribute_of_lt (h : n < 2 ^ 63) :
    ∃ m : Int64, m.toInt = n ∧ Attribute.parse n.repr = .ok (.int m) :=
  ⟨.ofInt n, Int64.toInt_ofInt_of_le (by omega) (by omega),
    (parse_attribute_repr n).trans (if_pos h)⟩

theorem parse_minus_of_le (h : n ≤ 2 ^ 63) :
    ∃ m : Int64, m.toInt = -n ∧ Attribute.parse ("-" ++ n.repr) = .ok (.int m) :=
  ⟨.ofInt (-n), Int64.toInt_ofInt_of_le (by omega) (by omega),
    (parse_minus_repr n).trans (if_pos h)⟩

/-! ## Integers that do not fit -/

theorem parse_width_refused (h : ¬ n < 2 ^ 32) :
    Ty.parse ("i" ++ n.repr) = .error (.unknownType ("i" ++ n.repr)) :=
  (parse_width_repr n).trans (if_neg h)

theorem parse_arity_refused (h : ¬ n < 2 ^ 32) :
    Ty.parse ("!gate.type<" ++ n.repr ++ ">") =
      .error (tooLarge "32-bit integer" "integer" n n) :=
  (parse_arity_repr n).trans (if_neg h)

theorem parse_attribute_refused (h : ¬ n < 2 ^ 63) :
    Attribute.parse n.repr = .error (tooLarge "64-bit integer" "attribute" n n) :=
  (parse_attribute_repr n).trans (if_neg h)

theorem parse_minus_refused (h : ¬ n ≤ 2 ^ 63) :
    Attribute.parse ("-" ++ n.repr) = .error (tooLarge "64-bit integer" "integer" (-n) n) :=
  (parse_minus_repr n).trans (if_neg h)

/-! ## All integers -/

/-- **Integers are read exactly or refused.** -/
theorem integer_exact_or_refused (n : Nat) :
    (if n < 2 ^ 32 then ∃ w : UInt32, w.toNat = n ∧ Ty.parse ("i" ++ n.repr) = .ok (.int w)
      else Ty.parse ("i" ++ n.repr) = .error (.unknownType ("i" ++ n.repr))) ∧
    (if n < 2 ^ 32 then
        ∃ w : UInt32, w.toNat = n ∧ Ty.parse ("!gate.type<" ++ n.repr ++ ">") = .ok (.gate w)
      else Ty.parse ("!gate.type<" ++ n.repr ++ ">") =
        .error (tooLarge "32-bit integer" "integer" n n)) ∧
    (if n < 2 ^ 63 then ∃ m : Int64, m.toInt = n ∧ Attribute.parse n.repr = .ok (.int m)
      else Attribute.parse n.repr = .error (tooLarge "64-bit integer" "attribute" n n)) ∧
    if n ≤ 2 ^ 63 then ∃ m : Int64, m.toInt = -n ∧ Attribute.parse ("-" ++ n.repr) = .ok (.int m)
      else Attribute.parse ("-" ++ n.repr) =
        .error (tooLarge "64-bit integer" "integer" (-n) n) := by
  refine ⟨?_, ?_, ?_, ?_⟩ <;> split
  · next h => exact parse_width_of_lt h
  · next h => exact parse_width_refused h
  · next h => exact parse_arity_of_lt h
  · next h => exact parse_arity_refused h
  · next h => exact parse_attribute_of_lt h
  · next h => exact parse_attribute_refused h
  · next h => exact parse_minus_of_le h
  · next h => exact parse_minus_refused h

end GateIR

import GateIR.Proofs.Binary64.Shortest
import GateIR.Text.Parser.Attribute

/-!
# Reading numerals

A numeral that can be written is taken off a text that goes on with something else, and nothing more
(`Valid.read_append`). Digits alone are an integer or a double, which depends on how many they are
(`ofNumeral_digits`). A decimal is printed as the text of a numeral (`Decimal.numeral`), which may
spell the same number with another exponent.

**Theorem (`coefficient_shortestDecimal`).** The token of the printed shortest decimal of a finite
magnitude stands for that magnitude, whether it is an integer token or not.
-/

namespace GateIR

namespace Text

/-! ## Where a token ends -/

/-- The text is empty or starts with a character outside the class. -/
def StopsAt (p : Char → Bool) (cs : List Char) : Prop := ∀ c ∈ cs.head?, p c = false

variable {p : Char → Bool} {w rest : List Char}

@[simp] theorem stopsAt_nil : StopsAt p [] := by simp [StopsAt]

@[simp] theorem stopsAt_cons {c : Char} {cs : List Char} : StopsAt p (c :: cs) ↔ p c = false := by
  simp [StopsAt]

theorem takeWhile_of_stopsAt (hw : ∀ c ∈ w, p c) (hrest : StopsAt p rest) :
    (w ++ rest).takeWhile p = w := by
  rw [List.takeWhile_append_of_pos hw]
  cases rest with
  | nil => simp
  | cons c cs => simp [stopsAt_cons.1 hrest]

theorem dropWhile_of_stopsAt (hw : ∀ c ∈ w, p c) (hrest : StopsAt p rest) :
    (w ++ rest).dropWhile p = rest := by
  rw [List.dropWhile_append_of_pos hw]
  cases rest with
  | nil => simp
  | cons c cs => simp [stopsAt_cons.1 hrest]

/-- A character that may continue a numeral. -/
def continuesNumeral (c : Char) : Bool := c.isDigit || c = '.' || c = 'e' || c = 'E'

theorem StopsAt.takeWhile (h : StopsAt p rest) : rest.takeWhile p = [] := by
  simpa using takeWhile_of_stopsAt (w := []) (by simp) h

theorem StopsAt.dropWhile (h : StopsAt p rest) : rest.dropWhile p = rest := by
  simpa using dropWhile_of_stopsAt (w := []) (by simp) h

theorem StopsAt.mono {q : Char → Bool} (h : StopsAt q rest) (hpq : ∀ c, p c → q c) :
    StopsAt p rest := fun c hc => by
  have := h c hc
  by_contra hp
  rw [hpq c (by simpa using hp)] at this
  cases this

/-! ## Digits -/

theorem isDigit_decimalDigits {n : Nat} : ∀ c ∈ decimalDigits n, c.isDigit := fun _ hc =>
  Nat.isDigit_of_mem_toDigits (by decide) (by decide) hc

theorem decimalDigits_ne_nil (n : Nat) : decimalDigits n ≠ [] := Nat.toDigits_ne_nil

theorem length_decimalDigits_lt_iff (n : Nat) : (decimalDigits n).length < 20 ↔ n < 10 ^ 19 :=
  Nat.lt_succ_iff.trans (Nat.length_toDigits_le_iff (by decide) (by decide))

theorem digitsValue_decimalDigits (n : Nat) : digitsValue (decimalDigits n) = n :=
  Nat.ofDigitChars_ten_toDigits

theorem digitsValue_append (ds es : List Char) :
    digitsValue (ds ++ es) = digitsValue ds * tenPow es.length + digitsValue es := by
  rw [digitsValue, Nat.ofDigitChars_append, Nat.ofDigitChars_eq_ofDigitChars_zero, Nat.mul_comm]
  rfl

theorem digitsValue_replicate (n : Nat) : digitsValue (List.replicate n '0') = 0 := by
  rw [digitsValue, Nat.ofDigitChars_replicate_zero, Nat.mul_zero]

/-- Digits with some more zeros in front. -/
def padded (k : Nat) (ds : List Char) : List Char := List.replicate k '0' ++ ds

section Padded

variable {k : Nat} {ds : List Char}

@[simp] theorem length_padded : (padded k ds).length = k + ds.length := by
  simp [padded]

@[simp] theorem digitsValue_padded : digitsValue (padded k ds) = digitsValue ds := by
  rw [padded, digitsValue_append, digitsValue_replicate, Nat.zero_mul, Nat.zero_add]

theorem padded_ne_nil (h : ds ≠ []) : padded k ds ≠ [] := by
  simp [padded, h]

theorem isDigit_padded (h : ∀ c ∈ ds, c.isDigit) : ∀ c ∈ padded k ds, c.isDigit := by
  intro c hc
  rcases List.mem_append.1 hc with hzero | hc
  · rw [List.eq_of_mem_replicate hzero]
    rfl
  · exact h c hc

end Padded

/-! ## Numerals -/

/-- A power of ten that can be written. -/
structure Power.Valid (p : Power) : Prop where
  mark : p.mark = 'e' ∨ p.mark = 'E'
  sign : p.sign = none ∨ p.sign = some '+' ∨ p.sign = some '-'
  nonempty : p.digits ≠ []
  digits : ∀ c ∈ p.digits, c.isDigit

namespace Power

variable {p : Power}

theorem Valid.readSign (hp : p.Valid) (rest : List Char) :
    readSign (p.sign.toList ++ (p.digits ++ rest)) = (p.sign, p.digits ++ rest) := by
  rcases hp.sign with h | h | h <;> rw [h]
  · obtain ⟨c, ds, hds⟩ := List.exists_cons_of_ne_nil hp.nonempty
    have hc : c.isDigit := hp.digits c (by simp [hds])
    rw [hds, Option.toList_none, List.nil_append, List.cons_append]
    unfold Power.readSign
    split
    · next heq =>
      cases heq
      cases hc
    · next heq =>
      cases heq
      cases hc
    · rfl
  · rfl
  · rfl

/-- The reader takes the digits of the power and those that follow. -/
theorem Valid.read?_append (hp : p.Valid) (rest : List Char) :
    read? (p.text ++ rest) = some ({ p with digits := p.digits ++ rest.takeWhile Char.isDigit },
      rest.dropWhile Char.isDigit) := by
  have hne : p.digits ++ rest.takeWhile Char.isDigit ≠ [] := by simp [hp.nonempty]
  rw [text, List.cons_append, List.append_assoc, read?, hp.readSign]
  dsimp only
  rw [List.takeWhile_append_of_pos hp.digits, List.dropWhile_append_of_pos hp.digits,
    if_pos ⟨hp.mark, hne⟩]

/-- Neither the digits before a power of ten nor a point run on into it. -/
theorem Valid.stopsAt (hp : p.Valid) (rest : List Char) :
    StopsAt (fun c => c.isDigit || c = '.') (p.text ++ rest) := by
  rw [text, List.cons_append, stopsAt_cons]
  rcases hp.mark with h | h <;> rw [h] <;> rfl

end Power

/-- A numeral that can be written. -/
structure Numeral.Valid (n : Numeral) : Prop where
  nonempty : n.whole ≠ []
  whole : ∀ c ∈ n.whole, c.isDigit
  fraction : ∀ ds, n.fraction = some ds → ∀ c ∈ ds, c.isDigit
  power : ∀ p, n.power = some p → p.Valid

namespace Numeral

variable {n : Numeral} {power : Option Power}

theorem readPower_of_stopsAt {whole : List Char} {fraction : Option (List Char)}
    (h : StopsAt continuesNumeral rest) :
    readPower whole fraction rest = (⟨whole, fraction, none⟩, rest) := by
  have hnone : Power.read? rest = none := by
    cases rest with
    | nil => rfl
    | cons c cs =>
      have hc := stopsAt_cons.1 h
      simp only [continuesNumeral, Bool.or_eq_false_iff, decide_eq_false_iff_not] at hc
      simp [Power.read?, hc]
  rw [readPower, hnone]

theorem readPower_append {whole : List Char} {fraction : Option (List Char)}
    (hp : ∀ p, power = some p → p.Valid) (h : StopsAt continuesNumeral rest) :
    readPower whole fraction (power.elim [] Power.text ++ rest) =
      (⟨whole, fraction, power⟩, rest) := by
  cases power with
  | none => exact readPower_of_stopsAt h
  | some p =>
    have hdigit : StopsAt Char.isDigit rest := h.mono fun c hc => by simp [continuesNumeral, hc]
    rw [Option.elim_some, readPower, (hp p rfl).read?_append, hdigit.takeWhile, hdigit.dropWhile,
      List.append_nil]

theorem stopsAt_power_append (hp : ∀ p, power = some p → p.Valid)
    (h : StopsAt continuesNumeral rest) :
    StopsAt (fun c => c.isDigit || c = '.') (power.elim [] Power.text ++ rest) := by
  cases power with
  | none => exact h.mono fun c hc => by simp_all [continuesNumeral]
  | some p => exact (hp p rfl).stopsAt rest

/-- The reader takes a numeral off a text that goes on with something else. -/
theorem Valid.read_append (hn : n.Valid) (h : StopsAt continuesNumeral rest) :
    read (n.text ++ rest) = (n, rest) := by
  obtain ⟨whole, fraction, power⟩ := n
  have hread (f : Option (List Char)) : readPower whole f (power.elim [] Power.text ++ rest) =
      (⟨whole, f, power⟩, rest) := readPower_append hn.power h
  have hstop := stopsAt_power_append hn.power h
  rw [text, List.append_assoc, List.append_assoc]
  generalize power.elim [] Power.text ++ rest = tail at hread hstop ⊢
  have hdigit : StopsAt Char.isDigit tail := hstop.mono fun c hc => by simp [hc]
  cases fraction with
  | none =>
    rw [Option.elim_none, List.nil_append, read, takeWhile_of_stopsAt hn.whole hdigit,
      dropWhile_of_stopsAt hn.whole hdigit]
    split
    · have hpoint := stopsAt_cons.1 hstop
      simp at hpoint
    · exact hread _
  | some f =>
    have hpoint : StopsAt Char.isDigit ('.' :: (f ++ tail)) := stopsAt_cons.2 rfl
    have hf := hn.fraction f rfl
    rw [Option.elim_some, List.cons_append, read, takeWhile_of_stopsAt hn.whole hpoint,
      dropWhile_of_stopsAt hn.whole hpoint]
    simp only [takeWhile_of_stopsAt hf hdigit, dropWhile_of_stopsAt hf hdigit, hread]

theorem Valid.read?_append (hn : n.Valid) (h : StopsAt continuesNumeral rest) :
    Token.read? (n.text ++ rest) = some (.ofNumeral n, rest) := by
  have hread := hn.read_append h
  obtain ⟨c, ds, hds⟩ := List.exists_cons_of_ne_nil hn.nonempty
  have hc : c.isDigit := hn.whole c (by simp [hds])
  have htext : n.text ++ rest = c :: (n.text ++ rest).tail := by
    rw [text, hds]
    rfl
  rw [htext] at hread ⊢
  rw [Token.read?, if_pos hc, hread]

end Numeral

/-! ## Digits alone -/

section Digits

variable {ds : List Char}

theorem Numeral.value_digits (ds : List Char) :
    Numeral.value ⟨ds, none, none⟩ = ⟨digitsValue ds, 0⟩ := by
  simp [Numeral.value]

theorem Numeral.valid_digits (hne : ds ≠ []) (hdigits : ∀ c ∈ ds, c.isDigit) :
    Valid ⟨ds, none, none⟩ :=
  ⟨hne, hdigits, nofun, nofun⟩

theorem ofNumeral_digits (ds : List Char) :
    Token.ofNumeral ⟨ds, none, none⟩ =
      if ds.length < 20 then .int (digitsValue ds)
      else .real (.ofDecimal ⟨digitsValue ds, 0⟩) := by
  rw [Token.ofNumeral, Numeral.value_digits]

theorem read?_digits_append (hne : ds ≠ []) (hdigits : ∀ c ∈ ds, c.isDigit)
    (h : StopsAt continuesNumeral rest) :
    Token.read? (ds ++ rest) = some (.ofNumeral ⟨ds, none, none⟩, rest) := by
  have htext : Numeral.text ⟨ds, none, none⟩ = ds := by simp [Numeral.text]
  have hread := (Numeral.valid_digits hne hdigits).read?_append h
  rwa [htext] at hread

/-- An integer of at most nineteen digits is read as an integer. -/
theorem read?_toDigits_append {n : Nat} (hn : n < 10 ^ 19) (h : StopsAt continuesNumeral rest) :
    Token.read? (Nat.toDigits 10 n ++ rest) = some (.int n, rest) := by
  have hread := read?_digits_append (decimalDigits_ne_nil n) isDigit_decimalDigits h
  rwa [ofNumeral_digits, if_pos ((length_decimalDigits_lt_iff n).2 hn),
    digitsValue_decimalDigits] at hread

end Digits

/-! ## Printed numerals -/

end Text

open Text

/-- The numeral that a decimal is printed as. -/
def Decimal.numeral (d : Decimal) : Numeral :=
  match d.exponent with
  | .ofNat k => ⟨decimalDigits d.mantissa ++ List.replicate k '0', none, none⟩
  | .negSucc k =>
    ⟨decimalDigits (d.mantissa / tenPow (k + 1)),
      some ((decimalDigits (d.mantissa % tenPow (k + 1))).leftpad (k + 1) '0'), none⟩

namespace Text

theorem isDigit_leftpad {n k : Nat} : ∀ c ∈ (decimalDigits n).leftpad k '0', c.isDigit :=
  isDigit_padded isDigit_decimalDigits

theorem digitsValue_leftpad {n k : Nat} :
    digitsValue ((decimalDigits n).leftpad k '0') = n :=
  digitsValue_padded.trans (digitsValue_decimalDigits n)

theorem length_leftpad_decimalDigits {n k : Nat} (h : n < tenPow (k + 1)) :
    ((decimalDigits n).leftpad (k + 1) '0').length = k + 1 := by
  have hlength : (decimalDigits n).length ≤ k + 1 :=
    (Nat.length_toDigits_le_iff (by decide) (Nat.succ_pos k)).2 h
  rw [List.length_leftpad]
  omega

/-- The numeral spells the same number with the exponent that its text shows. -/
theorem value_numeral (d : Decimal) :
    d.numeral.value = match d.exponent with
      | .ofNat k => ⟨d.mantissa * tenPow k, 0⟩
      | .negSucc _ => d := by
  obtain ⟨m, e⟩ := d
  cases e with
  | ofNat k =>
    simp [Decimal.numeral, Numeral.value, digitsValue_append, digitsValue_decimalDigits,
      digitsValue_replicate]
  | negSucc k =>
    have hlength := length_leftpad_decimalDigits (Nat.mod_lt m (Binary64.tenPow_pos (k + 1)))
    have hdiv := Nat.div_add_mod' m (tenPow (k + 1))
    simp only [Decimal.numeral, Numeral.value, Option.getD_some, digitsValue_append,
      digitsValue_leftpad, digitsValue_decimalDigits, hlength, hdiv, Option.elim_none]
    rw [Int.negSucc_eq]
    simp

theorem valid_numeral (d : Decimal) : d.numeral.Valid := by
  obtain ⟨m, e⟩ := d
  cases e with
  | ofNat k =>
    refine ⟨by simp [Decimal.numeral, decimalDigits], fun c hc => ?_, nofun, nofun⟩
    rcases List.mem_append.1 hc with hc | hc
    · exact isDigit_decimalDigits c hc
    · rw [List.eq_of_mem_replicate hc]
      rfl
  | negSucc k =>
    refine ⟨Nat.toDigits_ne_nil, isDigit_decimalDigits, ?_, nofun⟩
    rintro _ ⟨⟩
    exact isDigit_leftpad

theorem text_numeral (d : Decimal) : d.numeral.text = d.text := by
  obtain ⟨m, e⟩ := d
  cases e <;> simp [Decimal.numeral, Numeral.text, Decimal.text]

/-! ## Coefficients -/

theorem ofDecimal_natCast (n : Nat) : Binary64.ofDecimal ⟨n, 0⟩ = .ofInt n := by
  rcases Nat.eq_zero_or_pos n with rfl | hn
  · rfl
  · have hcast : ((n * tenPow 0 * Binary64.oneUnits : Nat) : Int) = n * Binary64.oneUnits := by
      rw [show tenPow 0 = 1 from rfl, Nat.mul_one, Nat.cast_mul]
    unfold Binary64.ofDecimal
    rw [if_neg (by dsimp only; omega), if_neg (by dsimp only; omega), Binary64.ofInt,
      Binary64.ofUnits, ← hcast]

/-- A numeral token stands for the number that the numeral spells. -/
theorem coefficient?_ofNumeral (n : Numeral) :
    Parser.coefficient? (Token.ofNumeral n) = some (.ofDecimal n.value) := by
  unfold Token.ofNumeral
  split
  · split
    · rw [Numeral.value_digits, ofDecimal_natCast]
      rfl
    · rfl
  · rfl

theorem coefficient_shortestDecimal {m : Nat} (hfin : m < Binary64.infinityBits) :
    Parser.coefficient? (Token.ofNumeral (Binary64.shortestDecimal m).numeral) =
      some (.ofSignBits false m) := by
  rw [coefficient?_ofNumeral, value_numeral]
  split
  · next k hk =>
    rcases Nat.eq_zero_or_pos m with rfl | hm
    · obtain rfl : 0 = k := Int.ofNat.inj hk
      rfl
    · obtain ⟨n, hn, h⟩ := Binary64.contains_shortestDecimal hm
      have hk' : n = k + 1074 := by
        rw [hk, Int.ofNat_eq_natCast] at hn
        omega
      rw [hk', Binary64.tenPow_add, ← Nat.mul_assoc] at h
      exact congrArg some (Binary64.ofDecimal_of_contains hm hfin (by simp) h)
  · rw [Binary64.ofDecimal_shortestDecimal hfin]

end Text

end GateIR

import GateIR.Proofs.Text.Tokens
import Mathlib.Data.List.TakeWhile

/-!
# The longest token

Each kind of token has a class of words (`Token.Matches`): numerals, names and punctuation, of which
the first two may have any length. A text can start with several words that are tokens.

**Theorem (`read?_eq_some_iff`).** The reader takes a token off the front of a text exactly when its
word is the longest one there that is a token.

That what is taken is a token is `matches_of_read?`. The reader goes on after a numeral or a name as
long as it can, so it takes at least every token that the text starts with (`Matches.read?_append`).
Only a numeral has parts that may be missing, and the reader looks for these by the characters that
they start with.
-/

namespace GateIR.Text

variable {cs rest : List Char}

/-! ## Powers of ten -/

namespace Power

variable {p : Power}

theorem readSign_sound (cs : List Char) :
    ((readSign cs).1 = none ∨ (readSign cs).1 = some '+' ∨ (readSign cs).1 = some '-') ∧
      cs = (readSign cs).1.toList ++ (readSign cs).2 := by
  unfold readSign
  split <;> simp

theorem valid_of_read? (h : read? cs = some (p, rest)) : p.Valid ∧ cs = p.text ++ rest := by
  cases cs with
  | nil => cases h
  | cons mark cs =>
    obtain ⟨hsign, hcs⟩ := readSign_sound cs
    unfold read? at h
    dsimp only at h
    split at h
    · next hmark =>
      cases h
      refine ⟨⟨hmark.1, hsign, hmark.2, fun c hc => List.mem_takeWhile_imp hc⟩, ?_⟩
      rw [text, List.cons_append, List.append_assoc, List.takeWhile_append_dropWhile, ← hcs]
    · cases h

end Power

/-! ## Numerals -/

namespace Numeral

variable {n : Numeral}

theorem exists_readPower (whole : List Char) (fraction : Option (List Char)) (cs : List Char) :
    ∃ power rest, readPower whole fraction cs = (⟨whole, fraction, power⟩, rest) ∧
      (∀ p, power = some p → p.Valid) ∧ cs = power.elim [] Power.text ++ rest := by
  unfold readPower
  cases hread : Power.read? cs with
  | none => exact ⟨none, cs, rfl, nofun, rfl⟩
  | some m =>
    obtain ⟨p, rest⟩ := m
    obtain ⟨hp, hcs⟩ := Power.valid_of_read? hread
    refine ⟨some p, rest, rfl, ?_, hcs⟩
    rintro _ ⟨⟩
    exact hp

/-- What is read of a numeral and a rest. It ends within the rest, and is the numeral itself when
there is no rest. -/
def Reaches (m : Numeral × List Char) (n : Numeral) (rest : List Char) : Prop :=
  m.2 <:+ rest ∧ (rest = [] → m.1 = n)

theorem Reaches.mono {m : Numeral × List Char} {n' : Numeral} {more : List Char}
    (h : Reaches m n more) (hmore : more <:+ rest) (hn : rest = [] → n = n') :
    Reaches m n' rest := by
  refine ⟨h.1.trans hmore, ?_⟩
  rintro rfl
  rw [h.2 (List.suffix_nil.1 hmore), hn rfl]

theorem reaches_readPower {power : Option Power} (hp : ∀ p, power = some p → p.Valid)
    (whole : List Char) (fraction : Option (List Char)) (rest : List Char) :
    Reaches (readPower whole fraction (power.elim [] Power.text ++ rest)) ⟨whole, fraction, power⟩
      rest := by
  cases power with
  | some p =>
    have hread : readPower whole fraction (p.text ++ rest) =
        (⟨whole, fraction, some { p with digits := p.digits ++ rest.takeWhile Char.isDigit }⟩,
          rest.dropWhile Char.isDigit) := by
      rw [readPower, (hp p rfl).read?_append]
    rw [Option.elim_some, hread]
    refine ⟨List.dropWhile_suffix _, ?_⟩
    rintro rfl
    simp
  | none =>
    obtain ⟨power, more, hread, -, hrest⟩ := exists_readPower whole fraction rest
    refine ⟨?_, ?_⟩
    · rw [Option.elim_none, List.nil_append, hread, hrest]
      exact List.suffix_append _ _
    · rintro rfl
      rfl

/-- Digits are only taken where no power of ten comes next. -/
theorem exists_dropWhile_digits {power : Option Power} (hp : ∀ p, power = some p → p.Valid)
    (rest : List Char) :
    ∃ more, (power.elim [] Power.text ++ rest).dropWhile Char.isDigit =
        power.elim [] Power.text ++ more ∧ more <:+ rest ∧
      (rest = [] → (power.elim [] Power.text ++ rest).takeWhile Char.isDigit = []) := by
  cases power with
  | some p =>
    have hstop : StopsAt Char.isDigit (p.text ++ rest) :=
      ((hp p rfl).stopsAt rest).mono fun c hc => by simp [hc]
    exact ⟨rest, hstop.dropWhile, List.suffix_refl _, fun _ => hstop.takeWhile⟩
  | none =>
    refine ⟨rest.dropWhile Char.isDigit, rfl, List.dropWhile_suffix _, ?_⟩
    rintro rfl
    rfl

variable {whole : List Char} {power : Option Power}

theorem reaches_read_fraction {f : List Char} (hwhole : ∀ c ∈ whole, c.isDigit)
    (hf : ∀ c ∈ f, c.isDigit) (hp : ∀ p, power = some p → p.Valid) (rest : List Char) :
    Reaches (read (whole ++ '.' :: (f ++ (power.elim [] Power.text ++ rest))))
      ⟨whole, some f, power⟩ rest := by
  obtain ⟨more, hdrop, hmore, htake⟩ := exists_dropWhile_digits hp rest
  generalize power.elim [] Power.text ++ rest = tail at hdrop htake ⊢
  have hpoint : StopsAt Char.isDigit ('.' :: (f ++ tail)) := stopsAt_cons.2 rfl
  rw [read, takeWhile_of_stopsAt hwhole hpoint, dropWhile_of_stopsAt hwhole hpoint]
  show Reaches (readPower whole (some ((f ++ tail).takeWhile _)) ((f ++ tail).dropWhile _)) _ _
  rw [List.takeWhile_append_of_pos hf, List.dropWhile_append_of_pos hf, hdrop]
  refine (reaches_readPower hp _ _ more).mono hmore fun hrest => ?_
  rw [htake hrest, List.append_nil]

theorem reaches_read_whole (hwhole : ∀ c ∈ whole, c.isDigit)
    (hp : ∀ p, power = some p → p.Valid) (rest : List Char) :
    Reaches (read (whole ++ (power.elim [] Power.text ++ rest))) ⟨whole, none, power⟩ rest := by
  obtain ⟨more, hdrop, hmore, htake⟩ := exists_dropWhile_digits hp rest
  generalize power.elim [] Power.text ++ rest = tail at hdrop htake ⊢
  rw [read, List.takeWhile_append_of_pos hwhole, List.dropWhile_append_of_pos hwhole, hdrop]
  split
  · -- A point can only come next where the numeral has no power of ten either.
    next r hpoint =>
    cases power with
    | some p =>
      have hmark : p.mark = '.' := (List.cons.inj hpoint).1
      rcases (hp p rfl).mark with h | h <;> rw [h] at hmark <;> cases hmark
    | none =>
      have hr : r.dropWhile Char.isDigit <:+ rest :=
        (List.dropWhile_suffix _).trans ((List.suffix_cons '.' r).trans (hpoint ▸ hmore))
      refine (reaches_readPower hp _ _ _).mono hr fun hrest => ?_
      subst hrest
      have hnil : more = [] := List.suffix_nil.1 hmore
      rw [hnil] at hpoint
      cases hpoint
  · refine (reaches_readPower hp _ _ more).mono hmore fun hrest => ?_
    rw [htake hrest, List.append_nil]

/-- The reader takes the numeral at least. -/
theorem Valid.reaches_read (hn : n.Valid) (rest : List Char) :
    Reaches (read (n.text ++ rest)) n rest := by
  obtain ⟨whole, fraction, power⟩ := n
  cases fraction with
  | some f => simpa [text] using reaches_read_fraction hn.whole (hn.fraction f rfl) hn.power rest
  | none => simpa [text] using reaches_read_whole hn.whole hn.power rest

theorem valid_of_read {c : Char} (hc : c.isDigit) (cs : List Char) :
    (read (c :: cs)).1.Valid ∧ c :: cs = (read (c :: cs)).1.text ++ (read (c :: cs)).2 := by
  have hne : (c :: cs).takeWhile Char.isDigit ≠ [] := by simp [hc]
  have hdigits : ∀ ds : List Char, ∀ d ∈ ds.takeWhile Char.isDigit, d.isDigit :=
    fun ds d hd => List.mem_takeWhile_imp hd
  have hsplit := List.takeWhile_append_dropWhile (p := Char.isDigit) (l := c :: cs)
  rw [read]
  split
  · next more hdrop =>
    obtain ⟨power, rest, hread, hpower, hmore⟩ := exists_readPower
      ((c :: cs).takeWhile Char.isDigit) (some (more.takeWhile Char.isDigit))
      (more.dropWhile Char.isDigit)
    rw [hread]
    refine ⟨⟨hne, hdigits _, ?_, hpower⟩, ?_⟩
    · rintro _ ⟨⟩
      exact hdigits more
    · rw [hdrop, ← List.takeWhile_append_dropWhile (p := Char.isDigit) (l := more), hmore] at hsplit
      simpa [text] using hsplit.symm
  · obtain ⟨power, rest, hread, hpower, hmore⟩ := exists_readPower
      ((c :: cs).takeWhile Char.isDigit) none ((c :: cs).dropWhile Char.isDigit)
    rw [hread]
    refine ⟨⟨hne, hdigits _, ?_, hpower⟩, ?_⟩
    · intro ds hds
      cases hds
    · rw [hmore] at hsplit
      simpa [text] using hsplit.symm

end Numeral

/-! ## Classes of tokens -/

namespace Token

/-- The word is in the class of the token. -/
inductive Matches : List Char → Token → Prop
  | numeral {n : Numeral} : n.Valid → Matches n.text (ofNumeral n)
  | word {c : Char} {cs : List Char} : startsWord c → (∀ d ∈ cs, continuesWord d) →
      Matches (c :: cs) (ofWord (c :: cs))
  | value {cs : List Char} : cs ≠ [] → (∀ d ∈ cs, continuesWord d) →
      Matches ('%' :: cs) (.value (String.ofList cs))
  | symbol (s : Symbol) : Matches [s.char] (.symbol s)

variable {t : Token} {w : List Char}

theorem eq_char_of_ofChar? {c : Char} {s : Symbol} (h : Symbol.ofChar? c = some s) :
    c = s.char := by
  unfold Symbol.ofChar? at h
  split at h <;> cases h <;> rfl

/-- Letters come after the digits, and so does the underscore. -/
theorem isDigit_of_startsWord {c : Char} (h : startsWord c) : c.isDigit = false := by
  have halpha : c.isAlpha =
      (decide ('A'.val ≤ c.val ∧ c.val ≤ 'Z'.val) ||
        (decide ('a'.val ≤ c.val) && decide (c.val ≤ 'z'.val))) := rfl
  rw [startsWord, halpha] at h
  simp only [Bool.or_eq_true, Bool.and_eq_true, decide_eq_true_eq, UInt32.le_iff_toNat_le] at h
  refine Bool.eq_false_iff.2 fun hdigit => ?_
  have hnine := (Char.isDigit_iff_toNat.1 hdigit).2
  rcases h with (⟨h, -⟩ | ⟨h, -⟩) | rfl
  · exact absurd (h.trans hnine) (by decide)
  · exact absurd (h.trans hnine) (by decide)
  · exact absurd hnine (by decide)

/-- What the reader takes is a token. -/
theorem matches_of_read? (h : read? cs = some (t, rest)) : ∃ w, cs = w ++ rest ∧ Matches w t := by
  cases cs with
  | nil => cases h
  | cons c cs =>
    have hword : ∀ d ∈ cs.takeWhile continuesWord, continuesWord d :=
      fun d hd => List.mem_takeWhile_imp hd
    have hsplit : c :: cs = c :: cs.takeWhile continuesWord ++ cs.dropWhile continuesWord := by
      rw [List.cons_append, List.takeWhile_append_dropWhile]
    rw [read?] at h
    by_cases hdigit : c.isDigit
    · rw [if_pos hdigit] at h
      obtain ⟨hn, hcs⟩ := Numeral.valid_of_read hdigit cs
      cases h
      exact ⟨_, hcs, .numeral hn⟩
    rw [if_neg hdigit] at h
    by_cases hstart : startsWord c
    · rw [if_pos hstart] at h
      cases h
      exact ⟨_, hsplit, .word hstart hword⟩
    rw [if_neg hstart] at h
    by_cases hvalue : c = '%'
    · rw [if_pos hvalue] at h
      by_cases hname : cs.takeWhile continuesWord = []
      · rw [if_pos hname] at h
        cases h
      · rw [if_neg hname] at h
        cases h
        exact ⟨_, hsplit, hvalue ▸ .value hname hword⟩
    rw [if_neg hvalue] at h
    obtain ⟨s, hs, heq⟩ := Option.map_eq_some_iff.1 h
    cases heq
    exact ⟨[c], rfl, eq_char_of_ofChar? hs ▸ .symbol s⟩

/-- The reader takes at least every token that the text starts with. -/
theorem Matches.read?_append (h : Matches w t) (rest : List Char) :
    ∃ t' more, read? (w ++ rest) = some (t', more) ∧ more <:+ rest ∧ (rest = [] → t' = t) := by
  cases h with
  | @numeral n hn =>
    obtain ⟨hsuffix, hwhole⟩ := hn.reaches_read rest
    obtain ⟨c, ds, hds⟩ := List.exists_cons_of_ne_nil hn.nonempty
    have hc : c.isDigit := hn.whole c (by simp [hds])
    refine ⟨_, _, ?_, hsuffix, fun h => congrArg ofNumeral (hwhole h)⟩
    rw [Numeral.text, hds, List.cons_append, List.cons_append, List.cons_append, read?, if_pos hc]
  | @word c cs hc hcs =>
    refine ⟨ofWord (c :: (cs ++ rest.takeWhile continuesWord)), _, ?_,
      List.dropWhile_suffix continuesWord, ?_⟩
    · rw [List.cons_append, read?, isDigit_of_startsWord hc, if_neg Bool.false_ne_true, if_pos hc,
        List.takeWhile_append_of_pos hcs, List.dropWhile_append_of_pos hcs]
    · rintro rfl
      simp
  | @value cs hne hcs =>
    refine ⟨.value (String.ofList (cs ++ rest.takeWhile continuesWord)), _, ?_,
      List.dropWhile_suffix continuesWord, ?_⟩
    · have hne' : cs ++ rest.takeWhile continuesWord ≠ [] := by simp [hne]
      rw [List.cons_append, read?, List.takeWhile_append_of_pos hcs,
        List.dropWhile_append_of_pos hcs, if_neg hne']
      rfl
    · rintro rfl
      simp
  | symbol s =>
    refine ⟨_, rest, ?_, List.suffix_refl rest, fun _ => rfl⟩
    cases s <;> rfl

theorem Matches.eq (h : Matches w t) {t' : Token} (h' : Matches w t') : t = t' := by
  obtain ⟨u, more, hread, -, hu⟩ := h.read?_append []
  obtain ⟨u', more', hread', -, hu'⟩ := h'.read?_append []
  rw [← hu rfl, ← hu' rfl]
  exact congrArg Prod.fst (Option.some.inj (hread.symm.trans hread'))

/-- **The reader takes the longest token.** -/
theorem read?_eq_some_iff :
    read? cs = some (t, rest) ↔
      ∃ w, cs = w ++ rest ∧ Matches w t ∧ ∀ u, u <+: rest → ∀ t', Matches (w ++ u) t' → u = [] := by
  constructor
  · intro h
    obtain ⟨w, rfl, hw⟩ := matches_of_read? h
    refine ⟨w, rfl, hw, ?_⟩
    rintro u ⟨v, rfl⟩ t' ht'
    obtain ⟨t'', more, hread, hmore, -⟩ := ht'.read?_append v
    rw [List.append_assoc, h] at hread
    cases hread
    have hlength := hmore.length_le
    rw [List.length_append] at hlength
    exact List.length_eq_zero_iff.1 (by omega)
  · intro h
    obtain ⟨w, rfl, hw, hlongest⟩ := h
    obtain ⟨t', more, hread, ⟨u, rfl⟩, -⟩ := hw.read?_append rest
    obtain ⟨w', hw', ht'⟩ := matches_of_read? hread
    rw [← List.append_assoc] at hw'
    obtain rfl := List.append_cancel_right hw'
    obtain rfl := hlongest u ⟨more, rfl⟩ t' ht'
    rw [List.append_nil] at ht'
    rw [hread, hw.eq ht']
    rfl

end Token

end GateIR.Text

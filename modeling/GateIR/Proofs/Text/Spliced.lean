import GateIR.Proofs.Text.Layout
import GateIR.Proofs.Text.RoundTrip

/-!
# Prefixes of any characters

The printer puts the prefix of the names into the text as it is. A prefix with a percent sign can
bring a value of its own, and one with a comment can hide the rest of a line. The text then reads as
another circuit (`not_forall_parse_text_eq`).

**Theorem (`parse_text_spliced`).** With any other prefix the text of a built circuit reads as the
circuit, or is refused, whatever indentation a string can have. It reads as the circuit exactly when
the prefix is made of characters of words, or when nothing is named.

The first name that is printed is an argument, with a colon behind it, or the result of a constant,
with an equals sign behind it. In a program these two only come right after the name of a value
(`named_program`). But a prefix with another character breaks the name off, and the token that ends
with its number does not start at a percent sign (`exists_token_before`), so it names no value.
-/

namespace GateIR.Text

open Token (value word symbol)

/-! ## Colons and equals signs -/

/-- A token that is neither a colon nor an equals sign. -/
def Token.Plain (t : Token) : Prop := t ≠ symbol .colon ∧ t ≠ symbol .equals

/-- The second token is plain, or the first one is the name of a value. -/
def Names (t u : Token) : Prop := u.Plain ∨ ∃ name, t = value name

/-- Every colon and every equals sign comes right after the name of a value. -/
def Named (ts : List Token) : Prop := ∀ t, List.IsChain Names (t :: ts)

section Named

variable {ts us : List Token}

theorem Named.append (h : Named ts) (h' : Named us) : Named (ts ++ us) := by
  intro t
  have ht := h t
  clear h
  induction ts generalizing t with
  | nil => exact h' t
  | cons u ts ih =>
    obtain ⟨htu, hts⟩ := List.isChain_cons_cons.1 ht
    exact List.isChain_cons_cons.2 ⟨htu, ih u hts⟩

theorem Named.names {t u : Token} (h : Named (ts ++ t :: u :: us)) : Names t u :=
  List.isChain_iff_forall_rel_of_append_cons_cons.1 (h t).tail rfl

theorem named_of_plain (h : ∀ u ∈ ts, u.Plain) : Named ts := by
  induction ts with
  | nil => exact fun t => .singleton t
  | cons u us ih =>
    obtain ⟨hu, hus⟩ := List.forall_mem_cons.1 h
    exact fun t => List.isChain_cons_cons.2 ⟨.inl hu, ih hus u⟩

/-- A colon or an equals sign may follow a list of names. -/
theorem named_names {names : List String} (h : DerivesList DerivesName ts names) (b : Token)
    (hus : Named us) : Named (ts ++ b :: us) := by
  induction h with
  | @one ts name hname =>
    subst hname
    intro t
    exact List.isChain_cons_cons.2 ⟨.inl (by simp [Token.Plain]),
      List.isChain_cons_cons.2 ⟨.inr ⟨name, rfl⟩, hus b⟩⟩
  | @cons ts vs name names hname _ ih =>
    subst hname
    have hfirst : Named [value name, symbol .comma] := named_of_plain (by simp [Token.Plain])
    simpa using hfirst.append ih

/-! ## The grammar -/

theorem plain_list {α : Type} {derives : List Token → α → Prop} {as : List α}
    (hderives : ∀ ts a, derives ts a → ∀ u ∈ ts, u.Plain) (h : DerivesList derives ts as) :
    ∀ u ∈ ts, u.Plain := by
  induction h with
  | one ha => exact hderives _ _ ha
  | cons ha _ ih =>
    refine List.forall_mem_append.2 ⟨hderives _ _ ha, List.forall_mem_cons.2 ⟨?_, ih⟩⟩
    simp [Token.Plain]

theorem plain_angled (h : ∀ u ∈ ts, u.Plain) : ∀ u ∈ angled ts, u.Plain := by
  simpa [angled, Token.Plain, or_imp, forall_and] using h

theorem plain_gateName (name : String) : ∀ u ∈ gateName name, u.Plain := by
  simp [gateName, Token.Plain]

theorem plain_opcode (dialect name : String) : ∀ u ∈ opcode dialect name, u.Plain := by
  simp [opcode, Token.Plain]

theorem plain_of_derivesNumber {t : Token} {x : Binary64} (h : DerivesNumber t x) : t.Plain := by
  cases h <;> simp [Token.Plain]

theorem plain_of_derivesMagnitude {x : Binary64} (h : DerivesMagnitude ts x) :
    ∀ u ∈ ts, u.Plain := by
  cases h with
  | empty => simp
  | pi => simp [Token.Plain]
  | zero ht => simpa using plain_of_derivesNumber ht
  | multiple ht => simpa [Token.Plain] using plain_of_derivesNumber ht

theorem plain_of_derivesAngle {a : Angle} (h : DerivesAngle ts a) : ∀ u ∈ ts, u.Plain := by
  cases h with
  | unsigned h => exact plain_of_derivesMagnitude h
  | negative h => exact List.forall_mem_cons.2 ⟨by simp [Token.Plain], plain_of_derivesMagnitude h⟩

theorem plain_of_derivesGate {g : Gate} (h : DerivesGate ts g) : ∀ u ∈ ts, u.Plain := by
  cases h with
  | fixed => exact plain_gateName _
  | rz ha =>
    exact List.forall_mem_append.2 ⟨plain_gateName _, plain_angled (plain_of_derivesAngle ha)⟩

theorem plain_of_derivesTy {t : Ty} (h : DerivesTy ts t) : ∀ u ∈ ts, u.Plain := by
  cases h <;> simp [Token.Plain, angled]

theorem plain_of_derivesAttribute {a : Attribute} (h : DerivesAttribute ts a) :
    ∀ u ∈ ts, u.Plain := by
  cases h with
  | gate h => exact plain_of_derivesGate h
  | angle h =>
    exact List.forall_mem_append.2 ⟨plain_gateName _, plain_angled (plain_of_derivesAngle h)⟩
  | ty h => exact plain_of_derivesTy h
  | int => simp [Token.Plain]
  | negative => simp [Token.Plain]

theorem named_operands {names : List String} {types : List Ty} (h : DerivesOperands ts names types) :
    Named ts := by
  cases h with
  | none => exact named_of_plain (by simp)
  | some hnames htypes =>
    exact named_names hnames _
      (named_of_plain (plain_list (fun _ _ => plain_of_derivesTy) htypes))

theorem named_body {b : Body} (h : DerivesBody ts b) : Named ts := by
  cases h with
  | constant h =>
    exact named_of_plain (List.forall_mem_append.2 ⟨plain_opcode _ _, plain_of_derivesGate h⟩)
  | quaternion h =>
    refine named_of_plain (List.forall_mem_append.2 ⟨plain_opcode _ _,
      List.forall_mem_append.2 ⟨plain_angled (plain_of_derivesTy h), ?_⟩⟩)
    simp [Token.Plain]
  | @compose ts t lhs rhs h =>
    have hlhs : DerivesName [value lhs] lhs := rfl
    have hrhs : DerivesName [value rhs] rhs := rfl
    have hnames := DerivesList.cons hlhs (.one hrhs)
    exact (named_of_plain (plain_opcode _ _)).append
      (named_names hnames (symbol .colon) (named_of_plain (plain_of_derivesTy h)))
  | xzs => exact named_of_plain (List.forall_mem_append.2 ⟨plain_opcode _ _, by simp [Token.Plain]⟩)
  | qrefGate h ho | qssaGate h ho =>
    exact (named_of_plain (plain_opcode _ _)).append
      ((named_of_plain (plain_angled (plain_of_derivesAttribute h))).append (named_operands ho))
  | qrefDynGate ho =>
    exact (named_of_plain (plain_opcode _ _)).append
      ((named_of_plain (plain_angled (by simp [Token.Plain]))).append (named_operands ho))
  | qrefMeasure | qssaMeasure =>
    exact named_of_plain (List.forall_mem_append.2 ⟨plain_opcode _ _, by simp [Token.Plain]⟩)

theorem named_definition {results : List String} {b : Body} (h : DerivesDefinition ts results b) :
    Named ts := by
  cases h with
  | unnamed h => exact named_body h
  | named hnames h => exact named_names hnames _ (named_body h)

theorem named_statements {ls : List Lexeme} {ss : List Statement} (h : DerivesStatements ls ss) :
    Named (ls.map Lexeme.token) := by
  induction h with
  | nil => exact named_of_plain (by simp)
  | cons hs _ ih =>
    rw [List.map_append]
    cases hs with
    | mk hdef => exact (named_definition hdef).append ih

theorem named_arguments {as : List Argument} (h : DerivesArguments ts as) : Named ts := by
  have hargument {ts : List Token} {a : Argument} (ha : DerivesArgument ts a) : Named ts := by
    cases ha with
    | @mk ts name t ht =>
      have hname : DerivesList DerivesName [value name] [name] := .one rfl
      exact named_names hname (symbol .colon) (named_of_plain (plain_of_derivesTy ht))
  cases h with
  | none => exact named_of_plain (by simp)
  | some has =>
    induction has with
    | one ha => exact hargument ha
    | @cons ts us a as ha _ ih =>
      have hcomma : Named [symbol .comma] := named_of_plain (by simp [Token.Plain])
      simpa using ((hargument ha).append hcomma).append ih

/-- **In a program, every colon and every equals sign comes right after the name of a value.** -/
theorem named_program {ls : List Lexeme} {p : Program} (h : DerivesProgram ls p) :
    Named (ls.map Lexeme.token) := by
  cases h with
  | mk hheader has hss hclose =>
    rw [List.map_append, List.map_append, hheader, List.map_singleton, hclose]
    have hopen : Named [.circuit, symbol .openParen] := named_of_plain (by simp [Token.Plain])
    have hbrace : Named [symbol .closeParen, symbol .openBrace] :=
      named_of_plain (by simp [Token.Plain])
    have hend : Named [symbol .closeBrace] := named_of_plain (by simp [Token.Plain])
    exact (hopen.append ((named_arguments has).append hbrace)).append
      ((named_statements hss).append hend)

end Named

/-! ## The token before a blank -/

section Blank

variable {xs ys rest : List Char} {c d : Char} {t : Token}

/-- No token runs over a blank. -/
theorem exists_word_before (hc : c.isWhitespace)
    (h : Token.read? (xs ++ c :: ys) = some (t, rest)) :
    ∃ w more, xs = w ++ more ∧ rest = more ++ c :: ys ∧ Token.Matches w t := by
  obtain ⟨w, hw, hmatches⟩ := Token.matches_of_read? h
  rcases List.append_eq_append_iff.1 hw with ⟨us, rfl, hus⟩ | ⟨more, rfl, hmore⟩
  · cases us with
    | nil => exact ⟨xs, [], by simp, by simpa using hus.symm, by simpa using hmatches⟩
    | cons d us =>
      obtain ⟨rfl, -⟩ := List.cons.inj hus
      have hgap := hmatches.startsGap_eq_false c (by simp)
      rw [startsGap_of_isWhitespace hc] at hgap
      cases hgap
  · exact ⟨w, more, rfl, hmore, hmatches⟩

/-- Where no comment can start, the word before a blank and a symbol has its token before the
symbol. -/
theorem exists_token_before {line : Nat} {ls : List Lexeme} {s : Symbol}
    (hcomment : ¬ ['/', '/'] <:+: xs ++ [d]) (hd : d.isWhitespace = false)
    (h : Lexeme.scan line (xs ++ d :: ' ' :: s.char :: ys) = .ok ls) :
    ∃ before t w after, ls.map Lexeme.token = before ++ t :: .symbol s :: after ∧
      w <:+ xs ++ [d] ∧ Token.Matches w t := by
  generalize hcs : xs ++ d :: ' ' :: s.char :: ys = cs at h
  fun_induction Lexeme.scan line cs generalizing xs ls with
  | case1 => simp at hcs
  | case2 line rest ih =>
    rcases xs with _ | ⟨x, _ | ⟨y, xs⟩⟩
    · simp at hcs
    · obtain ⟨rfl, rfl, -⟩ : x = '/' ∧ d = '/' ∧ _ := by simpa using hcs
      exact absurd (List.infix_refl _) hcomment
    · obtain ⟨rfl, rfl, -⟩ : x = '/' ∧ y = '/' ∧ _ := by simpa using hcs
      exact absurd (List.prefix_append ['/', '/'] (xs ++ [d])).isInfix hcomment
  | case3 line c rest hstart hblank ih =>
    cases xs with
    | nil =>
      obtain ⟨rfl, -⟩ := List.cons.inj hcs
      rw [hd] at hblank
      cases hblank
    | cons x xs =>
      obtain ⟨rfl, rfl⟩ := List.cons.inj hcs
      obtain ⟨before, t, w, after, hls, hw, hmatches⟩ :=
        ih (fun hpair => hcomment (hpair.trans (List.suffix_cons x _).isInfix)) rfl h
      exact ⟨before, t, w, after, hls, hw.trans (List.suffix_cons x _), hmatches⟩
  | case4 line c rest hstart hblank t more hread ih =>
    have hblank' : ' '.isWhitespace := rfl
    have htext : xs ++ d :: ' ' :: s.char :: ys = (xs ++ [d]) ++ ' ' :: s.char :: ys := by simp
    rw [← hcs, htext] at hread
    obtain ⟨w, zs, hzs, rfl, hmatches⟩ := exists_word_before hblank' hread
    obtain ⟨ls', hmore, rfl⟩ := map_eq_ok_iff.1 h
    cases zs using List.reverseRecOn with
    | nil =>
      -- The word ends at the blank, and the symbol is read next.
      have hsymbol : Token.read? (s.char :: ys) = some (.symbol s, ys) := by cases s <;> rfl
      rw [List.nil_append, scan_blank, scan_token hsymbol] at hmore
      obtain ⟨ls'', -, rfl⟩ := map_eq_ok_iff.1 hmore
      refine ⟨[], t, w, ls''.map Lexeme.token, rfl, ?_, hmatches⟩
      rw [hzs, List.append_nil]
    | append_singleton zs e _ =>
      rw [← List.append_assoc] at hzs
      obtain ⟨rfl, hde⟩ := List.append_inj' hzs rfl
      obtain rfl := List.singleton_inj.1 hde
      have hsuffix : zs ++ [d] <:+ w ++ zs ++ [d] := by
        rw [List.append_assoc]
        exact List.suffix_append _ _
      obtain ⟨before, u, v, after, hls, hv, hu⟩ :=
        ih (fun hpair => hcomment (hpair.trans hsuffix.isInfix)) (by simp) hmore
      exact ⟨t :: before, u, v, after, by simp [hls], hv.trans hsuffix, hu⟩
  | case5 => cases h

end Blank

/-! ## Names with other characters -/

theorem Token.Matches.of_value {w : List Char} {name : String}
    (h : Token.Matches w (.value name)) : ∃ cs, w = '%' :: cs ∧ ∀ c ∈ cs, continuesWord c := by
  generalize ht : Token.value name = t at h
  cases h with
  | numeral =>
    unfold Token.ofNumeral at ht
    split at ht
    · split at ht <;> cases ht
    · cases ht
  | word =>
    unfold Token.ofWord at ht
    split at ht
    · cases ht
    · split at ht <;> cases ht
  | value _ hcs => exact ⟨_, rfl, hcs⟩
  | symbol => cases ht

/-- A percent sign that starts the last token of a word is the last one. -/
theorem ne_value_of_suffix {cs w : List Char} {t : Token} (hpercent : '%' ∉ cs)
    (hchar : ¬ ∀ c ∈ cs, Token.continuesWord c) (hw : w <:+ '%' :: cs) (h : Token.Matches w t) :
    ¬ ∃ name, t = value name := by
  rintro ⟨name, rfl⟩
  obtain ⟨us, rfl, hus⟩ := h.of_value
  rcases List.suffix_cons_iff.1 hw with heq | hsuffix
  · obtain rfl := (List.cons.inj heq).2
    exact hchar hus
  · exact hpercent (hsuffix.subset List.mem_cons_self)

/-- A pair that ends before some characters does not run into them. -/
theorem infix_of_append {x : Char} {xs ys : List Char} (hys : x ∉ ys)
    (h : [x, x] <:+: xs ++ ys) : [x, x] <:+: xs := by
  rcases List.infix_append_iff.1 h with h | h | ⟨us, vs, huv, hus, hvs⟩
  · exact h
  · exact absurd (h.subset List.mem_cons_self) hys
  · cases vs using List.reverseRecOn with
    | nil =>
      rw [List.append_nil] at huv
      exact huv ▸ hus.isInfix
    | append_singleton vs v _ =>
      have hlast : ([x] ++ [x]).getLast? = (us ++ vs ++ [v]).getLast? := by
        rw [List.append_assoc, ← huv]
        rfl
      rw [List.getLast?_concat, List.getLast?_concat, Option.some.injEq] at hlast
      exact absurd (hvs.subset (by simp [hlast])) hys

/-- A numbered name with other characters than those of words comes to an end before its number, and
no program has it in front of a colon or an equals sign. -/
theorem not_named_of_spliced {namePrefix ys : List Char} (hpercent : '%' ∉ namePrefix)
    (hcomment : ¬ ['/', '/'] <:+: namePrefix)
    (hchars : ¬ ∀ c ∈ namePrefix, Token.continuesWord c) (n : Nat) {s : Symbol}
    (hs : ¬ (symbol s).Plain) {line : Nat} {ls more : List Lexeme} (hls : more <:+ ls)
    (h : Lexeme.scan line ('%' :: (namePrefix ++ (Nat.toDigits 10 n ++ ' ' :: s.char :: ys))) =
      .ok more) : ¬ Named (ls.map Lexeme.token) := by
  have hword : ∀ c ∈ Nat.toDigits 10 n, Token.continuesWord c := continuesWord_of_mem_toDigits
  have hpercent' : '%' ∉ Nat.toDigits 10 n := fun hmem => absurd (hword _ hmem) (by decide)
  have hslash : '/' ∉ Nat.toDigits 10 n := fun hmem => absurd (hword _ hmem) (by decide)
  have hcomment' : ¬ ['/', '/'] <:+: '%' :: (namePrefix ++ Nat.toDigits 10 n) := by
    intro hpair
    rcases List.infix_cons_iff.1 hpair with hstart | hrest
    · exact absurd (List.cons_prefix_cons.1 hstart).1 (by decide)
    · exact hcomment (infix_of_append hslash hrest)
  have hspliced : ¬ ∀ c ∈ namePrefix ++ Nat.toDigits 10 n, Token.continuesWord c :=
    fun hall => hchars fun c hc => hall c (List.mem_append_left _ hc)
  have hne : Nat.toDigits 10 n ≠ [] := Nat.toDigits_ne_nil
  obtain ⟨ds, d, hds⟩ := (List.eq_nil_or_concat' _).resolve_left hne
  have hd : d.isWhitespace = false := by
    have hgap := startsGap_of_continuesWord (hword d (by simp [hds]))
    rw [startsGap, Bool.or_eq_false_iff] at hgap
    exact hgap.1
  have hsplit : '%' :: (namePrefix ++ Nat.toDigits 10 n) = ('%' :: (namePrefix ++ ds)) ++ [d] := by
    simp [hds]
  have htext : '%' :: (namePrefix ++ (Nat.toDigits 10 n ++ ' ' :: s.char :: ys)) =
      ('%' :: (namePrefix ++ ds)) ++ d :: ' ' :: s.char :: ys := by simp [hds]
  rw [hsplit] at hcomment'
  rw [htext] at h
  obtain ⟨before, t, w, after, hmore, hw, hmatches⟩ := exists_token_before hcomment' hd h
  rw [← hsplit] at hw
  obtain ⟨front, rfl⟩ := hls
  intro hnamed
  rw [List.map_append, hmore, ← List.append_assoc] at hnamed
  rcases hnamed.names with hplain | hname
  · exact hs hplain
  · refine ne_value_of_suffix ?_ hspliced hw hmatches hname
    simpa using ⟨hpercent, hpercent'⟩

end GateIR.Text

namespace GateIR.Circuit

open Text (Lexeme Token Argument Statement)

variable {c : Circuit} {namePrefix : String} {i : Instruction}

/-! ## Circuits without values -/

theorem bodyFor_eq_of_operands (h : i.operands = []) (p q : String) :
    c.bodyFor p i = c.bodyFor q i := by
  cases i <;> simp_all [Instruction.operands, bodyFor]

theorem printable_bodyFor_of_operands (h : i.operands = []) :
    (c.bodyFor namePrefix i).Printable := by
  rw [bodyFor_eq_of_operands h namePrefix ""]
  exact printable_bodyFor (by simp) i

/-- A circuit without values is written without names. -/
theorem WellFormed.programFor_eq (hwf : c.WellFormed) (h : c.definitions = []) (p q : String) :
    c.programFor p = c.programFor q := by
  have harguments : c.arguments.toList = [] := (List.append_eq_nil_iff.1 h).1
  have hinstructions : ∀ i ∈ c.instructions, i.operands = [] ∧ i.results = [] := by
    intro i hi
    refine ⟨List.eq_nil_iff_forall_not_mem.2 fun v hv => ?_,
      List.eq_nil_iff_forall_not_mem.2 fun v hv => ?_⟩
    · simpa [h] using hwf.mem_definitions_of_operand hi v hv
    · simpa [h] using mem_definitions_of_result hi v hv
  have hstatements : ∀ x ∈ c.instructions.toList.zipIdx 2,
      c.statementFor p x.1 x.2 = c.statementFor q x.1 x.2 := by
    intro x hx
    obtain ⟨hoperands, hresults⟩ :=
      hinstructions x.1 (Array.mem_toList_iff.1 (List.fst_mem_of_mem_zipIdx hx))
    rw [statementFor, statementFor, bodyFor_eq_of_operands hoperands p q, hresults]
    rfl
  rw [programFor, programFor, harguments, List.map_congr_left hstatements]
  rfl

/-! ## The first value -/

/-- Nothing can be used before the first value. -/
theorem WellFormed.operands_eq_nil (hwf : c.WellFormed) (harguments : c.arguments.toList = [])
    {before after : List Instruction} (h : c.instructions.toList = before ++ i :: after)
    (hbefore : ∀ j ∈ before, j.results = []) : i.operands = [] := by
  have hi : c.instructions[before.length]? = some i := by
    rw [← Array.getElem?_toList, h, List.getElem?_append_right le_rfl]
    simp
  refine List.eq_nil_iff_forall_not_mem.2 fun v hv => ?_
  have hdefined := (hwf.scoping _ i hi v hv).1
  rw [definedBefore, harguments, h, List.take_left, List.nil_append, List.mem_flatMap] at hdefined
  obtain ⟨j, hj, hvj⟩ := hdefined
  rw [hbefore j hj] at hvj
  cases hvj

/-- Only a constant has results and no operands. -/
theorem WellFormed.exists_constant (hwf : c.WellFormed) (hi : i ∈ c.instructions)
    (hoperands : i.operands = []) (hresults : i.results ≠ []) : ∃ g out, i = .constant g out := by
  cases i with
  | constant g out => exact ⟨g, out, rfl⟩
  | qssaGate a ins outs =>
    obtain rfl : ins = [] := hoperands
    obtain ⟨types, hfix, htypes⟩ := hwf.typing _ hi
    cases hfix
    exact absurd (List.forall₂_nil_right_iff.1 htypes) hresults
  | qrefGate a ins => exact absurd rfl hresults
  | qrefDynGate ins g => exact absurd rfl hresults
  | _ => cases hoperands

/-- Without arguments, the first value is a gate value. -/
theorem WellFormed.exists_first_constant (hwf : c.WellFormed)
    (harguments : c.arguments.toList = []) (hne : c.definitions ≠ []) :
    ∃ before g out after, c.instructions.toList = before ++ .constant g out :: after ∧
      ∀ i ∈ before, i.operands = [] ∧ i.results = [] := by
  have hsome : (c.instructions.toList.find? (·.results ≠ [])).isSome := by
    rw [definitions, harguments, List.nil_append, ne_eq, List.flatMap_eq_nil_iff] at hne
    simpa using hne
  obtain ⟨i, hfind⟩ := Option.isSome_iff_exists.1 hsome
  obtain ⟨hresults, before, after, hsplit, hbefore⟩ := List.find?_eq_some_iff_append.1 hfind
  have hbefore : ∀ j ∈ before, j.results = [] := by simpa using hbefore
  have hoperands := hwf.operands_eq_nil harguments hsplit hbefore
  have hi : i ∈ c.instructions := by
    rw [← Array.mem_toList_iff, hsplit]
    simp
  obtain ⟨g, out, rfl⟩ := hwf.exists_constant hi hoperands (by simpa using hresults)
  refine ⟨before, g, out, after, hsplit, fun j hj => ⟨?_, hbefore j hj⟩⟩
  obtain ⟨first, more, rfl⟩ := List.append_of_mem hj
  rw [List.append_assoc, List.cons_append] at hsplit
  exact hwf.operands_eq_nil harguments hsplit fun k hk => hbefore k (List.mem_append_left _ hk)

/-! ## Where the first name is scanned -/

theorem exists_intercalate (a : String) (as : List String) :
    ∃ more, (", ".intercalate (a :: as)).toList = a.toList ++ more := by
  cases as with
  | nil => exact ⟨[], by simp⟩
  | cons b bs => exact ⟨", ".toList ++ (", ".intercalate (b :: bs)).toList, by simp⟩

theorem toList_nameIn (c : Circuit) (namePrefix : String) (v : Value) :
    (c.nameIn namePrefix v).toList =
      namePrefix.toList ++ Nat.toDigits 10 (c.definitions.idxOf v) := by
  simp [nameIn]

/-- The first argument is scanned from its percent sign on. -/
theorem exists_scan_argument {ls : List Lexeme} {indent : Nat} {v : Value} {vs : List Value}
    (harguments : c.arguments.toList = v :: vs)
    (h : Lexeme.scan 1 ((c.programFor namePrefix).text indent).toList = .ok ls) :
    ∃ line more n ys, more <:+ ls ∧
      Lexeme.scan line ('%' :: (namePrefix.toList ++ (Nat.toDigits 10 n ++
        ' ' :: Text.Symbol.colon.char :: ys))) = .ok more := by
  rw [Text.Program.toList_text, Text.scan_open] at h
  obtain ⟨more, hmore, rfl⟩ := map_eq_ok_iff.1 h
  have hfirst : (c.programFor namePrefix).arguments.map Argument.text =
      (⟨c.nameIn namePrefix v, c.tyOf v⟩ : Argument).text ::
        vs.map fun v => (⟨c.nameIn namePrefix v, c.tyOf v⟩ : Argument).text := by
    simp [programFor, harguments]
  obtain ⟨rest, hrest⟩ := exists_intercalate (⟨c.nameIn namePrefix v, c.tyOf v⟩ : Argument).text
    (vs.map fun v => (⟨c.nameIn namePrefix v, c.tyOf v⟩ : Argument).text)
  rw [hfirst, hrest] at hmore
  simp only [Argument.text, String.toList_append, toList_nameIn, List.append_assoc] at hmore
  exact ⟨1, more, _, _, List.suffix_append [_, _] _, hmore⟩

/-- The statements of some instructions, from a line on. -/
def statementsFor (c : Circuit) (namePrefix : String) (is : List Instruction) (line : Nat) :
    List Statement :=
  (is.zipIdx line).map fun p => c.statementFor namePrefix p.1 p.2

/-- Statements without names are scanned, whatever the prefix. -/
theorem scan_statementsFor {is : List Instruction} (h : ∀ i ∈ is, i.operands = [] ∧ i.results = [])
    (line indent : Nat) (rest : List Char) :
    ∃ front, Lexeme.scan line ((c.statementsFor namePrefix is line).flatMap
        (fun s => List.replicate indent ' ' ++ s.text.toList ++ ['\n']) ++ rest) =
      (front ++ ·) <$> Lexeme.scan (line + is.length) rest := by
  have hmem : ∀ s ∈ c.statementsFor namePrefix is line, ∃ i ∈ is, ∃ line,
      s = c.statementFor namePrefix i line := by
    intro s hs
    obtain ⟨p, hp, rfl⟩ := List.mem_map.1 hs
    exact ⟨p.1, List.fst_mem_of_mem_zipIdx hp, p.2, rfl⟩
  have hresults : ∀ s ∈ c.statementsFor namePrefix is line, ∀ n ∈ s.results, Text.ValidName n := by
    intro s hs n hn
    obtain ⟨i, hi, line, rfl⟩ := hmem s hs
    rw [statementFor, (h i hi).2] at hn
    cases hn
  have hbodies : ∀ s ∈ c.statementsFor namePrefix is line, s.body.Printable := by
    intro s hs
    obtain ⟨i, hi, line, rfl⟩ := hmem s hs
    exact printable_bodyFor_of_operands (h i hi).1
  have hlength : line + (c.statementsFor namePrefix is line).length = line + is.length := by
    simp [statementsFor]
  have hlines : (c.statementsFor namePrefix is line).map (·.line) =
      List.range' line (c.statementsFor namePrefix is line).length := by
    simp [statementsFor, statementFor, Function.comp_def]
  exact ⟨_, hlength ▸ Text.scan_statements indent hresults hbodies hlines⟩

/-- The first constant is scanned from the percent sign of its result on. -/
theorem exists_scan_constant {ls : List Lexeme} {indent : Nat} {before after : List Instruction}
    {g : Gate} {out : Value} (harguments : c.arguments.toList = [])
    (hinstructions : c.instructions.toList = before ++ .constant g out :: after)
    (hbefore : ∀ i ∈ before, i.operands = [] ∧ i.results = [])
    (h : Lexeme.scan 1 ((c.programFor namePrefix).text indent).toList = .ok ls) :
    ∃ line more n ys, more <:+ ls ∧
      Lexeme.scan line ('%' :: (namePrefix.toList ++ (Nat.toDigits 10 n ++
        ' ' :: Text.Symbol.equals.char :: ys))) = .ok more := by
  have hnone : (c.programFor namePrefix).arguments = [] := by simp [programFor, harguments]
  have hempty : (", ".intercalate (([] : List Argument).map Argument.text)).toList = [] := rfl
  have hstatements : (c.programFor namePrefix).statements =
      c.statementsFor namePrefix before 2 ++
        c.statementFor namePrefix (.constant g out) (2 + before.length) ::
          c.statementsFor namePrefix after (2 + before.length + 1) := by
    rw [programFor, hinstructions, List.zipIdx_append, List.map_append]
    rfl
  have hconstant : (c.statementFor namePrefix (.constant g out) (2 + before.length)).text.toList =
      '%' :: (namePrefix.toList ++ (Nat.toDigits 10 (c.definitions.idxOf out) ++
        ' ' :: '=' :: ' ' :: (c.bodyFor namePrefix (.constant g out)).text.toList)) := by
    simp [Statement.text, statementFor, Instruction.results, Text.Body.namesText, toList_nameIn]
  obtain ⟨front, hfront⟩ := scan_statementsFor hbefore 2 indent _
  rw [Text.Program.toList_text, Text.scan_open, hnone, hempty, List.nil_append, Text.scan_close,
    hstatements, List.flatMap_append, List.append_assoc, hfront] at h
  obtain ⟨_, hclose, rfl⟩ := map_eq_ok_iff.1 h
  obtain ⟨_, hstart, rfl⟩ := map_eq_ok_iff.1 hclose
  obtain ⟨more, hmore, rfl⟩ := map_eq_ok_iff.1 hstart
  rw [List.flatMap_cons, List.append_assoc, List.append_assoc, List.append_assoc,
    Text.scan_replicate_blank, hconstant] at hmore
  simp only [List.cons_append, List.append_assoc] at hmore
  exact ⟨_, more, _, _, List.suffix_append ([_, _] ++ [_, _] ++ front) _, hmore⟩

/-- **A prefix that breaks off the names is refused**, if it brings no names of its own. -/
theorem WellFormed.parse_spliced (hwf : c.WellFormed) (hne : c.definitions ≠ [])
    (hpercent : '%' ∉ namePrefix.toList) (hcomment : ¬ ['/', '/'] <:+: namePrefix.toList)
    (hchars : ¬ ∀ ch ∈ namePrefix.toList, Token.continuesWord ch) (indent : Nat) :
    ∃ e, Circuit.parse ((c.programFor namePrefix).text indent) = .error e := by
  cases hparse : Circuit.parse ((c.programFor namePrefix).text indent) with
  | error e => exact ⟨e, rfl⟩
  | ok d =>
    obtain ⟨p, hp, -⟩ := bind_eq_ok_iff.1 hparse
    obtain ⟨ls, hls, hderives⟩ := Text.exists_derives_of_parse hp
    have hnamed := Text.named_program hderives
    have hscan := mapError_eq_ok_iff.1 hls
    cases harguments : c.arguments.toList with
    | cons v vs =>
      obtain ⟨line, more, n, ys, hsuffix, hmore⟩ := exists_scan_argument harguments hscan
      exact absurd hnamed (Text.not_named_of_spliced hpercent hcomment hchars n
        (by simp [Token.Plain]) hsuffix hmore)
    | nil =>
      obtain ⟨before, g, out, after, hinstructions, hbefore⟩ :=
        hwf.exists_first_constant harguments hne
      obtain ⟨line, more, n, ys, hsuffix, hmore⟩ :=
        exists_scan_constant harguments hinstructions hbefore hscan
      exact absurd hnamed (Text.not_named_of_spliced hpercent hcomment hchars n
        (by simp [Token.Plain]) hsuffix hmore)

/-! ## Every prefix without names and comments -/

/-- **The prefix cannot change the circuit**, as long as it holds no percent sign and no start of a
comment. The text then reads as the circuit if the prefix is made of characters of words or nothing
is named, and is refused otherwise. -/
theorem parse_text_spliced (calls : List Call) (hsize : (built calls).table.size ≤ UInt32.size)
    (hfirst : ArgumentsFirst calls)
    (hshares : ∀ i ∈ (built calls).instructions, (built calls).SharesType i) (config : PrintConfig)
    (_hindent : config.indent < 2 ^ 63) (hpercent : '%' ∉ config.valuePrefix.toList)
    (hcomment : ¬ ['/', '/'] <:+: config.valuePrefix.toList) :
    ∃ text, (built calls).text config = .ok text ∧
      (((built calls).definitions = [] ∨
          ∀ ch ∈ config.valuePrefix.toList, Token.continuesWord ch) →
        Circuit.parse text = .ok (built calls)) ∧
      (¬ ((built calls).definitions = [] ∨
          ∀ ch ∈ config.valuePrefix.toList, Token.continuesWord ch) →
        ∃ e, Circuit.parse text = .error e) := by
  have hwf := wellFormed_built hsize
  have hself := renumber_eq_self (inOrder_built hsize hfirst) hwf
  refine ⟨_, text_eq hwf config, ?_, fun h => ?_⟩
  · rintro (hnone | hchars)
    · have hplain : ∀ ch ∈ "".toList, Token.continuesWord ch := by simp
      rw [hwf.programFor_eq hnone config.valuePrefix "",
        parse_text_programFor ⟨config.indent, ""⟩ hplain, toCircuit_programFor hwf hsize hshares,
        hself]
    · rw [parse_text_programFor config hchars, toCircuit_programFor hwf hsize hshares, hself]
  · obtain ⟨hne, hchars⟩ := not_or.1 h
    exact hwf.parse_spliced hne hpercent hcomment hchars config.indent

/-- One argument, and nothing else. -/
def lone (ty : Ty) : List Call := [.argument ty]

theorem argumentsFirst_lone (ty : Ty) : ArgumentsFirst (lone ty) := ⟨lone ty, [], rfl, rfl, rfl⟩

theorem parse_text_spliced_twoNames :
    (built (lone .qubit)).table.size ≤ UInt32.size ∧ ArgumentsFirst (lone .qubit) ∧
      (∀ i ∈ (built (lone .qubit)).instructions, (built (lone .qubit)).SharesType i) ∧
      2 < 2 ^ 63 ∧ '%' ∉ "a : !qubit, b".toList ∧ ¬ ['/', '/'] <:+: "a : !qubit, b".toList ∧
      ∃ text, (built (lone .qubit)).text ⟨2, "a : !qubit, b"⟩ = .ok text ∧
        ∃ e, Circuit.parse text = .error e := by
  have hsize : (built (lone .qubit)).table.size ≤ UInt32.size := by decide
  have hshares : ∀ i ∈ (built (lone .qubit)).instructions, (built (lone .qubit)).SharesType i := by
    decide
  have hpercent : '%' ∉ "a : !qubit, b".toList := by decide
  have hcomment : ¬ ['/', '/'] <:+: "a : !qubit, b".toList := by decide +kernel
  have hspliced : ¬ ((built (lone .qubit)).definitions = [] ∨
      ∀ ch ∈ "a : !qubit, b".toList, Token.continuesWord ch) :=
    not_or.2 ⟨by decide, fun hchars => absurd (hchars ' ' (by decide)) (by decide)⟩
  obtain ⟨text, htext, -, hrefused⟩ := parse_text_spliced (lone .qubit) hsize
    (argumentsFirst_lone .qubit) hshares ⟨2, "a : !qubit, b"⟩ (by decide) hpercent hcomment
  exact ⟨hsize, argumentsFirst_lone .qubit, hshares, by decide, hpercent, hcomment, text, htext,
    hrefused hspliced⟩

/-- A comment hides the number and the type of the argument. -/
example : (built (lone .bool)).text ⟨2, "a : !qubit) \x7b //"⟩ =
      .ok "circuit(%a : !qubit) \x7b //0 : i1) \x7b\n\x7d\n" ∧
    Circuit.parse "circuit(%a : !qubit) \x7b //0 : i1) \x7b\n\x7d\n" =
      .ok (built (lone .qubit)) := by decide +kernel

/-- A prefix with a percent sign can bring an argument of its own. -/
theorem not_forall_parse_text_eq :
    ¬ ∀ calls config, (built calls).table.size ≤ UInt32.size → ArgumentsFirst calls →
      (∀ i ∈ (built calls).instructions, (built calls).SharesType i) →
      ∀ text, (built calls).text config = .ok text →
        (∃ e, Circuit.parse text = .error e) ∨ Circuit.parse text = .ok (built calls) := by
  intro h
  have htext : (built (lone .qubit)).text ⟨2, "a : !qubit, %"⟩ =
      .ok "circuit(%a : !qubit, %0 : !qubit) \x7b\n\x7d\n" := by decide +kernel
  have hparse : Circuit.parse "circuit(%a : !qubit, %0 : !qubit) \x7b\n\x7d\n" =
      .ok (built [.qubits 2]) := by decide +kernel
  rcases h (lone .qubit) _ (by decide) (argumentsFirst_lone .qubit) (by decide) _ htext with
    ⟨e, he⟩ | hsame
  · rw [hparse] at he
    cases he
  · rw [hparse] at hsame
    revert hsame
    decide

end GateIR.Circuit

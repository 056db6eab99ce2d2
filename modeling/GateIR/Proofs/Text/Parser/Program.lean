import GateIR.Proofs.Text.Printed
import GateIR.Text.Read

/-!
# Recognizing programs

**Theorem (`parse_iff_derives`).** A text is read as a program exactly when its lexemes derive the
program, and they derive at most one.

What a parser takes derives what it returns. The other way round, a parser takes all that a rule
derives only if it stops where the rule does, and no token closes a list of operands. The parser
looks for a colon after the names, to tell them from the results of the next statement, and goes on
with types at a comma. The start of a statement and the closing brace are neither (`Follows`), so
that no instruction is read too far.

That the lexemes derive at most one program is then read off the parser, which returns at most one.
-/

namespace GateIR.Text.Parser

variable {α : Type} {line : Nat} {ts : List Token} {ls rest : List Lexeme}

/-! ## Parts of statements -/

theorem bracketed_eq_ok_iff {p : Parser α} {derives : List Token → α → Prop}
    (hp : Recognizes p derives) {a : α} :
    (bracketed p).run ls = .ok (a, rest) ↔ ∃ ts, derives ts a ∧ Takes (angled ts) ls rest := by
  simp only [bracketed, run_bind, andThen_eq_ok, expect_eq_ok_iff, hp.run_eq_ok_iff]
  constructor
  · intro h
    obtain ⟨-, m1, h1, b, m2, ⟨ts, hb, h2⟩, -, m3, h3, h⟩ := h
    cases h
    exact ⟨ts, hb, h1.append (h2.append h3)⟩
  · intro h
    obtain ⟨ts, ha, h⟩ := h
    obtain ⟨line, more, close, rfl, hmore⟩ := Takes.angled_iff.1 h
    exact ⟨(), more, .cons .nil, a, _, ⟨ts, ha, hmore⟩, (), rest, .cons .nil, rfl⟩

theorem argument_recognizes : Recognizes argument DerivesArgument where
  sound h := by
    simp only [argument, run_bind, andThen_eq_ok, valueName_eq_ok_iff, expect_eq_ok_iff,
      ty_recognizes.run_eq_ok_iff] at h
    obtain ⟨name, m1, h1, -, m2, h2, t, m3, ⟨ts, ht, h3⟩, h⟩ := h
    cases h
    exact ⟨_, .mk ht, h1.append (h2.append h3)⟩
  complete ha h := by
    cases ha with
    | mk ht =>
      obtain ⟨l1, mid, rfl, hmid⟩ := Takes.cons_iff.1 h
      obtain ⟨l2, more, rfl, hmore⟩ := Takes.cons_iff.1 hmid
      simp [argument, andThen, ty_complete ht hmore]

/-! ## Operands -/

/-- The lexemes neither start an operand list nor go on with a comma. -/
def Follows (ts : List Lexeme) : Prop := operandsAhead ts = false ∧ NoComma ts

/-- Names are taken for operands when a colon follows. -/
theorem operandsAhead_names {names : List String} (hnames : DerivesList DerivesName ts names)
    {t : Token} (h : Takes ts ls (⟨t, line⟩ :: rest)) (ht : t ≠ .symbol .comma) :
    operandsAhead ls = decide (t = .symbol .colon) := by
  -- The look-ahead passes over a name and a comma at a time, as the list is built.
  induction hnames generalizing ls with
  | one hname =>
    subst hname
    obtain ⟨l, more, rfl, hmore⟩ := Takes.cons_iff.1 h
    obtain rfl := Takes.nil_iff.1 hmore
    unfold operandsAhead
    split
    · next heq =>
      cases heq
      exact absurd rfl ht
    · next heq =>
      cases heq
      rfl
    · next hcolon =>
      refine (decide_eq_false fun h => ?_).symm
      subst h
      exact hcolon _ _ _ _ rfl
  | cons hname _ ih =>
    subst hname
    simp only [Takes.append_iff, Takes.cons_iff, Takes.nil_iff] at h
    obtain ⟨_, ⟨l1, _, rfl, rfl⟩, l2, more, rfl, hmore⟩ := h
    rw [operandsAhead, ih hmore]

theorem operands_sound {names : List String} {types : List Ty}
    (h : operands.run ls = .ok ((names, types), rest)) :
    ∃ ts, DerivesOperands ts names types ∧ Takes ts ls rest := by
  simp only [operands, run_bind, andThen_eq_ok] at h
  obtain ⟨ahead, mid, hahead, h⟩ := h
  cases hahead
  split at h
  · simp only [run_bind, andThen_eq_ok, commaSeparated_eq_ok_iff valueName_recognizes,
      commaSeparated_eq_ok_iff ty_recognizes, expect_eq_ok_iff] at h
    obtain ⟨ns, m1, ⟨⟨ts, hns, h1⟩, -⟩, -, m2, h2, tys, m3, ⟨⟨us, htys, h3⟩, -⟩, h⟩ := h
    cases h
    exact ⟨_, .some hns htys, h1.append (h2.append h3)⟩
  · cases h
    exact ⟨[], .none, .nil⟩

theorem operands_complete {names : List String} {types : List Ty}
    (hd : DerivesOperands ts names types) (h : Takes ts ls rest) (hrest : Follows rest) :
    operands.run ls = .ok ((names, types), rest) := by
  cases hd with
  | none =>
    obtain rfl := Takes.nil_iff.1 h
    simp [operands, andThen, lookahead, hrest.1]
  | some hnames htypes =>
    obtain ⟨mid, htake, hmid⟩ := Takes.append_iff.1 h
    obtain ⟨line, more, rfl, hmore⟩ := Takes.cons_iff.1 hmid
    have hahead := operandsAhead_names hnames htake (by simp)
    have hcolon : NoComma (⟨.symbol .colon, line⟩ :: more) := by simp
    have hns := (commaSeparated_eq_ok_iff valueName_recognizes).2 ⟨⟨_, hnames, htake⟩, hcolon⟩
    have htys := (commaSeparated_eq_ok_iff ty_recognizes).2 ⟨⟨_, htypes, hmore⟩, hrest.2⟩
    simp [operands, andThen, lookahead, hahead, hns, htys]

/-! ## Instructions -/

/-- An attribute, or a gate value, that is applied to operands. -/
theorem application_sound {p : Parser α} {derives : List Token → α → Prop}
    (hp : Recognizes p derives) {f : α → List String → List Ty → Body} {b : Body}
    (h : (bracketed p >>= fun a => operands >>= fun x => pure (f a x.1 x.2)).run ls =
      .ok (b, rest)) :
    ∃ ts us a names types, derives ts a ∧ DerivesOperands us names types ∧
      b = f a names types ∧ Takes (angled ts ++ us) ls rest := by
  simp only [run_bind, andThen_eq_ok, bracketed_eq_ok_iff hp] at h
  obtain ⟨a, mid, ⟨ts, ha, htake⟩, ⟨names, types⟩, mid', hoperands, h⟩ := h
  cases h
  obtain ⟨us, hus, hmid⟩ := operands_sound hoperands
  exact ⟨ts, us, a, names, types, ha, hus, rfl, htake.append hmid⟩

theorem application_complete {p : Parser α} {derives : List Token → α → Prop}
    (hp : Recognizes p derives) {f : α → List String → List Ty → Body} {us : List Token} {a : α}
    {names : List String} {types : List Ty} (ha : derives ts a)
    (hus : DerivesOperands us names types) (h : Takes (angled ts ++ us) ls rest)
    (hrest : Follows rest) :
    (bracketed p >>= fun a => operands >>= fun x => pure (f a x.1 x.2)).run ls =
      .ok (f a names types, rest) := by
  obtain ⟨mid, htake, hmid⟩ := Takes.append_iff.1 h
  have hbracketed := (bracketed_eq_ok_iff hp).2 ⟨ts, ha, htake⟩
  simp [andThen, hbracketed, operands_complete hus hmid hrest]

theorem body_sound {b : Body} (h : body.run ls = .ok (b, rest)) :
    ∃ ts, DerivesBody ts b ∧ Takes ts ls rest := by
  simp only [body, run_bind, andThen_eq_ok, identifier_eq_ok_iff, expect_eq_ok_iff] at h
  obtain ⟨dialect, m1, h1, -, m2, h2, name, m3, h3, h⟩ := h
  have hop : Takes (opcode dialect name) ls m3 := h1.append (h2.append h3)
  unfold bodyOf at h
  split at h
  · simp only [run_bind, andThen_eq_ok, gate_recognizes.run_eq_ok_iff] at h
    obtain ⟨g, m4, ⟨ts, hg, htake⟩, h⟩ := h
    cases h
    exact ⟨_, .constant hg, hop.append htake⟩
  · simp only [quaternion, run_bind, andThen_eq_ok, bracketed_eq_ok_iff ty_recognizes,
      valueName_eq_ok_iff, expect_eq_ok_iff, keyword_eq_ok_iff] at h
    obtain ⟨t, m4, ⟨ts, ht, h4⟩, real, m5, h5, -, m6, h6, i, m7, h7, -, m8, h8, -, m9, h9, j,
      m10, h10, -, m11, h11, -, m12, h12, k, m13, h13, -, m14, h14, h⟩ := h
    cases h
    have hrest := h5.append (h6.append (h7.append (h8.append (h9.append (h10.append
      (h11.append (h12.append (h13.append h14))))))))
    exact ⟨_, .quaternion ht, hop.append (h4.append hrest)⟩
  · simp only [compose, run_bind, andThen_eq_ok, valueName_eq_ok_iff, expect_eq_ok_iff,
      ty_recognizes.run_eq_ok_iff] at h
    obtain ⟨lhs, m4, h4, -, m5, h5, rhs, m6, h6, -, m7, h7, t, m8, ⟨ts, ht, h8⟩, h⟩ := h
    cases h
    have hrest := (h4.append (h5.append (h6.append h7))).append h8
    exact ⟨_, .compose ht, hop.append hrest⟩
  · simp only [xzs, run_bind, andThen_eq_ok, valueName_eq_ok_iff, expect_eq_ok_iff] at h
    obtain ⟨x, m4, h4, -, m5, h5, z, m6, h6, -, m7, h7, phase, m8, h8, h⟩ := h
    cases h
    have hrest := h4.append (h5.append (h6.append (h7.append h8)))
    exact ⟨_, .xzs, hop.append hrest⟩
  · obtain ⟨ts, us, a, names, types, ha, hus, rfl, htake⟩ := application_sound attr_recognizes h
    exact ⟨_, .qrefGate ha hus, hop.append htake⟩
  · obtain ⟨ts, us, g, names, types, hg, hus, rfl, htake⟩ :=
      application_sound valueName_recognizes h
    subst hg
    exact ⟨_, .qrefDynGate hus, hop.append htake⟩
  · simp only [run_bind, andThen_eq_ok, valueName_eq_ok_iff] at h
    obtain ⟨q, m4, h4, h⟩ := h
    cases h
    exact ⟨_, .qrefMeasure, hop.append h4⟩
  · obtain ⟨ts, us, a, names, types, ha, hus, rfl, htake⟩ := application_sound attr_recognizes h
    exact ⟨_, .qssaGate ha hus, hop.append htake⟩
  · simp only [run_bind, andThen_eq_ok, valueName_eq_ok_iff] at h
    obtain ⟨q, m4, h4, h⟩ := h
    cases h
    exact ⟨_, .qssaMeasure, hop.append h4⟩
  · cases h

theorem run_body_of_takes {dialect name : String} {us : List Token}
    (h : Takes (opcode dialect name ++ us) ls rest) :
    ∃ mid, Takes us mid rest ∧ body.run ls = (bodyOf dialect name).run mid := by
  obtain ⟨mid, hop, hmid⟩ := Takes.append_iff.1 h
  obtain ⟨l1, l2, l3, rfl⟩ := Takes.opcode_iff.1 hop
  exact ⟨mid, hmid, by simp [body, andThen]⟩

theorem body_complete {b : Body} (hb : DerivesBody ts b) (h : Takes ts ls rest)
    (hrest : Follows rest) : body.run ls = .ok (b, rest) := by
  cases hb with
  | constant hg =>
    obtain ⟨mid, hmid, hrun⟩ := run_body_of_takes h
    have hgate := gate_recognizes.complete hg hmid
    simp [hrun, bodyOf, andThen, hgate]
  | quaternion ht =>
    obtain ⟨mid, hmid, hrun⟩ := run_body_of_takes h
    obtain ⟨mid', htake, hmid⟩ := Takes.append_iff.1 hmid
    have hty := (bracketed_eq_ok_iff ty_recognizes).2 ⟨_, ht, htake⟩
    simp only [Takes.cons_iff, Takes.nil_iff] at hmid
    obtain ⟨l1, _, rfl, l2, _, rfl, l3, _, rfl, l4, _, rfl, l5, _, rfl, l6, _, rfl, l7, _, rfl,
      l8, _, rfl, l9, _, rfl, l10, _, rfl, rfl⟩ := hmid
    simp [hrun, bodyOf, quaternion, andThen, hty]
  | compose ht =>
    obtain ⟨mid, hmid, hrun⟩ := run_body_of_takes h
    simp only [Takes.append_iff, Takes.cons_iff, Takes.nil_iff] at hmid
    obtain ⟨_, ⟨l1, _, rfl, l2, _, rfl, l3, _, rfl, l4, _, rfl, rfl⟩, hmid⟩ := hmid
    have hty := ty_complete ht hmid
    simp [hrun, bodyOf, compose, andThen, hty]
  | xzs =>
    obtain ⟨mid, hmid, hrun⟩ := run_body_of_takes h
    simp only [Takes.cons_iff, Takes.nil_iff] at hmid
    obtain ⟨l1, _, rfl, l2, _, rfl, l3, _, rfl, l4, _, rfl, l5, _, rfl, rfl⟩ := hmid
    simp [hrun, bodyOf, xzs, andThen]
  | qrefGate ha hus =>
    obtain ⟨mid, hmid, hrun⟩ := run_body_of_takes h
    exact hrun.trans (application_complete attr_recognizes ha hus hmid hrest)
  | qrefDynGate hus =>
    obtain ⟨mid, hmid, hrun⟩ := run_body_of_takes h
    exact hrun.trans (application_complete valueName_recognizes rfl hus hmid hrest)
  | qrefMeasure =>
    obtain ⟨mid, hmid, hrun⟩ := run_body_of_takes h
    simp [hrun, bodyOf, andThen, valueName_eq_ok_iff.2 hmid]
  | qssaGate ha hus =>
    obtain ⟨mid, hmid, hrun⟩ := run_body_of_takes h
    exact hrun.trans (application_complete attr_recognizes ha hus hmid hrest)
  | qssaMeasure =>
    obtain ⟨mid, hmid, hrun⟩ := run_body_of_takes h
    simp [hrun, bodyOf, andThen, valueName_eq_ok_iff.2 hmid]

/-! ## Statements -/

/-- Results come with an equals sign, and without one there are none. -/
theorem definition_sound {results : List String} {b : Body} {mid : List Lexeme}
    (hresults : resultNames.run ls = .ok (results, mid)) (hbody : body.run mid = .ok (b, rest)) :
    ∃ ts, DerivesDefinition ts results b ∧ Takes ts ls rest := by
  obtain ⟨us, hus, hmid⟩ := body_sound hbody
  simp only [resultNames, run_bind, andThen_eq_ok] at hresults
  obtain ⟨head, m1, hhead, h⟩ := hresults
  cases hhead
  -- Results are read if the name of a value comes next.
  split at h
  · simp only [run_bind, andThen_eq_ok, commaSeparated_eq_ok_iff valueName_recognizes,
      expect_eq_ok_iff] at h
    obtain ⟨names, m2, ⟨⟨ts, hts, h2⟩, -⟩, -, m3, h3, h⟩ := h
    cases h
    exact ⟨_, .named hts hus, h2.append (h3.append hmid)⟩
  · cases h
    exact ⟨us, .unnamed hus, hmid⟩

theorem definition_complete {results : List String} {b : Body}
    (h : DerivesDefinition ts results b) (htake : Takes ts ls rest) (hrest : Follows rest) :
    ∃ mid, resultNames.run ls = .ok (results, mid) ∧ body.run mid = .ok (b, rest) := by
  cases h with
  | unnamed hb =>
    have hbody := body_complete hb htake hrest
    obtain ⟨dialect, us, rfl⟩ := head_of_derivesBody hb
    exact ⟨ls, by simp [resultNames, andThen, run_peek_of_takes htake], hbody⟩
  | named hnames hb =>
    obtain ⟨mid, hts, hmid⟩ := Takes.append_iff.1 htake
    obtain ⟨line, more, rfl, hmore⟩ := Takes.cons_iff.1 hmid
    have hequals : NoComma (⟨.symbol .equals, line⟩ :: more) := by simp
    have hnames' := (commaSeparated_eq_ok_iff valueName_recognizes).2 ⟨⟨_, hnames, hts⟩, hequals⟩
    obtain ⟨name, us, rfl⟩ := head_of_names hnames
    refine ⟨more, ?_, body_complete hb hmore hrest⟩
    simp [resultNames, andThen, run_peek_of_takes hts, hnames']

/-- A statement neither starts an operand list nor goes on with a comma. -/
theorem follows_of_definition {results : List String} {b : Body}
    (h : DerivesDefinition ts results b) (htake : Takes ts ls rest) : Follows ls := by
  cases h with
  | unnamed hb =>
    obtain ⟨dialect, us, rfl⟩ := head_of_derivesBody hb
    obtain ⟨line, more, rfl, -⟩ := Takes.cons_iff.1 htake
    simp [Follows, operandsAhead]
  | named hnames hb =>
    obtain ⟨mid, hts, hmid⟩ := Takes.append_iff.1 htake
    obtain ⟨line, more, rfl, -⟩ := Takes.cons_iff.1 hmid
    constructor
    · exact operandsAhead_names hnames hts (by simp)
    · obtain ⟨name, us, rfl⟩ := head_of_names hnames
      obtain ⟨line, more, rfl, -⟩ := Takes.cons_iff.1 hts
      simp

theorem statement_sound {s : Statement} (h : statement.run ls = .ok (s, rest)) :
    ∃ used, DerivesStatement used s ∧ ls = used ++ rest := by
  simp only [statement, run_bind, andThen_eq_ok] at h
  obtain ⟨line, m1, hline, results, mid, hresults, b, m2, hbody, h⟩ := h
  cases hline
  cases h
  obtain ⟨ts, hdef, htake⟩ := definition_sound hresults hbody
  obtain ⟨used, rfl, rfl⟩ := Takes.iff_exists.1 htake
  obtain ⟨t, us, hcons, -⟩ := head_of_definition hdef
  obtain ⟨first, more, rfl, -⟩ := List.map_eq_cons_iff.1 hcons
  exact ⟨_, .mk hdef, rfl⟩

theorem statement_complete {s : Statement} {used : List Lexeme} (h : DerivesStatement used s)
    (hrest : Follows rest) : statement.run (used ++ rest) = .ok (s, rest) := by
  cases h with
  | mk hdef =>
    obtain ⟨mid, hresults, hbody⟩ := definition_complete hdef (.map_token _ _) hrest
    rw [List.cons_append] at hresults ⊢
    simp [statement, andThen, nextLine, lookahead, hresults, hbody]

/-- Statements up to the closing brace. -/
theorem itemsUntil_sound {atEnd : String} {ss : List Statement}
    (h : itemsUntil (.symbol .closeBrace) atEnd statement consumes_statement ls = .ok (ss, rest)) :
    ∃ used, DerivesStatements used ss ∧ ls = used ++ rest := by
  fun_induction itemsUntil (.symbol .closeBrace) atEnd statement consumes_statement ls
      generalizing ss rest with
  | case1 => cases h
  | case2 =>
    cases h
    exact ⟨[], .nil, rfl⟩
  | case3 => cases h
  | case4 l more _ s mid hs ss' rest' hmid ih =>
    cases h
    obtain ⟨used, hused, hls⟩ := statement_sound hs
    obtain ⟨used', hused', rfl⟩ := ih hmid
    exact ⟨used ++ used', .cons hused hused', by rw [hls, List.append_assoc]⟩
  | case5 => cases h

theorem follows_statements {used : List Lexeme} {ss : List Statement}
    (h : DerivesStatements used ss) (line : Nat) (rest : List Lexeme) :
    Follows (used ++ ⟨.symbol .closeBrace, line⟩ :: rest) := by
  cases h with
  | nil => simp [Follows, operandsAhead]
  | cons hs _ =>
    cases hs with
    | mk hdef =>
      rw [List.append_assoc]
      exact follows_of_definition hdef (.map_token _ _)

/-- Each statement is followed by another one or by the closing brace, so none is read too far. -/
theorem itemsUntil_complete {ss : List Statement} {used : List Lexeme}
    (h : DerivesStatements used ss) (atEnd : String) (line : Nat) (rest : List Lexeme) :
    itemsUntil (.symbol .closeBrace) atEnd statement consumes_statement
        (used ++ ⟨.symbol .closeBrace, line⟩ :: rest) =
      .ok (ss, ⟨.symbol .closeBrace, line⟩ :: rest) := by
  induction h with
  | nil =>
    rw [List.nil_append, itemsUntil]
    simp
  | cons hs hss ih =>
    have hrun := statement_complete hs (follows_statements hss line rest)
    cases hs with
    | mk hdef =>
      rw [List.append_assoc]
      rw [List.cons_append] at hrun ⊢
      -- The first token of the statement is not the closing brace, so the statement is read.
      obtain ⟨t, us, hcons, hclose⟩ := head_of_definition hdef
      obtain ⟨rfl, -⟩ := List.cons.inj hcons
      rw [itemsUntil, if_neg hclose]
      split
      · next heq => rw [hrun] at heq; cases heq
      · next heq =>
        rw [hrun] at heq
        cases heq
        rw [ih]

/-! ## Programs -/

theorem arguments_sound {as : List Argument} (h : arguments.run ls = .ok (as, rest)) :
    ∃ ts, DerivesArguments ts as ∧ Takes ts ls rest := by
  simp only [arguments, run_bind, andThen_eq_ok] at h
  obtain ⟨head, m1, hhead, h⟩ := h
  cases hhead
  split at h
  · cases h
    exact ⟨[], .none, .nil⟩
  · obtain ⟨⟨ts, has, htake⟩, -⟩ := (commaSeparated_eq_ok_iff argument_recognizes).1 h
    exact ⟨ts, .some has, htake⟩

theorem arguments_complete {as : List Argument} (h : DerivesArguments ts as)
    (htake : Takes ts ls (⟨.symbol .closeParen, line⟩ :: rest)) :
    arguments.run ls = .ok (as, ⟨.symbol .closeParen, line⟩ :: rest) := by
  cases h with
  | none =>
    obtain rfl := Takes.nil_iff.1 htake
    simp [arguments, andThen]
  | some has =>
    have hclose : NoComma (⟨.symbol .closeParen, line⟩ :: rest) := by simp
    have hrun := (commaSeparated_eq_ok_iff argument_recognizes).2 ⟨⟨ts, has, htake⟩, hclose⟩
    obtain ⟨name, us, rfl⟩ := head_of_arguments has
    simp [arguments, andThen, run_peek_of_takes htake, hrun]

theorem exists_derives_of_run {p : Program} (h : program.run ls = .ok (p, rest)) :
    ∃ used, DerivesProgram used p ∧ ls = used ++ rest := by
  simp only [program, run_bind, andThen_eq_ok, expect_eq_ok_iff] at h
  obtain ⟨-, m1, h1, -, m2, h2, as, m3, has, -, m4, h4, -, m5, h5, ss, m6, hss, -, m7, h7, h⟩ := h
  cases h
  obtain ⟨ts, hts, h3⟩ := arguments_sound has
  obtain ⟨body, hbody, rfl⟩ := itemsUntil_sound hss
  obtain ⟨line, more, rfl, hmore⟩ := Takes.cons_iff.1 h7
  obtain rfl := Takes.nil_iff.1 hmore
  have htake := (h1.append h2).append (h3.append (h4.append h5))
  obtain ⟨header, hheader, rfl⟩ := Takes.iff_exists.1 htake
  exact ⟨header ++ (body ++ [⟨.symbol .closeBrace, line⟩]), .mk hheader hts hbody rfl, by simp⟩

theorem program_sound {p : Program} (h : program.run ls = .ok (p, [])) : DerivesProgram ls p := by
  obtain ⟨used, hused, rfl⟩ := exists_derives_of_run h
  rwa [List.append_nil]

theorem program_complete {p : Program} (h : DerivesProgram ls p) :
    program.run ls = .ok (p, []) := by
  cases h with
  | @mk header body close ts as ss hheader has hss hclose =>
    obtain ⟨t, line⟩ := close
    subst hclose
    have htake := Takes.map_token header (body ++ [⟨.symbol .closeBrace, line⟩])
    rw [hheader] at htake
    simp only [Takes.append_iff, Takes.cons_iff, Takes.nil_iff] at htake
    obtain ⟨mid, ⟨l1, _, hls, l2, _, rfl, rfl⟩, mid', hts, l3, _, rfl, l4, _, rfl, rfl⟩ := htake
    have hbody := itemsUntil_complete hss "'\x7d'" line []
    rw [hls]
    simp [program, andThen, manyUntil, arguments_complete has hts, hbody]

/-! ## Whole texts -/

/-- A text is read when the parser takes all of its lexemes. -/
theorem parse_eq_ok_iff {p : Parser α} {text : String} {ts : List Lexeme}
    (h : Lexeme.ofText text = .ok ts) {a : α} : p.parse text = .ok a ↔ p.run ts = .ok (a, []) := by
  rw [parse, h]
  cases hrun : p.run ts with
  | error e => simp [andThen, hrun, bind, Except.bind]
  | ok r =>
    obtain ⟨b, rest⟩ := r
    cases rest <;> simp [andThen, hrun, finish, bind, Except.bind, pure, Except.pure]

/-- **The parser recognizes the grammar.** A text is read as a program exactly when its lexemes
derive the program, and they derive at most one. -/
theorem parse_iff_derives {text : String} (h : Lexeme.ofText text = .ok ls) :
    (∀ p, Program.parse text = .ok p ↔ DerivesProgram ls p) ∧
      ∀ p q, DerivesProgram ls p → DerivesProgram ls q → p = q := by
  have hderives : ∀ p, Program.parse text = .ok p ↔ DerivesProgram ls p := by
    intro p
    rw [Program.parse, parse_eq_ok_iff h]
    constructor
    · exact program_sound
    · exact program_complete
  refine ⟨hderives, ?_⟩
  -- Two derived programs are both what the parser returns.
  intro p q hp hq
  have hparse := (hderives p).2 hp
  rw [(hderives q).2 hq] at hparse
  exact (Except.ok.inj hparse).symm

/-- A gate application without operands, and a measurement whose results are named. -/
def namesAfterGate : Program where
  arguments := [⟨"q", .qubit⟩]
  statements := [⟨[], .qrefGate (.gate .h) [] [], 2⟩, ⟨["b", "r"], .qssaMeasure "q", 3⟩]

theorem printable_namesAfterGate : namesAfterGate.Printable where
  arguments := by simp [namesAfterGate, ValidName, Token.continuesWord]
  results := by simp [namesAfterGate, ValidName, Token.continuesWord]
  bodies := by simp [namesAfterGate, ValidName, Token.continuesWord, Body.Printable]
  lines := by decide

theorem parse_iff_derives_namesAfterGate :
    Lexeme.ofText (namesAfterGate.text 2) = .ok namesAfterGate.lexemes ∧
      Program.parse (namesAfterGate.text 2) = .ok namesAfterGate := by
  have htext := ofText_program printable_namesAfterGate 2
  obtain ⟨hparse, -⟩ := parse_iff_derives htext
  exact ⟨htext, (hparse _).2 (derives_program printable_namesAfterGate)⟩

end GateIR.Text.Parser

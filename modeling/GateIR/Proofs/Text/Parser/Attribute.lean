import GateIR.Proofs.Text.Parser.Basic
import GateIR.Text.Parser.Attribute

/-!
# Recognizing gates, types and attributes

The parsers of gates, types and attributes recognize their rules. So does the parser of angles
where no sign, numeral or `pi` goes on (`EndsAngle`); an angle in a circuit stands before a closing
bracket.
-/

namespace GateIR.Text.Parser

variable {line : Nat} {ts : List Token} {ls rest : List Lexeme}

/-! ## Angles -/

/-- The lexemes do not go on with a part of an angle. -/
def EndsAngle (ls : List Lexeme) : Prop :=
  ∀ l ∈ ls.head?, l.token ≠ .symbol .minus ∧ l.token ≠ .pi ∧ coefficient? l.token = none

theorem coefficient?_eq_some_iff {t : Token} {x : Binary64} :
    coefficient? t = some x ↔ DerivesNumber t x := by
  constructor
  · intro h
    cases t <;> cases h
    · exact .real x
    · exact .int _
  · intro h
    cases h <;> rfl

theorem ne_symbol_of_derivesNumber {t : Token} {x : Binary64} (h : DerivesNumber t x)
    (sym : Symbol) : t ≠ .symbol sym := by
  cases h <;> simp

theorem angle_sound {a : Angle} (h : angle.run ls = .ok (a, rest)) :
    ∃ ts, DerivesAngle ts a ∧ Takes ts ls rest := by
  simp only [angle, run_bind, andThen_eq_ok] at h
  obtain ⟨negative, mid, hsign, coefficient, mid', hcoefficient, hasPi, mid'', hpi, hvalue⟩ := h
  have hmagnitude : ∃ ts x, DerivesMagnitude ts x ∧ Takes ts mid rest ∧
      a = .reduce (if negative then x.neg else x) := by
    rcases lexeme?_eq_ok_iff.1 hcoefficient with ⟨t, x, line, rfl, ht, rfl⟩ | ⟨rfl, rfl, -⟩
    · have hx := coefficient?_eq_some_iff.1 ht
      rcases accept_eq_ok_iff.1 hpi with ⟨rfl, htake⟩ | ⟨rfl, rfl, -⟩
      · cases hvalue
        exact ⟨_, x, .multiple hx, .cons htake, rfl⟩
      · -- Without `pi`, only zero is accepted.
        dsimp only at hvalue
        split at hvalue
        · next hzero =>
          cases hvalue
          exact ⟨_, .zero, .zero (hzero ▸ hx), .cons .nil, rfl⟩
        · cases hvalue
    · rcases accept_eq_ok_iff.1 hpi with ⟨rfl, htake⟩ | ⟨rfl, rfl, -⟩
      · cases hvalue
        exact ⟨_, .one, .pi, htake, rfl⟩
      · cases hvalue
        exact ⟨_, .zero, .empty, .nil, rfl⟩
  obtain ⟨ts, x, hx, htake, rfl⟩ := hmagnitude
  rcases accept_eq_ok_iff.1 hsign with ⟨rfl, hminus⟩ | ⟨rfl, rfl, -⟩
  · exact ⟨_, .negative hx, hminus.append htake⟩
  · exact ⟨_, .unsigned hx, htake⟩

theorem run_number {t : Token} {x : Binary64} (h : DerivesNumber t x) :
    (lexeme? coefficient?).run (⟨t, line⟩ :: rest) = .ok (some (x, line), rest) :=
  lexeme?_eq_ok_iff.2 (.inl ⟨t, x, line, rfl, coefficient?_eq_some_iff.2 h, rfl⟩)

/-- An angle without its sign does not start with one. -/
theorem head_ne_minus {x : Binary64} (hx : DerivesMagnitude ts x)
    (h : Takes ts ls rest) (hrest : EndsAngle rest) :
    ∀ l ∈ ls.head?, l.token ≠ .symbol .minus := by
  cases hx with
  | empty =>
    obtain rfl := Takes.nil_iff.1 h
    exact fun l hl => (hrest l hl).1
  | pi =>
    cases h
    simp
  | zero ht =>
    cases h
    simp [ne_symbol_of_derivesNumber ht]
  | multiple ht =>
    cases h
    simp [ne_symbol_of_derivesNumber ht]

/-- What is left of an angle after its sign. -/
theorem sign_complete {a : Angle} (ha : DerivesAngle ts a) (h : Takes ts ls rest)
    (hrest : EndsAngle rest) :
    ∃ negative x us mid, (accept (.symbol .minus)).run ls = .ok (negative, mid) ∧
      DerivesMagnitude us x ∧ Takes us mid rest ∧
        .reduce (if negative then x.neg else x) = a := by
  cases ha with
  | @unsigned _ x hx =>
    have hminus := accept_eq_ok_iff.2 (.inr ⟨rfl, rfl, head_ne_minus hx h hrest⟩)
    exact ⟨false, x, _, _, hminus, hx, h, rfl⟩
  | @negative _ x hx =>
    obtain ⟨line, mid, rfl, hmid⟩ := Takes.cons_iff.1 h
    exact ⟨true, x, _, mid, accept_eq_ok_iff.2 (.inl ⟨rfl, .cons .nil⟩), hx, hmid, rfl⟩

theorem angle_complete {a : Angle} (ha : DerivesAngle ts a)
    (h : Takes ts ls rest) (hrest : EndsAngle rest) : angle.run ls = .ok (a, rest) := by
  obtain ⟨negative, x, us, mid, hsign, hx, h, rfl⟩ := sign_complete ha h hrest
  have hpi : (accept .pi).run rest = .ok (false, rest) :=
    accept_eq_ok_iff.2 (.inr ⟨rfl, rfl, fun l hl => (hrest l hl).2.1⟩)
  simp only [angle, run_bind, andThen_eq_ok]
  refine ⟨negative, mid, hsign, ?_⟩
  cases hx with
  | empty =>
    obtain rfl := Takes.nil_iff.1 h
    have hnumber := lexeme?_eq_ok_iff.2 (.inr ⟨rfl, rfl, fun l hl => (hrest l hl).2.2⟩)
    exact ⟨none, mid, hnumber, false, mid, hpi, rfl⟩
  | pi =>
    have hnone : ∀ l ∈ mid.head?, coefficient? l.token = none := by
      cases h
      simp [coefficient?]
    have hnumber := lexeme?_eq_ok_iff.2 (.inr ⟨rfl, rfl, hnone⟩)
    exact ⟨none, mid, hnumber, true, rest, accept_eq_ok_iff.2 (.inl ⟨rfl, h⟩), rfl⟩
  | zero ht =>
    obtain ⟨line, more, rfl, hmore⟩ := Takes.cons_iff.1 h
    obtain rfl := Takes.nil_iff.1 hmore
    exact ⟨some (.zero, line), more, run_number ht, false, more, hpi, rfl⟩
  | multiple ht =>
    obtain ⟨line, more, rfl, hmore⟩ := Takes.cons_iff.1 h
    have hpi := accept_eq_ok_iff.2 (.inl ⟨rfl, hmore⟩)
    exact ⟨some (x, line), more, run_number ht, true, rest, hpi, rfl⟩

theorem bracketedAngle_sound {a : Angle} {close : Nat}
    (h : bracketedAngle.run ls = .ok ((a, close), rest)) :
    ∃ ts, DerivesAngle ts a ∧ Takes (angled ts) ls rest := by
  simp only [bracketedAngle, run_bind, andThen_eq_ok, expect_eq_ok_iff, expectAt_eq_ok_iff] at h
  obtain ⟨-, mid, hopen, a', mid', hangle, close, mid'', rfl, ha⟩ := h
  cases ha
  obtain ⟨ts, hts, htake⟩ := angle_sound hangle
  exact ⟨ts, hts, hopen.append (htake.append (.cons .nil))⟩

theorem endsAngle_greater : EndsAngle (⟨.symbol .greater, line⟩ :: rest) := by
  simp [EndsAngle, coefficient?]

theorem bracketedAngle_complete {a : Angle} (ha : DerivesAngle ts a)
    (h : Takes (angled ts) ls rest) : ∃ close, bracketedAngle.run ls = .ok ((a, close), rest) := by
  obtain ⟨line, more, close, rfl, hmore⟩ := Takes.angled_iff.1 h
  refine ⟨close, ?_⟩
  simp [bracketedAngle, andThen, angle_complete ha hmore endsAngle_greater]

/-! ## Gates -/

theorem ofName?_eq_some_iff {name : String} {g : Gate} :
    Gate.ofName? name = some g ↔ g ∈ Gate.allFixed ∧ g.name = name := by
  constructor
  · intro h
    exact ⟨List.mem_of_find?_eq_some h, by simpa using List.find?_some h⟩
  · intro h
    obtain ⟨hg, rfl⟩ := h
    revert g
    decide

/-- No fixed gate has the name of a form with an angle. -/
theorem name_ne_of_mem_allFixed : ∀ g ∈ Gate.allFixed, g.name ≠ "rz" ∧ g.name ≠ "angle" := by
  decide

theorem gateDialect_sound {d : GateDialect} (h : gateDialect.run ls = .ok (d, rest)) :
    (∃ ts g, d = .gate g ∧ DerivesGate ts g ∧ Takes ts ls rest) ∨
      ∃ ts a close, d = .angle a close ∧ DerivesAngle ts a ∧
        Takes (gateName "angle" ++ angled ts) ls rest := by
  simp only [gateDialect, run_bind, andThen_eq_ok, expect_eq_ok_iff, keyword_eq_ok_iff,
    identifier_eq_ok_iff] at h
  obtain ⟨-, m1, h1, -, m2, h2, -, m3, h3, name, mid, h4, h⟩ := h
  have hname : Takes (gateName name) ls mid := h1.append (h2.append (h3.append h4))
  split at h
  · next hrz =>
    obtain ⟨⟨a, close⟩, m5, hangle, hd⟩ := andThen_eq_ok.1 h
    cases hd
    obtain ⟨ts, hts, htake⟩ := bracketedAngle_sound hangle
    subst hrz
    exact .inl ⟨_, _, rfl, .rz hts, hname.append htake⟩
  · split at h
    · next heq =>
      obtain ⟨⟨a, close⟩, m5, hangle, hd⟩ := andThen_eq_ok.1 h
      cases hd
      obtain ⟨ts, hts, htake⟩ := bracketedAngle_sound hangle
      subst heq
      exact .inr ⟨_, _, _, rfl, hts, hname.append htake⟩
    · split at h
      · next g hg =>
        cases h
        obtain ⟨hmem, rfl⟩ := ofName?_eq_some_iff.1 hg
        exact .inl ⟨_, _, rfl, .fixed hmem, hname⟩
      · cases h

theorem gateDialect_complete_gate {g : Gate} (hg : DerivesGate ts g) (h : Takes ts ls rest) :
    gateDialect.run ls = .ok (.gate g, rest) := by
  cases hg with
  | fixed hmem =>
    obtain ⟨hrz, hangle⟩ := name_ne_of_mem_allFixed g hmem
    have hname := ofName?_eq_some_iff.2 ⟨hmem, rfl⟩
    obtain ⟨l1, l2, l3, l4, rfl⟩ := Takes.gateName_iff.1 h
    simp [gateDialect, andThen, hrz, hangle, hname]
  | rz ha =>
    obtain ⟨mid, hname, hangled⟩ := Takes.append_iff.1 h
    obtain ⟨close, hrun⟩ := bracketedAngle_complete ha hangled
    obtain ⟨l1, l2, l3, l4, rfl⟩ := Takes.gateName_iff.1 hname
    simp [gateDialect, andThen, hrun]

theorem gateDialect_complete_angle {a : Angle} (ha : DerivesAngle ts a)
    (h : Takes (gateName "angle" ++ angled ts) ls rest) :
    ∃ close, gateDialect.run ls = .ok (.angle a close, rest) := by
  obtain ⟨mid, hname, hangled⟩ := Takes.append_iff.1 h
  obtain ⟨close, hrun⟩ := bracketedAngle_complete ha hangled
  obtain ⟨l1, l2, l3, l4, rfl⟩ := Takes.gateName_iff.1 hname
  exact ⟨close, by simp [gateDialect, andThen, hrun]⟩

theorem gate_recognizes : Recognizes gate DerivesGate where
  sound h := by
    obtain ⟨d, mid, hd, h⟩ := andThen_eq_ok.1 h
    rcases gateDialect_sound hd with ⟨ts, g', rfl, hg, htake⟩ | ⟨ts, a, close, rfl, -⟩
    · cases h
      exact ⟨ts, hg, htake⟩
    · cases h
  complete hg h := andThen_eq_ok.2 ⟨_, _, gateDialect_complete_gate hg h, rfl⟩

/-! ## Types -/

theorem ofBits?_eq_some_iff {n : Nat} {w : FloatWidth} :
    FloatWidth.ofBits? n = some w ↔ n = w.bits := by
  constructor
  · intro h
    unfold FloatWidth.ofBits? at h
    split at h <;> cases h <;> rfl
  · intro h
    rw [h, FloatWidth.ofBits?_bits]

/-- A letter and digits are not the word `index`. -/
theorem ofList_ne_index {kind : Char} {ds : List Char} (hdigits : ∀ c ∈ ds, c.isDigit) :
    String.ofList (kind :: ds) ≠ "index" := by
  intro h
  have hlist := congrArg String.toList h
  rw [String.toList_ofList] at hlist
  have hmem : 'n' ∈ ds := by
    rw [(List.cons.inj hlist).2]
    decide
  exact absurd (hdigits _ hmem) (by decide)

/-- The type of a letter and a width. -/
theorem ofWord?_ofList {kind : Char} {ds : List Char} (hne : ds ≠ [])
    (hdigits : ∀ c ∈ ds, c.isDigit) (hsize : digitsValue ds < UInt32.size) :
    Ty.ofWord? (String.ofList (kind :: ds)) =
      if kind = 'i' then some (.int (.ofNat (digitsValue ds)))
      else if kind = 'f' then (FloatWidth.ofBits? (digitsValue ds)).map .float
      else none := by
  rw [Ty.ofWord?, if_neg (ofList_ne_index hdigits), String.toList_ofList]
  exact if_pos ⟨hne, List.all_eq_true.2 hdigits, hsize⟩

theorem derives_of_ofWord? {name : String} {t : Ty} (h : Ty.ofWord? name = some t) :
    DerivesTy [.word name] t := by
  unfold Ty.ofWord? at h
  split at h
  · next hindex =>
    cases h
    exact hindex ▸ .index
  · split at h
    · next kind width hname =>
      obtain rfl : name = String.ofList (kind :: width) := by rw [← hname, String.ofList_toList]
      split at h
      · next hwidth =>
        obtain ⟨hne, hdigits, hsize⟩ := hwidth
        rw [List.all_eq_true] at hdigits
        split at h
        · next hi =>
          cases h
          exact hi ▸ .int hne hdigits hsize
        · split at h
          · next hf =>
            obtain ⟨w, hw, rfl⟩ := Option.map_eq_some_iff.1 h
            exact hf ▸ .float hne hdigits (ofBits?_eq_some_iff.1 hw)
          · cases h
      · cases h
    · cases h

theorem ofWord?_of_derives {name : String} {t : Ty} (h : DerivesTy [.word name] t) :
    Ty.ofWord? name = some t := by
  generalize hts : [Token.word name] = ts at h
  cases h with
  | qubit => cases hts
  | gate hn => cases hts
  | int hne hdigits hsize =>
    cases hts
    rw [ofWord?_ofList hne hdigits hsize, if_pos rfl]
  | @float ds w hne hdigits hvalue =>
    cases hts
    have hsize : digitsValue ds < UInt32.size := by
      rw [hvalue]
      cases w <;> decide
    rw [ofWord?_ofList hne hdigits hsize, ofBits?_eq_some_iff.2 hvalue]
    rfl
  | index =>
    cases hts
    rfl

theorem word32_eq_ok_iff {n : UInt32} :
    word32.run ls = .ok (n, rest) ↔
      ∃ m, m < UInt32.size ∧ n = .ofNat m ∧ Takes [.int m] ls rest := by
  constructor
  · intro h
    simp only [word32, run_bind, andThen_eq_ok] at h
    obtain ⟨⟨m, line⟩, mid, hint, h⟩ := h
    obtain rfl := integer_eq_ok_iff.1 hint
    dsimp only at h
    split at h
    · next hm =>
      cases h
      exact ⟨m, hm, rfl, .cons .nil⟩
    · cases h
  · intro h
    obtain ⟨m, hm, rfl, htake⟩ := h
    obtain ⟨line, more, rfl, hmore⟩ := Takes.cons_iff.1 htake
    obtain rfl := Takes.nil_iff.1 hmore
    simp [word32, andThen, hm]

theorem markedTy_sound {t : Ty} (h : markedTy.run ls = .ok (t, rest)) :
    ∃ ts, DerivesTy (.symbol .bang :: ts) t ∧ Takes ts ls rest := by
  obtain ⟨name, mid, hname, h⟩ := andThen_eq_ok.1 h
  rw [identifier_eq_ok_iff] at hname
  split at h
  · next hqubit =>
    cases h
    exact ⟨_, hqubit ▸ .qubit, hname⟩
  · split at h
    · next hgate =>
      simp only [run_bind, andThen_eq_ok, expect_eq_ok_iff, keyword_eq_ok_iff,
        word32_eq_ok_iff] at h
      obtain ⟨-, m1, h1, -, m2, h2, -, m3, h3, n, m4, ⟨n, hn, rfl, h4⟩, -, m5, h5, h⟩ := h
      cases h
      rw [hgate] at hname
      exact ⟨_, .gate hn, hname.append (h1.append (h2.append (h3.append (h4.append h5))))⟩
    · cases h

theorem ty_sound {t : Ty} (h : ty.run ls = .ok (t, rest)) :
    ∃ ts, DerivesTy ts t ∧ Takes ts ls rest := by
  obtain ⟨start, mid, hstart, h⟩ := andThen_eq_ok.1 h
  obtain ⟨u, hu, htake⟩ := token_eq_ok_iff.1 hstart
  split at hu
  · cases hu
    obtain ⟨ts, ht, hmid⟩ := markedTy_sound h
    exact ⟨_, ht, htake.append hmid⟩
  · cases hu
    dsimp only at h
    split at h
    · next t' ht =>
      cases h
      exact ⟨_, derives_of_ofWord? ht, htake⟩
    · cases h
  · cases hu

theorem ty_complete {t : Ty} (ht : DerivesTy ts t) (h : Takes ts ls rest) :
    ty.run ls = .ok (t, rest) := by
  have hword : ∀ name, ts = [.word name] → ty.run ls = .ok (t, rest) := by
    intro name hts
    subst hts
    obtain ⟨line, more, rfl, hmore⟩ := Takes.cons_iff.1 h
    obtain rfl := Takes.nil_iff.1 hmore
    have hname := ofWord?_of_derives ht
    simp [ty, andThen, token, lexeme, hname]
  cases ht with
  | qubit =>
    simp only [Takes.cons_iff, Takes.nil_iff] at h
    obtain ⟨l1, _, rfl, l2, _, rfl, rfl⟩ := h
    simp [ty, andThen, token, lexeme, markedTy]
  | gate hn =>
    simp only [Takes.append_iff, Takes.angled_iff, Takes.cons_iff, Takes.nil_iff] at h
    obtain ⟨_, ⟨l1, _, rfl, l2, _, rfl, l3, _, rfl, l4, _, rfl, rfl⟩, h⟩ := h
    obtain ⟨l5, _, l6, rfl, l7, _, rfl, rfl⟩ := h
    simp [ty, andThen, token, lexeme, markedTy, word32, hn]
  | int => exact hword _ rfl
  | float => exact hword _ rfl
  | index => exact hword _ rfl

theorem ty_recognizes : Recognizes ty DerivesTy := ⟨ty_sound, ty_complete⟩

/-! ## Attributes -/

theorem int64_sound {n : Int64} (h : int64.run ls = .ok (n, rest)) :
    ∃ ts, DerivesAttribute ts (.int n) ∧ Takes ts ls rest := by
  simp only [int64, run_bind, andThen_eq_ok] at h
  obtain ⟨negative, mid, hsign, ⟨m, line⟩, mid', hint, h⟩ := h
  obtain rfl := integer_eq_ok_iff.1 hint
  rcases accept_eq_ok_iff.1 hsign with ⟨rfl, hminus⟩ | ⟨rfl, rfl, -⟩
  · simp only [if_true] at h
    split at h
    · next hrange =>
      cases h
      exact ⟨_, .negative hrange.1, hminus.append (.cons .nil)⟩
    · cases h
  · simp only [Bool.false_eq_true, if_false] at h
    split at h
    · next hrange =>
      cases h
      exact ⟨_, .int hrange.2, .cons .nil⟩
    · cases h

theorem int64_complete {n : Int64} (hn : DerivesAttribute ts (.int n)) (h : Takes ts ls rest) :
    int64.run ls = .ok (n, rest) := by
  cases hn with
  | int hmax =>
    simp only [Takes.cons_iff, Takes.nil_iff] at h
    obtain ⟨line, _, rfl, rfl⟩ := h
    simp [int64, andThen, hmax]
  | @negative m hmin =>
    -- The parser checks both ends of the range, and a negative number is below the upper one.
    have hmax : -(m : Int) ≤ Int64.maxValue.toInt :=
      le_trans (Int.neg_nonpos_of_nonneg (Int.natCast_nonneg m)) (by decide)
    have hrange := And.intro hmin hmax
    simp only [Takes.cons_iff, Takes.nil_iff] at h
    obtain ⟨line, _, rfl, line', _, rfl, rfl⟩ := h
    simp only [int64, run_bind, andThen, run_accept, run_integer, if_true, if_pos hrange, run_pure]

theorem attr_sound {a : Attribute} (h : attr.run ls = .ok (a, rest)) :
    ∃ ts, DerivesAttribute ts a ∧ Takes ts ls rest := by
  have hty : (ty >>= fun t => pure (.ty t)).run ls = .ok (a, rest) →
      ∃ ts, DerivesAttribute ts a ∧ Takes ts ls rest := by
    intro h
    obtain ⟨t, mid, ht, h⟩ := andThen_eq_ok.1 h
    cases h
    obtain ⟨ts, hts, htake⟩ := ty_sound ht
    exact ⟨ts, .ty hts, htake⟩
  have hint : (int64 >>= fun n => pure (.int n)).run ls = .ok (a, rest) →
      ∃ ts, DerivesAttribute ts a ∧ Takes ts ls rest := by
    intro h
    obtain ⟨n, mid, hn, h⟩ := andThen_eq_ok.1 h
    cases h
    exact int64_sound hn
  simp only [attr, run_bind, andThen_eq_ok] at h
  obtain ⟨head, mid, hhead, h⟩ := h
  cases hhead
  -- The next token selects the rule.
  split at h
  · obtain ⟨d, mid, hd, h⟩ := andThen_eq_ok.1 h
    rcases gateDialect_sound hd with ⟨ts, g, rfl, hg, htake⟩ | ⟨ts, b, close, rfl, hb, htake⟩
    · cases h
      exact ⟨ts, .gate hg, htake⟩
    · cases h
      exact ⟨_, .angle hb, htake⟩
  · exact hty h
  · exact hty h
  · exact hint h
  · exact hint h
  · obtain ⟨t, ht, -⟩ := token_eq_ok_iff.1 h
    cases ht

theorem attr_complete {a : Attribute} (ha : DerivesAttribute ts a) (h : Takes ts ls rest) :
    attr.run ls = .ok (a, rest) := by
  cases ha with
  | gate hg =>
    obtain ⟨us, rfl⟩ := head_of_derivesGate hg
    simp [attr, andThen, run_peek_of_takes h, gateDialect_complete_gate hg h]
  | angle hb =>
    obtain ⟨close, hrun⟩ := gateDialect_complete_angle hb h
    simp [attr, andThen, run_peek_of_takes h, hrun]
  | ty ht =>
    have hrun := ty_complete ht h
    obtain ⟨u, us, rfl, hu⟩ := head_of_derivesTy ht
    rcases hu with rfl | ⟨name, rfl⟩ <;> simp [attr, andThen, run_peek_of_takes h, hrun]
  | int hmax =>
    have hrun := int64_complete (.int hmax) h
    simp [attr, andThen, run_peek_of_takes h, hrun]
  | negative hmin =>
    have hrun := int64_complete (.negative hmin) h
    simp [attr, andThen, run_peek_of_takes h, hrun]

theorem attr_recognizes : Recognizes attr DerivesAttribute := ⟨attr_sound, attr_complete⟩

end GateIR.Text.Parser

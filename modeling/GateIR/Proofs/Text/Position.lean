import GateIR.Proofs.Text.Layout

/-!
# Where tokens stand

A lexeme is a token with a line. The line is found while the text is split, and nothing else is kept
of where the token stands. A `Place` is in the text itself: the characters before a token, its word,
and what comes after it.

**Lines (`exists_place`).** Every lexeme has a place in the text, and its line is one more than the
number of newlines before the place, whatever comments and blanks are there. The text before the
place, and the text up to the end of the word, have just the lexemes up to there.

A text may be cut at a token because no earlier token gets longer by that: a word that the cut text
starts with was there before (`StartsAlike`). `Cut` has one lemma for each step of the scanner.
-/

namespace GateIR.Text

variable {cs : List Char} {t : Token}

/-! ## Places -/

/-- The characters before a token, its word, and those after it. -/
structure Place where
  before : List Char
  word : List Char
  after : List Char

namespace Place

def text (p : Place) : String := String.ofList (p.before ++ (p.word ++ p.after))

/-- The text before the token. -/
def front (p : Place) : String := String.ofList p.before

/-- The text before the token, and the token. -/
def through (p : Place) : String := String.ofList (p.before ++ p.word)

/-- The text before the token, with a closing brace on a line of its own. -/
def closed (p : Place) : String := String.ofList (p.before ++ ['\n', '}'])

/-- One more than the number of newlines before the token. -/
def line (p : Place) : Nat := 1 + p.before.count '\n'

/-- The token stands there: it is the next one after those of the text before it. -/
structure Holds (p : Place) (t : Token) : Prop where
  read : Token.read? (p.word ++ p.after) = some (t, p.after)
  tokens : ∃ ts, scanTokens p.before = .ok ts ∧ scanTokens (p.before ++ p.word) = .ok (ts ++ [t])

/-- In the text, the lexeme stands at the place, after some others. The text may be cut there, and a
program closed there. -/
structure Marks (p : Place) (text : String) (earlier : List Lexeme) (l : Lexeme) : Prop where
  text_eq : p.text = text
  holds : p.Holds l.token
  line_eq : l.line = p.line
  front : Lexeme.ofText p.front = .ok earlier
  through : Lexeme.ofText p.through = .ok (earlier ++ [l])
  closed : Lexeme.ofText p.closed = .ok (earlier ++ [⟨.symbol .closeBrace, l.line + 1⟩])

end Place

/-! ## Cutting a text at a token -/

theorem startsAlike_of_isPrefix {ds : List Char} (h : cs <+: ds) : StartsAlike cs ds :=
  fun _ hu _ => hu.trans h

theorem startsAlike_of_startsGap {c : Char} (hc : startsGap c) (cs ds : List Char) :
    StartsAlike (c :: cs) ds := by
  intro u hu hword
  rw [eq_nil_of_isPrefix hc hword hu]
  exact List.nil_prefix

/-- The place with some more characters in front. -/
def Place.behind (cs : List Char) (p : Place) : Place := { p with before := cs ++ p.before }

/-- A text that starts on a line has a lexeme at a place, behind some others. It may be cut there,
before any tail that does not make the last token longer. -/
structure Cut (line : Nat) (cs : List Char) (earlier : List Lexeme) (l : Lexeme) (p : Place) :
    Prop where
  text_eq : cs = p.before ++ (p.word ++ p.after)
  read : Token.read? (p.word ++ p.after) = some (l.token, p.after)
  line_eq : l.line = line + p.before.count '\n'
  scan : ∀ tail, StartsAlike tail (p.word ++ p.after) →
    Lexeme.scan line (p.before ++ tail) = (earlier ++ ·) <$> Lexeme.scan l.line tail

namespace Cut

variable {line : Nat} {earlier : List Lexeme} {l : Lexeme} {p : Place} {w rest : List Char}

theorem here (h : Token.read? (w ++ rest) = some (t, rest)) (line : Nat) :
    Cut line (w ++ rest) [] ⟨t, line⟩ ⟨[], w, rest⟩ where
  text_eq := rfl
  read := h
  line_eq := rfl
  scan _ _ := (id_map' _).symm

theorem token (h : Cut line rest earlier l p) (hread : Token.read? (w ++ rest) = some (t, rest)) :
    Cut line (w ++ rest) (⟨t, line⟩ :: earlier) l (p.behind w) where
  text_eq := by rw [h.text_eq, Place.behind, List.append_assoc]
  read := h.read
  line_eq := by
    obtain ⟨w', hw, hmatches⟩ := Token.matches_of_read? hread
    obtain rfl := List.append_cancel_right hw
    have hzero : w.count '\n' = 0 := List.count_eq_zero.2 fun hmem => by
      cases hmatches.startsGap_eq_false _ hmem
    rw [h.line_eq, Place.behind, List.count_append, hzero, Nat.zero_add]
  scan tail htail := by
    have hstart : StartsAlike (p.before ++ tail) (p.before ++ (p.word ++ p.after)) :=
      htail.append p.before
    rw [← h.text_eq] at hstart
    rw [Place.behind, List.append_assoc, scan_token (hstart.read? hread), h.scan tail htail,
      Functor.map_map]
    rfl

theorem blank {c : Char} (hc : c.isWhitespace)
    (h : Cut (if c = '\n' then line + 1 else line) rest earlier l p) :
    Cut line (c :: rest) earlier l (p.behind [c]) where
  text_eq := by rw [h.text_eq, Place.behind, List.singleton_append, List.cons_append]
  read := h.read
  line_eq := by
    rw [h.line_eq, Place.behind, List.singleton_append, List.count_cons]
    by_cases hnewline : c = '\n'
    · rw [if_pos hnewline, if_pos (beq_iff_eq.2 hnewline)]
      omega
    · rw [if_neg hnewline, if_neg (by simpa using hnewline), Nat.add_zero]
  scan tail htail := by
    rw [Place.behind, List.singleton_append, List.cons_append, scan_whitespace hc]
    exact h.scan tail htail

/-- No token stands right behind a comment, since a newline starts none. -/
theorem exists_newline (h : Cut line (rest.dropWhile (· ≠ '\n')) earlier l p) :
    ∃ more, p.before = '\n' :: more := by
  have hstop := List.head?_dropWhile_not (· ≠ '\n') rest
  rw [h.text_eq] at hstop
  cases hbefore : p.before with
  | cons c more =>
    rw [hbefore] at hstop
    exact ⟨more, by simpa using hstop⟩
  | nil =>
    have hread := h.read
    rw [hbefore, List.nil_append] at hstop
    cases hword : p.word ++ p.after with
    | nil =>
      rw [hword] at hread
      cases hread
    | cons c cs =>
      rw [hword] at hread hstop
      obtain rfl : c = '\n' := by simpa using hstop
      cases hread

theorem comment (h : Cut line (rest.dropWhile (· ≠ '\n')) earlier l p) :
    Cut line ('/' :: '/' :: rest) earlier l
      (p.behind ('/' :: '/' :: rest.takeWhile (· ≠ '\n'))) := by
  have hbody : ∀ c ∈ rest.takeWhile (· ≠ '\n'), (· ≠ '\n') c :=
    fun c hc => by simpa using List.mem_takeWhile_imp hc
  refine ⟨?_, h.read, ?_, fun tail htail => ?_⟩
  · rw [Place.behind, List.append_assoc, ← h.text_eq, List.cons_append, List.cons_append,
      List.takeWhile_append_dropWhile]
  · have hslash : '/' ≠ '\n' := by decide
    have hzero : (rest.takeWhile (· ≠ '\n')).count '\n' = 0 :=
      List.count_eq_zero.2 fun hmem => hbody _ hmem rfl
    rw [h.line_eq, Place.behind, List.count_append, List.count_cons_of_ne hslash,
      List.count_cons_of_ne hslash, hzero, Nat.zero_add]
  · obtain ⟨more, hmore⟩ := h.exists_newline
    have hstop : StopsAt (· ≠ '\n') (p.before ++ tail) := by
      rw [hmore]
      exact stopsAt_cons.2 (by simp)
    rw [Place.behind, List.append_assoc, List.cons_append, List.cons_append, Lexeme.scan,
      dropWhile_of_stopsAt (by simpa using hbody) hstop]
    exact h.scan tail htail

end Cut

/-- A text can be cut at each of its lexemes. -/
theorem exists_cut {line : Nat} {earlier later : List Lexeme} {l : Lexeme}
    (h : Lexeme.scan line cs = .ok (earlier ++ l :: later)) : ∃ p, Cut line cs earlier l p := by
  fun_induction Lexeme.scan line cs generalizing earlier with
  | case1 => simp at h
  | case2 line rest ih =>
    obtain ⟨p, hp⟩ := ih h
    exact ⟨_, hp.comment⟩
  | case3 line c rest hcomment hblank ih =>
    obtain ⟨p, hp⟩ := ih h
    exact ⟨_, hp.blank hblank⟩
  | case4 line c rest hcomment hblank t more hread ih =>
    obtain ⟨w, hw, -⟩ := Token.matches_of_read? hread
    rw [hw] at hread ⊢
    obtain ⟨ls, hmore, heq⟩ := map_eq_ok_iff.1 h
    cases earlier with
    | nil =>
      cases heq
      exact ⟨_, Cut.here hread line⟩
    | cons first earlier =>
      cases heq
      obtain ⟨p, hp⟩ := ih hmore
      exact ⟨_, hp.token hread⟩
  | case5 => cases h

theorem ofText_ofList {ls : List Lexeme} (h : Lexeme.scan 1 cs = .ok ls) :
    Lexeme.ofText (String.ofList cs) = .ok ls := by
  rw [Lexeme.ofText, String.toList_ofList, h]
  rfl

/-- **Every lexeme has a place in the text**, and its line is that of the place. -/
theorem exists_place {text : String} {earlier later : List Lexeme} {l : Lexeme}
    (h : Lexeme.ofText text = .ok (earlier ++ l :: later)) :
    ∃ p : Place, p.Marks text earlier l := by
  obtain ⟨p, hp⟩ := exists_cut (mapError_eq_ok_iff.1 h)
  have hword : Token.read? p.word = some (l.token, []) := by
    simpa using (startsAlike_of_isPrefix (List.nil_prefix (l := p.after))).read? hp.read
  have hbrace : Token.read? ['}'] = some (.symbol .closeBrace, []) := rfl
  have hnil (line : Nat) : Lexeme.scan line [] = .ok [] := by rw [Lexeme.scan]
  have hfront : Lexeme.scan 1 p.before = .ok earlier := by
    simpa [hnil] using hp.scan [] (startsAlike_of_isPrefix List.nil_prefix)
  have hthrough : Lexeme.scan 1 (p.before ++ p.word) = .ok (earlier ++ [l]) := by
    simpa [scan_token hword, hnil] using
      hp.scan p.word (startsAlike_of_isPrefix (List.prefix_append p.word p.after))
  have hclosed : Lexeme.scan 1 (p.before ++ ['\n', '}']) =
      .ok (earlier ++ [⟨.symbol .closeBrace, l.line + 1⟩]) := by
    simpa [scan_newline, scan_token hbrace, hnil] using
      hp.scan ['\n', '}'] (startsAlike_of_startsGap rfl _ _)
  refine ⟨p, ?_, ⟨hp.read, earlier.map Lexeme.token, ?_, ?_⟩, hp.line_eq, ofText_ofList hfront,
    ofText_ofList hthrough, ofText_ofList hclosed⟩
  · rw [Place.text, ← hp.text_eq, String.ofList_toList]
  · rw [scanTokens, hfront]
    rfl
  · rw [scanTokens, hthrough]
    exact congrArg Except.ok List.map_append

end GateIR.Text

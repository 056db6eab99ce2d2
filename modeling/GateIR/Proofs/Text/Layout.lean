import GateIR.Proofs.Action
import GateIR.Proofs.Text.Longest
import GateIR.Proofs.Text.Parser.Program
import GateIR.Text.Read

/-!
# Layout does not matter

Blanks and comments may be put into a text at every place that is not inside of a token or a comment,
also where two tokens touch. `Spaced` says of two texts that the second comes from the first in this
way; it leaves out no text that has tokens (`spaced_self`).

**Theorem (`parse_spaced`).** A text with gaps put in reads as the same circuit, and as the same
program but for the lines of its statements.

A gap splits no token, as it is put between tokens. That it makes no token longer is due to the reader
taking the longest one: no token holds a blank or a slash, so a longer token of the new text would
end before the next gap, and would have been there in the old text too (`Spaced.startsAlike`). The
tokens are the same then (`scanTokens_spaced`). The grammar sees the tokens, and lines only where a
statement starts.
-/

namespace GateIR.Text

variable {cs cs' rest g w : List Char} {t : Token}

/-! ## Gaps -/

/-- Blanks and comments; a comment is ended by a newline. -/
inductive Gap : List Char → Prop
  | nil : Gap []
  | blank {c : Char} {g : List Char} : c.isWhitespace → Gap g → Gap (c :: g)
  | comment {body g : List Char} : (∀ c ∈ body, c ≠ '\n') → Gap g →
      Gap ('/' :: '/' :: (body ++ '\n' :: g))

/-- The second text is the first one with gaps put in between blanks, comments and tokens. -/
inductive Spaced : List Char → List Char → Prop
  | done {g : List Char} : Gap g → Spaced [] g
  | blank {g cs cs' : List Char} {c : Char} : Gap g → c.isWhitespace → Spaced cs cs' →
      Spaced (c :: cs) (g ++ c :: cs')
  /-- A comment that runs to the end of its line. -/
  | comment {g body cs cs' : List Char} : Gap g → (∀ c ∈ body, c ≠ '\n') →
      StopsAt (· ≠ '\n') cs → Spaced cs cs' →
      Spaced ('/' :: '/' :: (body ++ cs)) (g ++ '/' :: '/' :: (body ++ cs'))
  | token {g w cs cs' : List Char} {t : Token} : Gap g → Token.read? (w ++ cs) = some (t, cs) →
      Spaced cs cs' → Spaced (w ++ cs) (g ++ (w ++ cs'))

/-! ## Tokens of a text -/

/-- The tokens of a text, or the first character that starts none, with what comes after it. -/
def scanTokens (cs : List Char) : Except (Char × List Char) (List Token) :=
  (·.map Lexeme.token) <$> Lexeme.scan 1 cs

theorem scan_whitespace {c : Char} (hc : c.isWhitespace) (line : Nat) (cs : List Char) :
    Lexeme.scan line (c :: cs) = Lexeme.scan (if c = '\n' then line + 1 else line) cs := by
  rw [Lexeme.scan, if_pos hc]
  rintro rest rfl
  cases hc

theorem map_token_cons (l : Lexeme) (x : Except (Char × List Char) (List Lexeme)) :
    (·.map Lexeme.token) <$> (l :: ·) <$> x = (l.token :: ·) <$> (·.map Lexeme.token) <$> x := by
  rw [Functor.map_map, Functor.map_map]
  rfl

/-- Lines are counted beside the tokens. -/
theorem map_token_scan (line line' : Nat) (cs : List Char) :
    (·.map Lexeme.token) <$> Lexeme.scan line cs =
      (·.map Lexeme.token) <$> Lexeme.scan line' cs := by
  fun_induction Lexeme.scan line cs generalizing line' with
  | case1 => rw [Lexeme.scan]
  | case2 line rest ih =>
    rw [Lexeme.scan]
    exact ih line'
  | case3 line c rest hcomment hblank ih =>
    rw [scan_whitespace hblank line']
    exact ih _
  | case4 line c rest hcomment hblank t more hread ih =>
    rw [scan_token hread, map_token_cons, map_token_cons, ih line']
  | case5 line c rest hcomment hblank hread =>
    rw [Lexeme.scan, if_neg hblank]
    · split
      · next h =>
        rw [hread] at h
        cases h
      · rfl
    · exact hcomment

theorem scanTokens_comment (rest : List Char) :
    scanTokens ('/' :: '/' :: rest) = scanTokens (rest.dropWhile (· ≠ '\n')) := by
  rw [scanTokens, Lexeme.scan]
  rfl

theorem scanTokens_blank {c : Char} (hc : c.isWhitespace) (cs : List Char) :
    scanTokens (c :: cs) = scanTokens cs := by
  rw [scanTokens, scan_whitespace hc]
  exact map_token_scan _ _ _

theorem scanTokens_token (h : Token.read? cs = some (t, rest)) :
    scanTokens cs = (t :: ·) <$> scanTokens rest := by
  rw [scanTokens, scan_token h]
  exact map_token_cons _ _

theorem scanTokens_gap (hg : Gap g) (cs : List Char) : scanTokens (g ++ cs) = scanTokens cs := by
  induction hg with
  | nil => rfl
  | blank hc _ ih => rw [List.cons_append, scanTokens_blank hc, ih]
  | @comment body g hbody _ ih =>
    have hline : StopsAt (· ≠ '\n') ('\n' :: (g ++ cs)) := stopsAt_cons.2 (by simp)
    rw [List.cons_append, List.cons_append, List.append_assoc, List.cons_append,
      scanTokens_comment, dropWhile_of_stopsAt (by simpa using hbody) hline,
      scanTokens_blank (by decide), ih]

/-- A gap loses nothing but layout to a comment before it. -/
theorem scanTokens_dropWhile_gap (hg : Gap g) (hcs : StopsAt (· ≠ '\n') cs) :
    scanTokens ((g ++ cs).dropWhile (· ≠ '\n')) = scanTokens cs := by
  induction hg with
  | nil => rw [List.nil_append, hcs.dropWhile]
  | @blank c g hc hg ih =>
    by_cases hline : c = '\n'
    · have hstop : StopsAt (· ≠ '\n') (c :: (g ++ cs)) := stopsAt_cons.2 (by simp [hline])
      rw [List.cons_append, hstop.dropWhile, scanTokens_blank hc, scanTokens_gap hg]
    · rw [List.cons_append, List.dropWhile_cons_of_pos (by simpa using hline), ih]
  | @comment body g hbody hg ih =>
    have hstop : StopsAt (· ≠ '\n') ('\n' :: (g ++ cs)) := stopsAt_cons.2 (by simp)
    have hall : ∀ c ∈ '/' :: '/' :: body, decide (c ≠ '\n') = true := by simpa using hbody
    have htext : '/' :: '/' :: (body ++ '\n' :: g) ++ cs =
        ('/' :: '/' :: body) ++ '\n' :: (g ++ cs) := by simp
    rw [htext, dropWhile_of_stopsAt hall hstop, scanTokens_blank (by decide), scanTokens_gap hg]

/-! ## Tokens next to gaps -/

/-- A character that starts a gap. -/
def startsGap (c : Char) : Bool := c.isWhitespace || c = '/'

theorem startsGap_eq_false {p : Char → Bool}
    (hp : [' ', '\t', '\r', '\n', '/'].all (fun c => !p c)) {c : Char} (h : p c) :
    startsGap c = false := by
  refine Bool.eq_false_iff.2 fun hgap => ?_
  have hc : c ∈ [' ', '\t', '\r', '\n', '/'] := by
    simpa [startsGap, Char.isWhitespace, or_assoc] using hgap
  have hc' := List.all_eq_true.1 hp c hc
  rw [h] at hc'
  cases hc'

theorem startsGap_of_isDigit {c : Char} (h : c.isDigit) : startsGap c = false :=
  startsGap_eq_false rfl h

theorem startsGap_of_continuesWord {c : Char} (h : Token.continuesWord c) : startsGap c = false :=
  startsGap_eq_false rfl h

theorem Power.Valid.startsGap_eq_false {p : Power} (hp : p.Valid) :
    ∀ c ∈ p.text, startsGap c = false := by
  intro c hc
  rw [Power.text, List.mem_cons, List.mem_append] at hc
  rcases hc with rfl | hc | hc
  · rcases hp.mark with h | h <;> rw [h] <;> rfl
  · rcases hp.sign with h | h | h <;> rw [h] at hc
    · cases hc
    · obtain rfl := List.mem_singleton.1 hc
      rfl
    · obtain rfl := List.mem_singleton.1 hc
      rfl
  · exact startsGap_of_isDigit (hp.digits c hc)

theorem Numeral.Valid.startsGap_eq_false {n : Numeral} (hn : n.Valid) :
    ∀ c ∈ n.text, startsGap c = false := by
  intro c hc
  rw [Numeral.text, List.mem_append, List.mem_append] at hc
  rcases hc with (hc | hc) | hc
  · exact startsGap_of_isDigit (hn.whole c hc)
  · cases hf : n.fraction with
    | none =>
      rw [hf] at hc
      cases hc
    | some f =>
      rw [hf, Option.elim_some, List.mem_cons] at hc
      rcases hc with rfl | hc
      · rfl
      · exact startsGap_of_isDigit (hn.fraction f hf c hc)
  · cases hp : n.power with
    | none =>
      rw [hp] at hc
      cases hc
    | some p =>
      rw [hp] at hc
      exact (hn.power p hp).startsGap_eq_false c hc

/-- No token holds a character that starts a gap. -/
theorem Token.Matches.startsGap_eq_false (h : Token.Matches w t) : ∀ c ∈ w, startsGap c = false := by
  cases h with
  | numeral hn => exact hn.startsGap_eq_false
  | word hc hcs =>
    exact List.forall_mem_cons.2 ⟨GateIR.Text.startsGap_eq_false rfl hc,
      fun d hd => startsGap_of_continuesWord (hcs d hd)⟩
  | value _ hcs =>
    exact List.forall_mem_cons.2 ⟨rfl, fun d hd => startsGap_of_continuesWord (hcs d hd)⟩
  | symbol s => cases s <;> exact List.forall_mem_singleton.2 rfl

variable {u : List Char}

theorem eq_nil_of_isPrefix {c : Char} (hc : startsGap c) (hu : ∀ d ∈ u, startsGap d = false)
    (hstart : u <+: c :: cs) : u = [] := by
  cases u with
  | nil => rfl
  | cons d u =>
    obtain ⟨rfl, -⟩ := List.cons_prefix_cons.1 hstart
    rw [hu d List.mem_cons_self] at hc
    cases hc

theorem startsGap_of_isWhitespace {c : Char} (hc : c.isWhitespace) : startsGap c := by
  simp [startsGap, hc]

/-- A word that a gap and a text start with lies within the text. -/
theorem Gap.isPrefix (hg : Gap g) (hu : ∀ c ∈ u, startsGap c = false) (hstart : u <+: g ++ cs) :
    u <+: cs := by
  cases hg with
  | nil => exact hstart
  | blank hc =>
    obtain rfl := eq_nil_of_isPrefix (startsGap_of_isWhitespace hc) hu hstart
    exact List.nil_prefix
  | comment =>
    obtain rfl := eq_nil_of_isPrefix rfl hu hstart
    exact List.nil_prefix

/-- A word that the first text starts with is one that the second text starts with. -/
def StartsAlike (cs ds : List Char) : Prop :=
  ∀ u, u <+: cs → (∀ c ∈ u, startsGap c = false) → u <+: ds

/-- The longest token is still the longest when what follows it starts alike. -/
theorem StartsAlike.read? (h : StartsAlike cs' cs) (hread : Token.read? (w ++ cs) = some (t, cs)) :
    Token.read? (w ++ cs') = some (t, cs') := by
  obtain ⟨v, hv, hmatches, hlongest⟩ := Token.read?_eq_some_iff.1 hread
  obtain rfl := List.append_cancel_right hv
  refine Token.read?_eq_some_iff.2 ⟨w, rfl, hmatches, fun u hu t' ht' => ?_⟩
  have hplain : ∀ c ∈ u, startsGap c = false := fun c hc =>
    ht'.startsGap_eq_false c (List.mem_append_right w hc)
  exact hlongest u (h u hu hplain) t' ht'

/-- Text in front changes nothing, also where a word runs on behind it. -/
theorem StartsAlike.append (h : StartsAlike cs' cs) (front : List Char) :
    StartsAlike (front ++ cs') (front ++ cs) := by
  intro u hstart hu
  rcases List.prefix_or_prefix_of_prefix hstart (List.prefix_append front cs') with hfront | ⟨v, rfl⟩
  · exact hfront.trans (List.prefix_append front cs)
  · have hv : v <+: cs :=
      h v ((List.prefix_append_right_inj front).1 hstart) fun c hc =>
        hu c (List.mem_append_right front hc)
    exact (List.prefix_append_right_inj front).2 hv

/-- A word that a text with gaps starts with was there before, if it holds nothing of a gap. -/
theorem Spaced.startsAlike (h : Spaced cs cs') : StartsAlike cs' cs := by
  induction h with
  | @done g hg =>
    intro u hstart hu
    rw [← List.append_nil g] at hstart
    exact hg.isPrefix hu hstart
  | blank hg hc _ _ =>
    intro u hstart hu
    obtain rfl := eq_nil_of_isPrefix (startsGap_of_isWhitespace hc) hu (hg.isPrefix hu hstart)
    exact List.nil_prefix
  | comment hg _ _ _ _ =>
    intro u hstart hu
    obtain rfl := eq_nil_of_isPrefix rfl hu (hg.isPrefix hu hstart)
    exact List.nil_prefix
  | @token g w cs cs' t hg _ _ ih =>
    intro u hstart hu
    exact ih.append w u (hg.isPrefix hu hstart) hu

/-- Where a line ends, gaps were put in before the newline. -/
theorem Spaced.exists_gap (h : Spaced cs cs') (hcs : StopsAt (· ≠ '\n') cs) :
    ∃ g rest, Gap g ∧ StopsAt (· ≠ '\n') rest ∧ cs' = g ++ rest := by
  cases h with
  | done hg => exact ⟨cs', [], hg, stopsAt_nil, (List.append_nil cs').symm⟩
  | @blank g cs cs' c hg hc h =>
    exact ⟨g, c :: cs', hg, stopsAt_cons.2 (stopsAt_cons.1 hcs), rfl⟩
  | comment => exact absurd (stopsAt_cons.1 hcs) (by decide)
  | @token g w cs cs' t hg hread h =>
    cases hw : w ++ cs with
    | nil =>
      rw [hw] at hread
      cases hread
    | cons c more =>
      rw [hw] at hread hcs
      obtain rfl : c = '\n' := by simpa using stopsAt_cons.1 hcs
      cases hread

/-- **A text with gaps put in has the same tokens.** -/
theorem scanTokens_spaced (h : Spaced cs cs') : scanTokens cs' = scanTokens cs := by
  induction h with
  | @done g hg => rw [← List.append_nil g, scanTokens_gap hg]
  | blank hg hc _ ih => rw [scanTokens_gap hg, scanTokens_blank hc, scanTokens_blank hc, ih]
  | @comment g body cs cs' hg hbody hline h ih =>
    have hbody' : ∀ c ∈ body, decide (c ≠ '\n') = true := by simpa using hbody
    obtain ⟨g', rest, hg', hrest, rfl⟩ := h.exists_gap hline
    rw [scanTokens_gap hg, scanTokens_comment, scanTokens_comment,
      dropWhile_of_stopsAt hbody' hline, List.dropWhile_append_of_pos hbody',
      scanTokens_dropWhile_gap hg' hrest, ← ih, scanTokens_gap hg']
  | token hg hread h ih =>
    rw [scanTokens_gap hg, scanTokens_token hread, scanTokens_token (h.startsAlike.read? hread), ih]

/-- Every text that has tokens is one that gaps can be put into. -/
theorem spaced_self {line : Nat} {ls : List Lexeme} (h : Lexeme.scan line cs = .ok ls) :
    Spaced cs cs := by
  fun_induction Lexeme.scan line cs generalizing ls with
  | case1 => exact .done .nil
  | case2 line rest ih =>
    have hbody : ∀ c ∈ rest.takeWhile (· ≠ '\n'), c ≠ '\n' := fun c hc => by
      simpa using List.mem_takeWhile_imp hc
    have hstop : StopsAt (· ≠ '\n') (rest.dropWhile (· ≠ '\n')) := by
      intro c hc
      have hhead := List.head?_dropWhile_not (· ≠ '\n') rest
      rw [Option.mem_def.1 hc] at hhead
      simpa using hhead
    have hspaced := Spaced.comment .nil hbody hstop (ih h)
    rwa [List.nil_append, List.takeWhile_append_dropWhile] at hspaced
  | case3 line c rest hcomment hblank ih => exact .blank .nil hblank (ih h)
  | case4 line c rest hcomment hblank t more hread ih =>
    obtain ⟨ls', hmore, -⟩ := map_eq_ok_iff.1 h
    obtain ⟨w, hw, -⟩ := Token.matches_of_read? hread
    rw [hw] at hread ⊢
    exact .token .nil hread (ih hmore)
  | case5 => cases h

/-! ## Programs without their lines -/

def Statement.withoutLine (s : Statement) : Statement := { s with line := 0 }

/-- The program, wherever its statements stand. -/
def Program.withoutLines (p : Program) : Program :=
  { p with statements := p.statements.map Statement.withoutLine }

theorem Program.toCircuit_withoutLines (p : Program) : p.withoutLines.toCircuit = p.toCircuit := by
  have hprogram : Resolve.program p.withoutLines = Resolve.program p := by
    unfold Resolve.program withoutLines
    rw [List.forM_eq_forM, List.forM_eq_forM, List.forM_map]
    rfl
  rw [toCircuit, hprogram]
  rfl

variable {ls ls' : List Lexeme}

theorem DerivesStatement.of_tokens {s : Statement} (h : DerivesStatement ls s)
    (hls : ls'.map Lexeme.token = ls.map Lexeme.token) :
    ∃ s', DerivesStatement ls' s' ∧ s'.withoutLine = s.withoutLine := by
  cases h with
  | @mk first more results b hdef =>
    rw [← hls] at hdef
    cases ls' with
    | nil => cases hls
    | cons first' more' => exact ⟨⟨results, b, first'.line⟩, .mk hdef, rfl⟩

theorem DerivesStatements.of_tokens {ss : List Statement} (h : DerivesStatements ls ss)
    (hls : ls'.map Lexeme.token = ls.map Lexeme.token) :
    ∃ ss', DerivesStatements ls' ss' ∧
      ss'.map Statement.withoutLine = ss.map Statement.withoutLine := by
  induction h generalizing ls' with
  | nil =>
    obtain rfl := List.map_eq_nil_iff.1 hls
    exact ⟨[], .nil, rfl⟩
  | cons hs _ ih =>
    rw [List.map_append] at hls
    obtain ⟨ls₁, ls₂, rfl, h₁, h₂⟩ := List.map_eq_append_iff.1 hls
    obtain ⟨s', hs', heq⟩ := hs.of_tokens h₁
    obtain ⟨ss', hss', heqs⟩ := ih h₂
    refine ⟨s' :: ss', .cons hs' hss', ?_⟩
    rw [List.map_cons, List.map_cons, heq, heqs]

/-- The same tokens spell the same program but for the lines. -/
theorem DerivesProgram.of_tokens {p : Program} (h : DerivesProgram ls p)
    (hls : ls'.map Lexeme.token = ls.map Lexeme.token) :
    ∃ p', DerivesProgram ls' p' ∧ p'.withoutLines = p.withoutLines := by
  cases h with
  | @mk header body close ts as ss hheader has hss hclose =>
    rw [List.map_append, List.map_append] at hls
    obtain ⟨header', more, rfl, hheader', hmore⟩ := List.map_eq_append_iff.1 hls
    obtain ⟨body', last, rfl, hbody', hlast⟩ := List.map_eq_append_iff.1 hmore
    obtain ⟨close', rfl, hclose'⟩ := List.map_eq_singleton_iff.1 hlast
    obtain ⟨ss', hss', heq⟩ := hss.of_tokens hbody'
    refine ⟨⟨as, ss'⟩, .mk (hheader'.trans hheader) has hss' (hclose'.trans hclose), ?_⟩
    rw [Program.withoutLines, Program.withoutLines, heq]

/-! ## Whole texts -/

theorem exists_ofText {text text' : String} (h : Lexeme.ofText text = .ok ls)
    (htokens : scanTokens text'.toList = scanTokens text.toList) :
    ∃ ls', Lexeme.ofText text' = .ok ls' ∧ ls'.map Lexeme.token = ls.map Lexeme.token := by
  have hscan : Lexeme.scan 1 text.toList = .ok ls := mapError_eq_ok_iff.1 h
  rw [scanTokens, scanTokens, hscan] at htokens
  obtain ⟨ls', hscan', heq⟩ := map_eq_ok_iff.1 htokens
  exact ⟨ls', mapError_eq_ok_iff.2 hscan', heq⟩

theorem exists_derives_of_parse {text : String} {p : Program} (h : Program.parse text = .ok p) :
    ∃ ls, Lexeme.ofText text = .ok ls ∧ DerivesProgram ls p := by
  obtain ⟨ls, hls, -⟩ := bind_eq_ok_iff.1 h
  exact ⟨ls, hls, Parser.program_sound ((Parser.parse_eq_ok_iff hls).1 h)⟩

/-- **Layout does not matter.** -/
theorem parse_spaced {text text' : String} (h : Spaced text.toList text'.toList) :
    (∀ p, Program.parse text = .ok p →
        ∃ p', Program.parse text' = .ok p' ∧ p'.withoutLines = p.withoutLines) ∧
      ∀ c, Circuit.parse text = .ok c → Circuit.parse text' = .ok c := by
  have hprogram : ∀ p, Program.parse text = .ok p →
      ∃ p', Program.parse text' = .ok p' ∧ p'.withoutLines = p.withoutLines := by
    intro p hp
    obtain ⟨ls, hls, hderives⟩ := exists_derives_of_parse hp
    obtain ⟨ls', hls', htokens⟩ := exists_ofText hls (scanTokens_spaced h)
    obtain ⟨p', hderives', heq⟩ := hderives.of_tokens htokens
    exact ⟨p', (Parser.parse_eq_ok_iff hls').2 (Parser.program_complete hderives'), heq⟩
  refine ⟨hprogram, fun c hc => ?_⟩
  obtain ⟨p, hp, hcircuit⟩ := bind_eq_ok_iff.1 hc
  obtain ⟨p', hp', heq⟩ := hprogram p hp
  have hsame : p'.toCircuit = p.toCircuit := by
    rw [← p'.toCircuit_withoutLines, heq, p.toCircuit_withoutLines]
  rw [Circuit.parse, hp']
  exact hsame.trans hcircuit

/-- The reader takes one word after the other. -/
def readsWords : List (List Char) → Bool
  | [] => true
  | w :: ws => (Token.read? (w ++ ws.flatten)).map Prod.snd = some ws.flatten && readsWords ws

/-- One gap may be put in everywhere. -/
theorem spaced_everywhere (hg : Gap g) {ws : List (List Char)} (h : readsWords ws) :
    Spaced ws.flatten (ws.flatMap (g ++ ·) ++ g) := by
  induction ws with
  | nil => exact .done hg
  | cons w ws ih =>
    rw [readsWords, Bool.and_eq_true, decide_eq_true_eq, Option.map_eq_some_iff] at h
    obtain ⟨⟨⟨t, rest⟩, hread, rfl⟩, hws⟩ := h
    rw [List.flatMap_cons, List.flatten_cons, List.append_assoc, List.append_assoc]
    exact .token hg hread (ih hws)

def rotation : Program where
  arguments := []
  statements := [⟨["a"], .constant (.rz (.ofCoefficient ⟨0x3fe0000000000000⟩)), 1⟩]

def rotationWords : List (List Char) :=
  ["circuit", "(", ")", "\x7b", "%a", "=", "gate", ".", "constant", "#", "gate", ".", "rz", "<",
    "5e-1", "pi", ">", "\x7d"].map String.toList

/-- A comment and the end of its line. -/
def lineEnd : List Char := '\t' :: '/' :: '/' :: (" %a\r".toList ++ ['\n'])

/-- The rotation without any blank. -/
def denseText : String := String.ofList rotationWords.flatten

/-- The rotation with every token on a line of its own. -/
def looseText : String := String.ofList (rotationWords.flatMap (lineEnd ++ ·) ++ lineEnd)

theorem parse_spaced_rotation :
    Spaced denseText.toList looseText.toList ∧ Program.parse denseText = .ok rotation ∧
      (∃ p, Program.parse looseText = .ok p ∧ p.withoutLines = rotation.withoutLines) ∧
      ∃ c, rotation.toCircuit = .ok c ∧ Circuit.parse looseText = .ok c := by
  have hgap : Gap lineEnd := .blank rfl (.comment (by simp) .nil)
  have hspaced : Spaced denseText.toList looseText.toList := by
    rw [denseText, looseText, String.toList_ofList, String.toList_ofList]
    exact spaced_everywhere hgap (by decide)
  have hparse : Program.parse denseText = .ok rotation := by decide +kernel
  have hcircuit : rotation.toCircuit = .ok
      { table := #[⟨.gate 1, .result 0 0⟩]
        instructions := #[.constant (.rz (.ofCoefficient ⟨0x3fe0000000000000⟩)) (.ofIndex 0)] } := by
    decide +kernel
  obtain ⟨hprogram, hsame⟩ := parse_spaced hspaced
  refine ⟨hspaced, hparse, hprogram _ hparse, _, hcircuit, hsame _ ?_⟩
  rw [Circuit.parse, hparse]
  exact hcircuit

end GateIR.Text

import GateIR.Proofs.Text.Parser.Attribute
import GateIR.Proofs.Text.Tokens

/-!
# Derivations of printed text

**Theorem (`derives_program`).** The lexemes of a printable program derive the program.

The same holds of every kind of syntax below it: its tokens derive what was printed.
-/

namespace GateIR

open Text

/-! ## Types, angles, gates and attributes -/

/-- The text of a type with a width. -/
theorem Ty.text_eq_ofList {t : Ty} {kind : Char} {n : Nat}
    (h : t.text.toList = kind :: Nat.toDigits 10 n) :
    t.text = String.ofList (kind :: decimalDigits n) := by
  rw [← String.ofList_toList (s := t.text), h]
  rfl

theorem derives_ty (t : Ty) : DerivesTy t.tokens t := by
  cases t with
  | qubit => exact .qubit
  | gate n =>
    have h := DerivesTy.gate n.toNat_lt_size
    rwa [UInt32.ofNat_toNat] at h
  | index => exact .index
  | int w =>
    have htext : (Ty.int w).text = String.ofList ('i' :: decimalDigits w.toNat) :=
      Ty.text_eq_ofList (by simp [Ty.text])
    have hne : decimalDigits w.toNat ≠ [] := Nat.toDigits_ne_nil
    have hsize := (digitsValue_decimalDigits w.toNat).trans_lt w.toNat_lt_size
    have h := DerivesTy.int hne isDigit_decimalDigits hsize
    rw [digitsValue_decimalDigits, UInt32.ofNat_toNat, ← htext] at h
    exact h
  | float w =>
    have htext : (Ty.float w).text = String.ofList ('f' :: decimalDigits w.bits) :=
      Ty.text_eq_ofList (by simp [Ty.text])
    have hne : decimalDigits w.bits ≠ [] := Nat.toDigits_ne_nil
    have h := DerivesTy.float hne isDigit_decimalDigits (digitsValue_decimalDigits w.bits)
    rw [← htext] at h
    exact h

theorem derives_angle (a : Angle) : DerivesAngle a.tokens a := by
  unfold Angle.tokens
  split
  · next h =>
    have hzero := DerivesAngle.unsigned (.zero (.int 0))
    have hreduce : Angle.reduce .zero = .zero := Angle.reduce_coefficient .zero
    rw [hreduce, ← h] at hzero
    exact hzero
  · split
    · next h =>
      have hpi := DerivesAngle.unsigned .pi
      have hreduce : Angle.reduce .one = .pi := Angle.reduce_coefficient .pi
      rw [hreduce, ← h] at hpi
      exact hpi
    · have h := coefficient_shortestDecimal a.bits_lt_infinityBits
      rw [a.ofSignBits_bits] at h
      have hmultiple := DerivesAngle.unsigned (.multiple (Parser.coefficient?_eq_some_iff.1 h))
      rwa [a.reduce_coefficient] at hmultiple

theorem derives_gate (g : Gate) : DerivesGate g.tokens g := by
  cases g with
  | rz a => exact .rz (derives_angle a)
  | _ => exact .fixed (by decide)

theorem derives_attribute (a : Attribute) : DerivesAttribute a.tokens a := by
  cases a with
  | gate g => exact .gate (derives_gate g)
  | angle a => exact .angle (derives_angle a)
  | ty t => exact .ty (derives_ty t)
  | int n =>
    rw [Attribute.tokens]
    split
    · next hneg =>
      have hvalue : -(n.toInt.natAbs : Int) = n.toInt := by omega
      have h := DerivesAttribute.negative (n.minValue_le_toInt.trans_eq hvalue.symm)
      rwa [hvalue, Int64.ofInt_toInt] at h
    · next hneg =>
      have hvalue : (n.toInt.natAbs : Int) = n.toInt := by omega
      have h := DerivesAttribute.int (hvalue.trans_le n.toInt_le)
      rwa [hvalue, Int64.ofInt_toInt] at h

namespace Text

/-! ## Lists -/

theorem derives_commas {α : Type} {derives : List Token → α → Prop} {tokens : α → List Token}
    {xs : List α} (hne : xs ≠ []) (h : ∀ x ∈ xs, derives (tokens x) x) :
    DerivesList derives (commas (xs.map tokens)) xs := by
  induction xs with
  | nil => exact absurd rfl hne
  | cons x xs ih =>
    obtain ⟨hx, hxs⟩ := List.forall_mem_cons.1 h
    cases xs with
    | nil => simpa [commas] using DerivesList.one hx
    | cons y ys =>
      have hcons := DerivesList.cons hx (ih (by simp) hxs)
      simpa [commas] using hcons

theorem derives_names {names : List String} (hne : names ≠ []) :
    DerivesList DerivesName (nameTokens names) names :=
  derives_commas hne fun _ _ => rfl

theorem derives_operands {qubits : List String} {types : List Ty}
    (hlength : types.length = qubits.length) :
    DerivesOperands (operandTokens qubits types) qubits types := by
  by_cases hne : qubits = []
  · subst hne
    obtain rfl := List.length_eq_zero_iff.1 hlength
    exact .none
  · have htypes : types ≠ [] := by
      intro h
      subst h
      exact hne (List.length_eq_zero_iff.1 hlength.symm)
    rw [operandTokens, if_neg hne]
    exact .some (derives_names hne) (derives_commas htypes fun t _ => derives_ty t)

/-! ## Instructions and statements -/

theorem derives_body {b : Body} (hb : b.Printable) : DerivesBody b.tokens b := by
  cases b with
  | constant g => exact .constant (derives_gate g)
  | quaternion t real i j k =>
    have h := @DerivesBody.quaternion _ t real i j k (derives_ty t)
    simpa [Body.tokens, Body.dialect, Body.operation, Body.restTokens, opcode, angled] using h
  | compose lhs rhs t => exact .compose (derives_ty t)
  | xzs x z phase => exact .xzs
  | qrefGate a qubits types =>
    have h := DerivesBody.qrefGate (derives_attribute a) (derives_operands hb.2)
    simpa [Body.tokens, Body.dialect, Body.operation, Body.restTokens, opcode, angled] using h
  | qrefDynGate g qubits types => exact .qrefDynGate (derives_operands hb.2.2)
  | qrefMeasure q => exact .qrefMeasure
  | qssaGate a qubits types =>
    have h := DerivesBody.qssaGate (derives_attribute a) (derives_operands hb.2)
    simpa [Body.tokens, Body.dialect, Body.operation, Body.restTokens, opcode, angled] using h
  | qssaMeasure q => exact .qssaMeasure

theorem derives_definition {s : Statement} (hbody : s.body.Printable) :
    DerivesDefinition s.tokens s.results s.body := by
  by_cases hne : s.results = []
  · have h := DerivesDefinition.unnamed (derives_body hbody)
    simpa [Statement.tokens, hne] using h
  · have h := DerivesDefinition.named (derives_names hne) (derives_body hbody)
    simpa [Statement.tokens, hne] using h

theorem map_token_map (ts : List Token) (line : Nat) :
    (ts.map (Lexeme.mk · line)).map Lexeme.token = ts := by
  simp [Function.comp_def]

theorem derives_statement {s : Statement} (hbody : s.body.Printable) :
    DerivesStatement (s.tokens.map (Lexeme.mk · s.line)) s := by
  have hdef := derives_definition hbody
  obtain ⟨t, ts, hts, -⟩ := head_of_definition hdef
  rw [← map_token_map s.tokens s.line, hts] at hdef
  rw [hts]
  exact .mk hdef

theorem derives_statements {ss : List Statement} (hbodies : ∀ s ∈ ss, s.body.Printable) :
    DerivesStatements (ss.flatMap fun s => s.tokens.map (Lexeme.mk · s.line)) ss := by
  induction ss with
  | nil => exact .nil
  | cons s ss ih =>
    obtain ⟨hbody, hbodies⟩ := List.forall_mem_cons.1 hbodies
    rw [List.flatMap_cons]
    exact .cons (derives_statement hbody) (ih hbodies)

/-! ## Programs -/

theorem derives_arguments (as : List Argument) :
    DerivesArguments (commas (as.map Argument.tokens)) as := by
  by_cases hne : as = []
  · subst hne
    exact .none
  · exact .some (derives_commas hne fun a _ => .mk (derives_ty a.ty))

theorem derives_program {p : Program} (h : p.Printable) : DerivesProgram p.lexemes p := by
  have hheader : (p.headTokens.map (Lexeme.mk · 1)).map Lexeme.token = _ := map_token_map _ _
  rw [Program.headTokens, List.append_assoc] at hheader
  rw [Program.lexemes, List.append_assoc]
  exact .mk hheader (derives_arguments p.arguments) (derives_statements h.bodies) rfl

end Text

end GateIR

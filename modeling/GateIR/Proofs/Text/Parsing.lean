import GateIR.Proofs.Text.Parser.Program

/-!
# Parsing printed text

**Theorem (`parse_printed`).** Every attribute, gate, type and angle is read back from its printed
text. The coefficient of an angle comes back bit by bit.

**Theorem (`parse_text`).** A printable program is read back from its printed text.

What is printed is spelt by its tokens, which derive it; and the parser recognizes what is derived.
-/

namespace GateIR.Text.Parser

/-- A text is read back when the parser takes just the tokens that it spells. -/
theorem parse_of_spells {α : Type} {p : Parser α} {a : α} {text : String} {ts : List Token}
    (h : Spells text.toList ts) (hrun : ∀ ls, Takes ts ls [] → p.run ls = .ok (a, [])) :
    p.parse text = .ok a := by
  have htake := Takes.map_token (ts.map (Lexeme.mk · 1)) []
  rw [map_token_map, List.append_nil] at htake
  exact (parse_eq_ok_iff (ofText_of_spells h)).2 (hrun _ htake)

theorem parse_text_attribute (a : Attribute) : Attribute.parse a.text = .ok a :=
  parse_of_spells (spells_attribute a) fun _ => attr_complete (derives_attribute a)

theorem parse_text_ty (t : Ty) : Ty.parse t.text = .ok t :=
  parse_of_spells (spells_ty t) fun _ => ty_complete (derives_ty t)

/-- **Attributes, gates, types and angles are read back from their printed text.** -/
theorem parse_printed :
    (∀ a : Attribute, Attribute.parse a.text = .ok a) ∧
      (∀ g : Gate, Gate.parse g.text = .ok g) ∧ (∀ t : Ty, Ty.parse t.text = .ok t) ∧
        ∀ a : Angle, Angle.parse a.text = .ok a := by
  refine ⟨parse_text_attribute, ?_, parse_text_ty, ?_⟩
  · intro g
    exact parse_of_spells (spells_gate g) fun _ => gate_recognizes.complete (derives_gate g)
  · intro a
    refine parse_of_spells (spells_angle a) fun ls h => ?_
    exact angle_complete (derives_angle a) h (by simp [EndsAngle])

/-- **A printable program is read back from its printed text.** -/
theorem parse_text {p : Program} (h : p.Printable) (indent : Nat) :
    Program.parse (p.text indent) = .ok p := by
  exact (parse_eq_ok_iff (ofText_program h indent)).2 (program_complete (derives_program h))

end GateIR.Text.Parser

import GateIR.Proofs.Text.Parsing
import GateIR.Proofs.Text.Resolving
import GateIR.Text.Read

/-!
# Printing and parsing built circuits

A built circuit is well formed, so it has a program; the program is printable, so its text reads
back; and resolving the program builds the circuit again in definition order.

**Theorem (`parse_text_built`).** The text of a built circuit parses to its renumbering, for every
indentation that a string can have and every name prefix made of word characters, when the operands
of each quaternion share one type.

**Theorem (`parse_text_eq_built_iff`).** A circuit that is built with its arguments first parses
back to itself exactly when the operands of each quaternion share one type. A quaternion is printed
with the type of its first operand only, so any other type is lost.
-/

namespace GateIR.Circuit

variable {c : Circuit}

theorem text_eq (hwf : c.WellFormed) (config : PrintConfig) :
    c.text config = .ok ((c.programFor config.valuePrefix).text config.indent) := by
  rw [text, hwf.toProgram_eq]

theorem parse_text_programFor (config : PrintConfig)
    (hchars : ∀ ch ∈ config.valuePrefix.toList, Text.Token.continuesWord ch) :
    Circuit.parse ((c.programFor config.valuePrefix).text config.indent) =
      (c.programFor config.valuePrefix).toCircuit := by
  rw [Circuit.parse, Text.Parser.parse_text (printable_programFor hchars)]
  rfl

/-- A circuit with a quaternion whose operands differ in type does not parse back to anything. -/
theorem sharesType_of_parse_text (hwf : c.WellFormed) (hsize : c.table.size ≤ UInt32.size)
    {d : Circuit} (h : Circuit.parse ((c.programFor "").text 2) = .ok d) :
    ∀ i ∈ c.instructions, c.SharesType i := by
  have hparse := parse_text_programFor (c := c) {} (by simp)
  exact sharesType_of_toCircuit hwf hsize (hparse.symm.trans h)

/-! ## Round trips -/

/-- **Printing and parsing renumbers a built circuit**: every value gets its position in definition
order and keeps its table entry. Nothing changes when the arguments were added first. -/
theorem parse_text_built (calls : List Call) (hsize : (built calls).table.size ≤ UInt32.size)
    (hshares : ∀ i ∈ (built calls).instructions, (built calls).SharesType i)
    (config : PrintConfig) (_hindent : config.indent < 2 ^ 63)
    (hchars : ∀ ch ∈ config.valuePrefix.toList, Text.Token.continuesWord ch) :
    (∃ text, (built calls).text config = .ok text ∧
        Circuit.parse text = .ok (built calls).renumber) ∧
      (∀ v ∈ (built calls).definitions,
        (built calls).renumber.table[((built calls).renamed v).index]? =
          (built calls).table[v.index]?) ∧
      (ArgumentsFirst calls → (built calls).renumber = built calls) := by
  have hwf := wellFormed_built hsize
  refine ⟨⟨_, text_eq hwf config, ?_⟩, ?_, ?_⟩
  · rw [parse_text_programFor config hchars, toCircuit_programFor hwf hsize hshares]
  · intro v hv
    exact getElem?_table_renumber hwf hsize hv
  · intro hfirst
    exact renumber_eq_self (inOrder_built hsize hfirst) hwf

/-- Two arguments with an instruction between them, and a measurement of an unknown qubit. -/
def interleaved : List Call :=
  [.argument (.float .f64), .constant .h, .argument .qubit,
    .quaternion (.ofIndex 0) (.ofIndex 0) (.ofIndex 0) (.ofIndex 0), .qrefMeasure (.ofIndex 9)]

theorem parse_text_built_interleaved :
    (built interleaved).table.size ≤ UInt32.size ∧
      (∀ i ∈ (built interleaved).instructions, (built interleaved).SharesType i) ∧
      4 < 2 ^ 63 ∧ (∀ ch ∈ "q_".toList, Text.Token.continuesWord ch) ∧
      ∃ text, (built interleaved).text ⟨4, "q_"⟩ = .ok text ∧
        Circuit.parse text = .ok (built interleaved).renumber := by
  have hchars : ∀ ch ∈ "q_".toList, Text.Token.continuesWord ch := by
    simp [Text.Token.continuesWord]
  refine ⟨by decide, by decide, by decide, hchars, ?_⟩
  exact (parse_text_built interleaved (by decide) (by decide) ⟨4, "q_"⟩ (by decide) hchars).1

/-- **Which built circuits parse back to themselves.** -/
theorem parse_text_eq_built_iff (calls : List Call)
    (hsize : (built calls).table.size ≤ UInt32.size) (hfirst : ArgumentsFirst calls) :
    ∃ text, (built calls).text {} = .ok text ∧
      (Circuit.parse text = .ok (built calls) ↔
        ∀ i ∈ (built calls).instructions, (built calls).SharesType i) := by
  have hwf := wellFormed_built hsize
  have hself := renumber_eq_self (inOrder_built hsize hfirst) hwf
  refine ⟨_, text_eq hwf {}, ?_⟩
  constructor
  · intro hparse
    exact sharesType_of_parse_text hwf hsize hparse
  · intro hshares
    rw [parse_text_programFor {} (by simp), toCircuit_programFor hwf hsize hshares, hself]

/-- A quaternion over an integer and a float. -/
def mixedQuaternion : List Call :=
  [.argument (.int 1), .argument (.float .f64),
    .quaternion (.ofIndex 0) (.ofIndex 1) (.ofIndex 0) (.ofIndex 0)]

theorem argumentsFirst_mixedQuaternion : ArgumentsFirst mixedQuaternion :=
  ⟨_, _, List.take_append_drop 2 mixedQuaternion |>.symm, by decide, by decide⟩

theorem parse_text_eq_built_iff_mixedQuaternion :
    (built mixedQuaternion).table.size ≤ UInt32.size ∧ ArgumentsFirst mixedQuaternion ∧
      ∃ text, (built mixedQuaternion).text {} = .ok text ∧
        (Circuit.parse text = .ok (built mixedQuaternion) ↔
          ∀ i ∈ (built mixedQuaternion).instructions,
            (built mixedQuaternion).SharesType i) :=
  ⟨by decide, argumentsFirst_mixedQuaternion,
    parse_text_eq_built_iff mixedQuaternion (by decide) argumentsFirst_mixedQuaternion⟩

/-- Arguments first is not enough for a round trip. -/
theorem not_forall_parse_text_eq_built :
    ¬ ∀ calls, (built calls).table.size ≤ UInt32.size → ArgumentsFirst calls →
      ∃ text, (built calls).text {} = .ok text ∧ Circuit.parse text = .ok (built calls) := by
  intro h
  obtain ⟨text, htext, hparse⟩ := h mixedQuaternion (by decide) argumentsFirst_mixedQuaternion
  have hwf : (built mixedQuaternion).WellFormed := wellFormed_built (by decide)
  rw [text_eq hwf, Except.ok.injEq] at htext
  have hshares := sharesType_of_parse_text hwf (by decide) (htext ▸ hparse)
  revert hshares
  decide

end GateIR.Circuit

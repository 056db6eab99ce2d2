import GateIR.Proofs.Text.RoundTrip

/-!
# Circuits that are read

A circuit that is resolved from a program grows out of its arguments by instructions only, whose
operands are known and whose quaternions have four operands of one type (`Resolved`). Nothing else
is said of the program: the names are gone, and every side condition of the printer is met.

**Theorem (`resolved_of_toCircuit`).** What a program resolves to is resolved.

**Theorem (`parse_text_parsed`).** Whatever text a circuit is read from, its own text reads back to
the same circuit.
-/

namespace GateIR

namespace Circuit

open Relation (ReflTransGen)

variable {c : Circuit}

/-! ## Arguments, then instructions -/

/-- Arguments first, and then instructions over known values; all operands of a quaternion have one
type. -/
inductive Resolved : Circuit → Prop
  | arguments (types : List Ty) : Resolved (types.foldl withArgument {})
  | instruction {c : Circuit} {i : Instruction} {types : List Ty} : Resolved c →
      i.results = c.fresh types.length → (∀ v ∈ i.operands, c.Knows v) → i.Fixes types →
      c.SharesType i → Resolved (c.withInstruction i types)

theorem Resolved.grows (h : c.Resolved) : ReflTransGen Grows {} c := by
  induction h with
  | arguments types => exact grows_arguments {} types
  | instruction _ hres hops hfix _ ih => exact ih.tail (.instruction hres hops hfix)

theorem Resolved.wellFormed (h : c.Resolved) (hsize : c.table.size ≤ UInt32.size) :
    c.WellFormed := wellFormed_of_grows h.grows hsize

/-- Handles are given out in definition order. -/
theorem Resolved.inOrder (h : c.Resolved) (hsize : c.table.size ≤ UInt32.size) : c.InOrder := by
  induction h with
  | arguments types =>
    have hnone := instructions_foldl_withArgument types {}
    exact inOrder_of_grows (grows_arguments {} types) hsize (.inl hnone) rfl
  | @instruction c i types _ hres hops hfix _ ih =>
    have hgrows : Grows c (c.withInstruction i types) := .instruction hres hops hfix
    have hle := size_le_of_grows (.single hgrows)
    exact hgrows.inOrder hsize (.inr rfl) (ih (hle.trans hsize))

/-- Types that are shared stay shared. -/
theorem SharesType.of_grows {d : Circuit} (h : ReflTransGen Grows c d) {i : Instruction}
    (hi : c.SharesType i) : d.SharesType i := by
  cases i with
  | quaternion real i j k out =>
    obtain ⟨t, ht⟩ := hi
    exact ⟨t, fun v hv => (ht v hv).of_grows h⟩
  | _ => trivial

theorem Resolved.sharesType (h : c.Resolved) : ∀ i ∈ c.instructions, c.SharesType i := by
  induction h with
  | arguments types =>
    rw [instructions_foldl_withArgument]
    simp
  | @instruction c i types _ hres hops hfix hshares ih =>
    have hgrows : ReflTransGen Grows c (c.withInstruction i types) :=
      .single (.instruction hres hops hfix)
    intro i' hi'
    rcases Array.mem_push.1 hi' with hi' | rfl
    · exact (ih i' hi').of_grows hgrows
    · exact hshares.of_grows hgrows

end Circuit

/-! ## What resolving adds -/

namespace Text

open Circuit (Resolved)

namespace Resolve

variable {s t : Scope}

/-- A builder action that succeeds knew its handles. -/
theorem of_run_build {α : Type} {b : Builder α} {vs : List Value} {a x : α} {d : Circuit}
    (hb : outcome b s.circuit = s.circuit.guarded vs a d) (h : (build b).run s = .ok (x, t)) :
    (∀ v ∈ vs, s.circuit.Knows v) ∧ t.circuit = d := by
  have hrun : b.run.run s.circuit = _ := hb
  rw [build, run_bind_of_ok run_get, hrun, Circuit.guarded] at h
  cases hunknown : s.circuit.firstUnknown? vs with
  | some v =>
    rw [hunknown] at h
    cases h
  | none =>
    rw [hunknown] at h
    cases h
    exact ⟨Circuit.firstUnknown?_eq_none_iff.1 hunknown, rfl⟩

/-- A builder action for one instruction that succeeds makes the circuit grow. -/
theorem resolved_of_run_build {α : Type} {b : Builder α} {a x : α} {i : Instruction}
    {types : List Ty} (hs : Resolved s.circuit)
    (hb : outcome b s.circuit =
      s.circuit.guarded i.operands a (s.circuit.withInstruction i types))
    (hres : i.results = s.circuit.fresh types.length) (hfix : i.Fixes types)
    (hshares : s.circuit.SharesType i) (h : (build b).run s = .ok (x, t)) :
    Resolved t.circuit := by
  obtain ⟨hknown, hcircuit⟩ := of_run_build hb h
  rw [hcircuit]
  exact .instruction hs hres hknown hfix hshares

/-- **Step.** The instruction of a body is the next one. -/
theorem resolved_of_run_body (hs : Resolved s.circuit) {b : Body} {vs : List Value}
    (h : (body b).run s = .ok (vs, t)) : Resolved t.circuit := by
  cases b with
  | constant g =>
    obtain ⟨v, u, hv, hrun⟩ := exists_of_run_bind h
    obtain ⟨-, rfl⟩ := run_pure_eq_ok_iff.1 hrun
    exact resolved_of_run_build hs (Circuit.outcome_constant _ g) rfl .constant trivial hv
  | quaternion ty real i j k =>
    simp only [body, run_bind_eq_ok_iff, run_typedValue_eq_ok_iff, run_pure_eq_ok_iff] at h
    obtain ⟨v, _, ⟨⟨-, hv⟩, rfl⟩, vi, _, ⟨⟨-, hvi⟩, rfl⟩, vj, _, ⟨⟨-, hvj⟩, rfl⟩,
      vk, _, ⟨⟨-, hvk⟩, rfl⟩, out, _, hout, -, rfl⟩ := h
    refine resolved_of_run_build hs (Circuit.outcome_quaternion _ v vi vj vk) rfl .quaternion
      ⟨ty, ?_⟩ hout
    simp [hv, hvi, hvj, hvk]
  | compose lhs rhs ty =>
    simp only [body, run_bind_eq_ok_iff, run_value_eq_ok_iff, run_pure_eq_ok_iff] at h
    obtain ⟨vl, _, ⟨-, rfl⟩, vr, _, ⟨-, rfl⟩, out, _, hout, -, rfl⟩ := h
    exact resolved_of_run_build hs (Circuit.outcome_composeAs _ vl vr ty) rfl .compose trivial hout
  | xzs x z phase =>
    simp only [body, run_bind_eq_ok_iff, run_value_eq_ok_iff, run_pure_eq_ok_iff] at h
    obtain ⟨vx, _, ⟨-, rfl⟩, vz, _, ⟨-, rfl⟩, vp, _, ⟨-, rfl⟩, out, _, hout, -, rfl⟩ := h
    exact resolved_of_run_build hs (Circuit.outcome_xzs _ vx vz vp) rfl .xzs trivial hout
  | qrefGate a qubits types =>
    simp only [body, run_bind_eq_ok_iff, run_typedValues_eq_ok_iff, run_pure_eq_ok_iff] at h
    obtain ⟨ins, _, ⟨-, -, rfl⟩, _, _, hbuild, -, rfl⟩ := h
    exact resolved_of_run_build hs (Circuit.outcome_qrefGate _ a ins) rfl .qrefGate trivial hbuild
  | qrefDynGate g qubits types =>
    simp only [body, run_bind_eq_ok_iff, run_typedValues_eq_ok_iff, run_value_eq_ok_iff,
      run_pure_eq_ok_iff] at h
    obtain ⟨ins, _, ⟨-, -, rfl⟩, vg, _, ⟨-, rfl⟩, _, _, hbuild, -, rfl⟩ := h
    exact resolved_of_run_build hs (Circuit.outcome_qrefDynGate _ vg ins) rfl .qrefDynGate trivial
      hbuild
  | qrefMeasure q =>
    simp only [body, run_bind_eq_ok_iff, run_value_eq_ok_iff, run_pure_eq_ok_iff] at h
    obtain ⟨v, _, ⟨-, rfl⟩, out, _, hout, -, rfl⟩ := h
    exact resolved_of_run_build hs (Circuit.outcome_qrefMeasure _ v) rfl .qrefMeasure trivial hout
  | qssaGate a qubits types =>
    simp only [body, run_bind_eq_ok_iff, run_typedValues_eq_ok_iff] at h
    obtain ⟨ins, _, ⟨-, -, rfl⟩, hbuild⟩ := h
    have hlength : (List.replicate ins.length Ty.qubit).length = ins.length := List.length_replicate
    exact resolved_of_run_build hs (Circuit.outcome_qssaGate _ a ins)
      (by rw [Instruction.results, hlength]) .qssaGate trivial hbuild
  | qssaMeasure q =>
    simp only [body, run_bind_eq_ok_iff, run_value_eq_ok_iff, run_pure_eq_ok_iff] at h
    obtain ⟨v, _, ⟨-, rfl⟩, ⟨out, outQubit⟩, _, hout, -, rfl⟩ := h
    exact resolved_of_run_build hs (Circuit.outcome_qssaMeasure _ v) rfl .qssaMeasure trivial hout

/-- Naming values leaves the circuit as it is. -/
theorem circuit_of_run_forM_define {named : List (String × Value)}
    (h : (named.forM fun (name, v) => define name v).run s = .ok ((), t)) :
    t.circuit = s.circuit := by
  induction named generalizing s with
  | nil =>
    obtain ⟨-, rfl⟩ := run_pure_eq_ok_iff.1 h
    rfl
  | cons a named ih =>
    rw [List.forM_eq_forM, List.forM_cons] at h
    obtain ⟨_, u, hdefine, hrest⟩ := exists_of_run_bind h
    obtain ⟨-, rfl⟩ := run_define_eq_ok_iff.1 hdefine
    rw [ih hrest]

theorem resolved_of_run_statement (hs : Resolved s.circuit) {st : Statement}
    (h : (statement st).run s = .ok ((), t)) : Resolved t.circuit := by
  rw [statement] at h
  split at h
  · obtain ⟨vs, u, hbody, hdefine⟩ := exists_of_run_bind h
    rw [circuit_of_run_forM_define hdefine]
    exact resolved_of_run_body hs hbody
  · cases h

/-! ## Whole programs -/

/-- **Run.** -/
theorem resolved_of_run_statements {ss : List Statement} (hs : Resolved s.circuit)
    (h : (ss.forM statement).run s = .ok ((), t)) : Resolved t.circuit := by
  induction ss generalizing s with
  | nil =>
    obtain ⟨-, rfl⟩ := run_pure_eq_ok_iff.1 h
    exact hs
  | cons st ss ih =>
    rw [List.forM_eq_forM, List.forM_cons] at h
    obtain ⟨_, u, hstatement, hrest⟩ := exists_of_run_bind h
    exact ih (resolved_of_run_statement hs hstatement) hrest

theorem circuit_of_run_argument {a : Argument} (h : (argument a).run s = .ok ((), t)) :
    t.circuit = s.circuit.withArgument a.ty := by
  rw [argument, run_bind_of_ok (run_build (Circuit.outcome_addArgument s.circuit a.ty)),
    run_define_eq_ok_iff] at h
  rw [h.2]

theorem circuit_of_run_arguments {as : List Argument} (h : (as.forM argument).run s = .ok ((), t)) :
    t.circuit = (as.map Argument.ty).foldl Circuit.withArgument s.circuit := by
  induction as generalizing s with
  | nil =>
    obtain ⟨-, rfl⟩ := run_pure_eq_ok_iff.1 h
    rfl
  | cons a as ih =>
    rw [List.forM_eq_forM, List.forM_cons] at h
    obtain ⟨_, u, hargument, hrest⟩ := exists_of_run_bind h
    rw [ih hrest, circuit_of_run_argument hargument]
    rfl

end Resolve

/-- **What a program resolves to is resolved.** -/
theorem Program.resolved_of_toCircuit {p : Program} {c : Circuit} (h : p.toCircuit = .ok c) :
    Resolved c := by
  obtain ⟨⟨_, s⟩, hrun, hc⟩ := bind_eq_ok_iff.1 h
  cases hc
  obtain ⟨_, u, harguments, hstatements⟩ := Resolve.exists_of_run_bind hrun
  have hu := Resolve.circuit_of_run_arguments harguments
  exact Resolve.resolved_of_run_statements (hu ▸ .arguments _) hstatements

end Text

namespace Circuit

variable {c : Circuit}

theorem resolved_of_parse {source : String} (h : Circuit.parse source = .ok c) : c.Resolved := by
  obtain ⟨p, -, hp⟩ := bind_eq_ok_iff.1 h
  exact Text.Program.resolved_of_toCircuit hp

/-- A resolved circuit has a text, which reads back to it. -/
theorem Resolved.parse_text (h : c.Resolved) (hsize : c.table.size ≤ UInt32.size) :
    c.text {} = .ok ((c.programFor "").text 2) ∧
      Circuit.parse ((c.programFor "").text 2) = .ok c := by
  have hwf := h.wellFormed hsize
  refine ⟨text_eq hwf {}, ?_⟩
  rw [parse_text_programFor {} (by simp), toCircuit_programFor hwf hsize h.sharesType,
    renumber_eq_self (h.inOrder hsize) hwf]

/-- **Printing is stable on everything that is read**: the circuit of any text at all is printed,
and reads back as the same circuit. -/
theorem parse_text_parsed {source : String} (h : Circuit.parse source = .ok c)
    (hsize : c.table.size ≤ UInt32.size) :
    ∃ text, c.text {} = .ok text ∧ Circuit.parse text = .ok c :=
  ⟨_, (resolved_of_parse h).parse_text hsize⟩

/-- A qubit is rotated by `-1.5π` and measured, in a layout that is not the printed one. -/
def rotatedSource : String :=
  "// any layout\ncircuit(%flag: i1,\n %q :!qubit)\x7b%r = qssa.gate < #gate.rz< -150e-2pi > >" ++
    " %q : !qubit // turned\n %out,%q2 = qssa.measure %r\x7d"

def rotated : Circuit :=
  built [.argument (.int 1), .argument .qubit,
    .qssaGate (.gate (.rz (.ofCoefficient ⟨0x3fe0000000000000⟩))) [.ofIndex 1],
    .qssaMeasure (.ofIndex 2)]

theorem parse_text_parsed_rotated :
    Circuit.parse rotatedSource = .ok rotated ∧ rotated.table.size ≤ UInt32.size ∧
      ∃ text, rotated.text {} = .ok text ∧ Circuit.parse text = .ok rotated := by
  have hparse : Circuit.parse rotatedSource = .ok rotated := by decide +kernel
  have hsize : rotated.table.size ≤ UInt32.size := by decide +kernel
  exact ⟨hparse, hsize, parse_text_parsed hparse hsize⟩

end Circuit

end GateIR

import GateIR.Proofs.Circuit.Renumber
import GateIR.Proofs.Text.Tokens
import GateIR.Text.Naming

/-!
# Printing a well-formed circuit

In a well-formed circuit every handle is defined exactly once, so its name is its position in
definition order, and every type that is printed is in the value table.

**Theorem (`toProgram_eq`).** A well-formed circuit has a program: its arguments and instructions by
name, one statement on each line from the second one.
-/

namespace GateIR

theorem lastIndex?_eq_none_iff {v : Value} {vs : List Value} :
    lastIndex? v vs = none ↔ v ∉ vs := by
  induction vs with
  | nil => simp [lastIndex?]
  | cons w vs ih =>
    rw [lastIndex?, List.mem_cons, not_or, ← ih]
    cases lastIndex? v vs <;> simp [eq_comm]

theorem lastIndex?_eq_idxOf {v : Value} {vs : List Value} (hnodup : vs.Nodup) (hv : v ∈ vs) :
    lastIndex? v vs = some (vs.idxOf v) := by
  induction vs with
  | nil => simp at hv
  | cons w vs ih =>
    obtain ⟨hw, hvs⟩ := List.nodup_cons.1 hnodup
    by_cases h : w = v
    · subst h
      simp [lastIndex?, lastIndex?_eq_none_iff.2 hw]
    · have hmem : v ∈ vs := (List.mem_cons.1 hv).resolve_left (Ne.symm h)
      simp [lastIndex?, ih hvs hmem, List.idxOf_cons_ne _ h]

namespace Circuit

open Text (Argument Body Program Statement ValidName Token)

variable {c : Circuit} {namePrefix : String}

/-! ## Names and types -/

/-- The name of a value that is defined once. -/
def nameIn (c : Circuit) (namePrefix : String) (v : Value) : String :=
  namePrefix ++ (c.definitions.idxOf v).repr

theorem WellFormed.nameOf_eq (hwf : c.WellFormed) {v : Value} (hv : v ∈ c.definitions) :
    c.nameOf namePrefix v = .ok (c.nameIn namePrefix v) := by
  rw [nameOf, lastIndex?_eq_idxOf hwf.nodup_definitions hv]
  rfl

theorem WellFormed.namesOf_eq (hwf : c.WellFormed) {vs : List Value}
    (hvs : ∀ v ∈ vs, v ∈ c.definitions) :
    c.namesOf namePrefix vs = .ok (vs.map (c.nameIn namePrefix)) := by
  rw [namesOf, mapM_eq_ok_iff, List.forall₂_map_right_iff]
  exact List.forall₂_same.2 fun v hv => hwf.nameOf_eq (hvs v hv)

theorem WellFormed.typeOf_eq (hwf : c.WellFormed) {v : Value} (hv : v ∈ c.definitions) :
    c.typeOf v = .ok (c.tyOf v) :=
  typeOf_eq_ok_iff.2 (hasType_tyOf (hwf.mem_definitions_iff.1 hv))

theorem WellFormed.typesOf_eq (hwf : c.WellFormed) {vs : List Value}
    (hvs : ∀ v ∈ vs, v ∈ c.definitions) : c.typesOf vs = .ok (vs.map c.tyOf) := by
  rw [typesOf, mapM_eq_ok_iff, List.forall₂_map_right_iff]
  exact List.forall₂_same.2 fun v hv => hwf.typeOf_eq (hvs v hv)

theorem WellFormed.operandsOf_eq (hwf : c.WellFormed) {vs : List Value}
    (hvs : ∀ v ∈ vs, v ∈ c.definitions) :
    c.operandsOf namePrefix vs = .ok (vs.map (c.nameIn namePrefix), vs.map c.tyOf) := by
  rw [operandsOf, hwf.typesOf_eq hvs, hwf.namesOf_eq hvs]
  rfl

/-! ## The program -/

/-- The body that an instruction is printed as. -/
def bodyFor (c : Circuit) (namePrefix : String) : Instruction → Body
  | .constant g _ => .constant g
  | .quaternion real i j k _ =>
    .quaternion (c.tyOf real) (c.nameIn namePrefix real) (c.nameIn namePrefix i)
      (c.nameIn namePrefix j) (c.nameIn namePrefix k)
  | .compose lhs rhs out =>
    .compose (c.nameIn namePrefix lhs) (c.nameIn namePrefix rhs) (c.tyOf out)
  | .xzs x z phase _ =>
    .xzs (c.nameIn namePrefix x) (c.nameIn namePrefix z) (c.nameIn namePrefix phase)
  | .qrefGate a ins => .qrefGate a (ins.map (c.nameIn namePrefix)) (ins.map c.tyOf)
  | .qrefDynGate ins g =>
    .qrefDynGate (c.nameIn namePrefix g) (ins.map (c.nameIn namePrefix)) (ins.map c.tyOf)
  | .qrefMeasure q _ => .qrefMeasure (c.nameIn namePrefix q)
  | .qssaGate a ins _ => .qssaGate a (ins.map (c.nameIn namePrefix)) (ins.map c.tyOf)
  | .qssaMeasure q _ _ => .qssaMeasure (c.nameIn namePrefix q)

/-- The statement that an instruction is printed as. -/
def statementFor (c : Circuit) (namePrefix : String) (i : Instruction) (line : Nat) :
    Statement where
  results := i.results.map (c.nameIn namePrefix)
  body := c.bodyFor namePrefix i
  line := line

/-- The program that a well-formed circuit is printed as. -/
def programFor (c : Circuit) (namePrefix : String) : Program where
  arguments := c.arguments.toList.map fun v => ⟨c.nameIn namePrefix v, c.tyOf v⟩
  statements := (c.instructions.toList.zipIdx 2).map fun p => c.statementFor namePrefix p.1 p.2

theorem WellFormed.bodyOf_eq (hwf : c.WellFormed) {i : Instruction}
    (hops : ∀ v ∈ i.operands, v ∈ c.definitions) (hres : ∀ v ∈ i.results, v ∈ c.definitions) :
    c.bodyOf namePrefix i = .ok (c.bodyFor namePrefix i) := by
  cases i with
  | constant g out => rfl
  | quaternion real i j k out =>
    simp only [Instruction.operands, List.forall_mem_cons] at hops
    simp [bodyOf, bodyFor, hwf.nameOf_eq, hwf.typeOf_eq, hops, bind, Except.bind, pure, Except.pure]
  | compose lhs rhs out =>
    simp only [Instruction.operands, Instruction.results, List.forall_mem_cons] at hops hres
    simp [bodyOf, bodyFor, hwf.nameOf_eq, hwf.typeOf_eq, hops, hres, bind, Except.bind, pure,
      Except.pure]
  | xzs x z phase out =>
    simp only [Instruction.operands, List.forall_mem_cons] at hops
    simp [bodyOf, bodyFor, hwf.nameOf_eq, hops, bind, Except.bind, pure, Except.pure]
  | qrefGate a ins =>
    have hins : ∀ v ∈ ins, v ∈ c.definitions := hops
    simp [bodyOf, bodyFor, hwf.operandsOf_eq hins, bind, Except.bind, pure, Except.pure]
  | qrefDynGate ins g =>
    obtain ⟨hins, hg⟩ := List.forall_mem_append.1 hops
    simp only [List.forall_mem_singleton] at hg
    simp [bodyOf, bodyFor, hwf.operandsOf_eq hins, hwf.nameOf_eq hg, bind, Except.bind, pure,
      Except.pure]
  | qrefMeasure q out =>
    simp only [Instruction.operands, List.forall_mem_singleton] at hops
    simp [bodyOf, bodyFor, hwf.nameOf_eq hops, bind, Except.bind, pure, Except.pure]
  | qssaGate a ins outs =>
    have hins : ∀ v ∈ ins, v ∈ c.definitions := hops
    simp [bodyOf, bodyFor, hwf.operandsOf_eq hins, bind, Except.bind, pure, Except.pure]
  | qssaMeasure q out outQubit =>
    simp only [Instruction.operands, List.forall_mem_singleton] at hops
    simp [bodyOf, bodyFor, hwf.nameOf_eq hops, bind, Except.bind, pure, Except.pure]

theorem WellFormed.statementOf_eq (hwf : c.WellFormed) {i : Instruction} (line : Nat)
    (hops : ∀ v ∈ i.operands, v ∈ c.definitions) (hres : ∀ v ∈ i.results, v ∈ c.definitions) :
    c.statementOf namePrefix i line = .ok (c.statementFor namePrefix i line) := by
  rw [statementOf, hwf.bodyOf_eq hops hres, hwf.namesOf_eq hres]
  rfl

theorem WellFormed.mem_definitions_of_operand (hwf : c.WellFormed) {i : Instruction}
    (hi : i ∈ c.instructions) : ∀ v ∈ i.operands, v ∈ c.definitions := by
  intro v hv
  obtain ⟨k, hk⟩ := Array.mem_iff_getElem?.1 hi
  exact mem_definitions_of_definedBefore (hwf.scoping k i hk v hv).1

theorem mem_definitions_of_result {i : Instruction} (hi : i ∈ c.instructions) :
    ∀ v ∈ i.results, v ∈ c.definitions := fun _ hv =>
  List.mem_append_right _ (List.mem_flatMap.2 ⟨i, Array.mem_toList_iff.2 hi, hv⟩)

/-- **Printing a well-formed circuit succeeds.** -/
theorem WellFormed.toProgram_eq (hwf : c.WellFormed) (namePrefix : String) :
    c.toProgram namePrefix = .ok (c.programFor namePrefix) := by
  have harguments : c.arguments.toList.mapM (c.argumentOf namePrefix) =
      .ok (c.programFor namePrefix).arguments := by
    rw [programFor, mapM_eq_ok_iff, List.forall₂_map_right_iff]
    refine List.forall₂_same.2 fun v hv => ?_
    have hmem : v ∈ c.definitions := List.mem_append_left _ hv
    rw [argumentOf, hwf.nameOf_eq hmem, hwf.typeOf_eq hmem]
    rfl
  have hstatements : ((c.instructions.toList.zipIdx 2).mapM fun p =>
      c.statementOf namePrefix p.1 p.2) = .ok (c.programFor namePrefix).statements := by
    rw [programFor, mapM_eq_ok_iff, List.forall₂_map_right_iff]
    refine List.forall₂_same.2 fun p hp => ?_
    have hi : p.1 ∈ c.instructions := Array.mem_toList_iff.1 (List.fst_mem_of_mem_zipIdx hp)
    exact hwf.statementOf_eq p.2 (hwf.mem_definitions_of_operand hi) (mem_definitions_of_result hi)
  rw [toProgram, harguments, hstatements]
  rfl

/-! ## Printable programs -/

variable (hchars : ∀ ch ∈ namePrefix.toList, Token.continuesWord ch)

include hchars

theorem validName_numbered (n : Nat) : ValidName (namePrefix ++ n.repr) := by
  have htext : (namePrefix ++ n.repr).toList = namePrefix.toList ++ Nat.toDigits 10 n := by simp
  constructor
  · intro h
    have := congrArg String.toList h
    rw [htext] at this
    exact Nat.toDigits_ne_nil (List.append_eq_nil_iff.1 this).2
  · intro ch hch
    rw [htext] at hch
    rcases List.mem_append.1 hch with hch | hch
    · exact hchars ch hch
    · exact Text.continuesWord_of_mem_toDigits ch hch

theorem validName_nameIn (v : Value) : ValidName (c.nameIn namePrefix v) :=
  validName_numbered hchars _

theorem printable_bodyFor (i : Instruction) : (c.bodyFor namePrefix i).Printable := by
  have hname := validName_nameIn (c := c) hchars
  cases i <;> simp [bodyFor, Body.Printable, hname]

theorem printable_programFor : (c.programFor namePrefix).Printable where
  arguments := by
    simpa [programFor] using fun v _ => validName_nameIn hchars v
  results := by
    intro s hs
    obtain ⟨p, -, rfl⟩ := List.mem_map.1 hs
    simpa [statementFor] using fun v _ => validName_nameIn hchars v
  bodies := by
    intro s hs
    obtain ⟨p, -, rfl⟩ := List.mem_map.1 hs
    exact printable_bodyFor hchars p.1
  lines := by
    simp [programFor, statementFor, Function.comp_def]

end Circuit

end GateIR

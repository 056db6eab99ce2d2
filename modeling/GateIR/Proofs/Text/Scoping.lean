import Mathlib.Tactic
import GateIR.Circuit.Basic
import GateIR.Text.Program

/-!
# Scoping

The rules by which a program has a circuit, said of its names alone and without resolving anything.

**Well scoped (`Program.WellScoped`).** Argument names are distinct. Every statement names as many
results as its body has, with names that are new and distinct; its operands are names that are
defined before it, and have the types that they are annotated with.

**Denoted circuit (`Program.Denotes`).** A name stands for its position in definition order
(`Program.position`). The circuit has one argument for each argument and one instruction for each
statement, with names replaced by positions.

Whether a statement can follow depends on the program before it only, so a program is well scoped
statement by statement (`wellScoped_push_iff`).
-/

namespace GateIR

/-- The attribute that an instruction carries. -/
def Instruction.attribute? : Instruction → Option Attribute
  | constant g _ => some (.gate g)
  | qrefGate a _ | qssaGate a _ _ => some a
  | _ => none

namespace Text

namespace Body

variable {b : Body}

/-! ## Parts of a statement -/

/-- The names of the operands; a gate value comes after its qubits. -/
def operands : Body → List String
  | constant _ => []
  | quaternion _ real i j k => [real, i, j, k]
  | compose lhs rhs _ => [lhs, rhs]
  | xzs x z phase => [x, z, phase]
  | qrefGate _ qubits _ | qssaGate _ qubits _ => qubits
  | qrefDynGate g qubits _ => qubits ++ [g]
  | qrefMeasure q | qssaMeasure q => [q]

/-- The operands that are annotated with a type. -/
def annotations : Body → List (String × Ty)
  | quaternion t real i j k => [(real, t), (i, t), (j, t), (k, t)]
  | qrefGate _ qubits types | qrefDynGate _ qubits types | qssaGate _ qubits types =>
    qubits.zip types
  | _ => []

/-- An operand list is annotated with a list of as many types. -/
def MatchesTypes : Body → Prop
  | qrefGate _ qubits types | qrefDynGate _ qubits types | qssaGate _ qubits types =>
    types.length = qubits.length
  | _ => True

/-- The attribute that the instruction carries. -/
def attribute? : Body → Option Attribute
  | constant g => some (.gate g)
  | qrefGate a _ _ | qssaGate a _ _ => some a
  | _ => none

/-- The types of the results; a composition has the type that it is annotated with. -/
def resultTypes : Body → List Ty
  | constant g => [.gate g.arity]
  | quaternion .. | xzs .. => [.gate 1]
  | compose _ _ t => [t]
  | qrefGate .. | qrefDynGate .. => []
  | qrefMeasure _ => [.bool]
  | qssaGate _ qubits _ => List.replicate qubits.length .qubit
  | qssaMeasure _ => [.bool, .qubit]

theorem length_resultTypes (b : Body) : b.resultTypes.length = b.resultCount := by
  cases b <;> simp [resultTypes, resultCount]

end Body

/-! ## The rules -/

namespace Program

variable {p : Program} {s : Statement}

/-- All names, in definition order: the arguments, then the results of each statement. -/
def names (p : Program) : List String :=
  p.arguments.map Argument.name ++ p.statements.flatMap Statement.results

/-- The types and the places of the definitions. -/
def entries (p : Program) : List Entry :=
  p.arguments.mapIdx (fun n a => ⟨a.ty, .argument n⟩) ++
    (p.statements.mapIdx fun k s => s.body.resultTypes.mapIdx fun j t => ⟨t, .result k j⟩).flatten

/-- The value that a name stands for: its position in definition order. -/
def position (p : Program) (name : String) : Value := .ofIndex (p.names.idxOf name)

/-- The type of the value that a name stands for. -/
def typeOf? (p : Program) (name : String) : Option Ty :=
  (p.entries[p.names.idxOf name]?).map Entry.ty

/-- The program before statement `k`. -/
def before (p : Program) (k : Nat) : Program := { p with statements := p.statements.take k }

/-- The operands of a body are names of the program, annotated with their types. -/
structure Accepts (p : Program) (b : Body) : Prop where
  defined : ∀ n ∈ b.operands, n ∈ p.names
  counted : b.MatchesTypes
  annotated : ∀ a ∈ b.annotations, p.typeOf? a.1 = some a.2

/-- A statement can follow the program: it names all of its results, and names them anew. -/
structure Admits (p : Program) (s : Statement) : Prop where
  counted : s.results.length = s.body.resultCount
  accepts : p.Accepts s.body
  distinct : s.results.Nodup
  fresh : ∀ n ∈ s.results, n ∉ p.names

/-- Argument names are distinct, and every statement can follow what comes before it. -/
structure WellScoped (p : Program) : Prop where
  arguments : (p.arguments.map Argument.name).Nodup
  statements : ∀ k s, p.statements[k]? = some s → (p.before k).Admits s

/-- The instruction is the one of the statement, with names resolved to positions. -/
structure Resolves (p : Program) (s : Statement) (i : Instruction) : Prop where
  name : i.name = s.body.name
  attribute? : i.attribute? = s.body.attribute?
  operands : i.operands = s.body.operands.map p.position
  results : i.results = s.results.map p.position

/-- The circuit has the arguments, the values and the instructions of the program. -/
structure Denotes (p : Program) (c : Circuit) : Prop where
  arguments : c.arguments.toList = p.arguments.map fun a => p.position a.name
  table : c.table.toList = p.entries
  instructions : List.Forall₂ p.Resolves p.statements c.instructions.toList

/-! ## One statement more -/

/-- The program with one more statement. -/
def push (p : Program) (s : Statement) : Program := { p with statements := p.statements ++ [s] }

theorem names_push (p : Program) (s : Statement) : (p.push s).names = p.names ++ s.results := by
  simp [names, push]

theorem entries_push (p : Program) (s : Statement) :
    (p.push s).entries = p.entries ++
      s.body.resultTypes.mapIdx fun j t => ⟨t, .result p.statements.length j⟩ := by
  simp [entries, push, List.mapIdx_append]

theorem length_entries_push (h : p.entries.length = p.names.length)
    (hcounted : s.results.length = s.body.resultCount) :
    (p.push s).entries.length = (p.push s).names.length := by
  rw [entries_push, names_push, List.length_append, List.length_append, h, List.length_mapIdx,
    Body.length_resultTypes, hcounted]

theorem mem_names_of_typeOf? (hlength : p.entries.length = p.names.length) {n : String} {t : Ty}
    (h : p.typeOf? n = some t) : n ∈ p.names := by
  obtain ⟨e, he, -⟩ := Option.map_eq_some_iff.1 h
  have hlt := (List.getElem?_eq_some_iff.1 he).1
  rw [hlength] at hlt
  exact List.idxOf_lt_length_iff.1 hlt

theorem position_push {n : String} (h : n ∈ p.names) : (p.push s).position n = p.position n := by
  rw [position, names_push, List.idxOf_append_of_mem h]
  rfl

theorem map_position_push_of_mem {ns : List String} (h : ∀ n ∈ ns, n ∈ p.names) :
    ns.map (p.push s).position = ns.map p.position :=
  List.map_congr_left fun n hn => position_push (h n hn)

/-- New names get the next positions. -/
theorem map_position_push (hdistinct : s.results.Nodup) (hfresh : ∀ n ∈ s.results, n ∉ p.names) :
    s.results.map (p.push s).position =
      (List.range' p.names.length s.results.length).map Value.ofIndex := by
  apply List.ext_getElem (by simp)
  intro j hj _
  have hj' : j < s.results.length := by simpa using hj
  have hidx := hdistinct.idxOf_getElem j hj'
  simp [position, names_push, List.idxOf_append_of_notMem (hfresh _ (List.getElem_mem hj')), hidx]

theorem nodup_names_push_iff (h : p.names.Nodup) :
    (p.push s).names.Nodup ↔ s.results.Nodup ∧ ∀ n ∈ s.results, n ∉ p.names := by
  rw [names_push, List.nodup_append]
  constructor
  · intro hnodup
    exact ⟨hnodup.2.1, fun n hn hmem => hnodup.2.2 n hmem n hn rfl⟩
  · intro hnew
    refine ⟨h, hnew.1, ?_⟩
    intro m hm n hn heq
    exact hnew.2 n hn (heq ▸ hm)

theorem mem_names_of_mem_results (hs : s ∈ p.statements) {n : String} (hn : n ∈ s.results) :
    n ∈ p.names :=
  List.mem_append_right _ (List.mem_flatMap.2 ⟨s, hs, hn⟩)

theorem mem_names_of_mem_arguments {a : Argument} (ha : a ∈ p.arguments) : a.name ∈ p.names :=
  List.mem_append_left _ (List.mem_map_of_mem ha)

/-- A resolved statement stays resolved. -/
theorem Resolves.push {t : Statement} {i : Instruction} (h : p.Resolves t i)
    (ht : t ∈ p.statements) (hdefined : ∀ n ∈ t.body.operands, n ∈ p.names) :
    (p.push s).Resolves t i where
  name := h.name
  attribute? := h.attribute?
  operands := by rw [h.operands, map_position_push_of_mem hdefined]
  results := by
    rw [h.results, map_position_push_of_mem fun n hn => mem_names_of_mem_results ht hn]

theorem before_push_of_lt {k : Nat} (h : k < p.statements.length) :
    (p.push s).before k = p.before k := by
  simp [before, push, List.take_append_of_le_length h.le]

theorem before_push_length : (p.push s).before p.statements.length = p := by
  simp [before, push]

theorem wellScoped_push_iff : (p.push s).WellScoped ↔ p.WellScoped ∧ p.Admits s := by
  constructor
  · intro h
    refine ⟨⟨h.arguments, fun k t ht => ?_⟩, ?_⟩
    · have hk := (List.getElem?_eq_some_iff.1 ht).1
      have hadmits := h.statements k t (by rw [push, List.getElem?_append_left hk, ht])
      rwa [before_push_of_lt hk] at hadmits
    · have hadmits := h.statements p.statements.length s (by simp [push])
      rwa [before_push_length] at hadmits
  · intro h
    obtain ⟨hp, hs⟩ := h
    refine ⟨hp.arguments, fun k t ht => ?_⟩
    rcases Nat.lt_or_ge k p.statements.length with hk | hk
    · rw [push, List.getElem?_append_left hk] at ht
      rw [before_push_of_lt hk]
      exact hp.statements k t ht
    · rw [push, List.getElem?_append_right hk, List.getElem?_singleton] at ht
      split at ht
      · next hzero =>
        obtain rfl : p.statements.length = k := by omega
        cases ht
        rwa [before_push_length]
      · cases ht

end Program

end Text

end GateIR

import GateIR.Proofs.Text.Naming

/-!
# Circuits without a text

Printing looks up the name of every value it meets, and the type of some. A name is there when an
argument or a result defines the value, a type when the value is in the table. A circuit that comes
from data may have either without the other.

**Theorem (`text_fails_on_dangling`).** A circuit has a text exactly when it has no dangling handle,
under every configuration whose indentation a string can have. Otherwise the printer reports a
dangling handle, which is the same one under all of these.

`lookUps` is what the printer looks up, in order. Each part of the printer fails just where a look-up
of its own list does, and reports the first of these (`Performs`). The configuration says how names
are spelt, and nothing about which are looked up.
-/

namespace GateIR

/-! ## Look-ups -/

/-- A look-up of the printer. -/
inductive LookUp where
  | name (v : Value)
  | type (v : Value)

namespace LookUp

def value : LookUp → Value
  | name v | type v => v

/-- Nothing defines a value whose name is looked up, or the table lacks one whose type is. -/
def Fails (c : Circuit) : LookUp → Prop
  | name v => v ∉ c.definitions
  | type v => ¬ c.Knows v

instance (c : Circuit) : DecidablePred (Fails c)
  | name v => inferInstanceAs (Decidable (v ∉ c.definitions))
  | type v => inferInstanceAs (Decidable (¬ c.Knows v))

end LookUp

/-- What is looked up to print an instruction without its results, in order. -/
def Instruction.lookUps : Instruction → List LookUp
  | constant .. => []
  | quaternion real i j k _ => [.type real, .name real, .name i, .name j, .name k]
  | compose lhs rhs out => [.name lhs, .name rhs, .type out]
  | xzs x z phase _ => [.name x, .name z, .name phase]
  | qrefGate _ ins | qssaGate _ ins _ => ins.map .type ++ ins.map .name
  | qrefDynGate ins gate => .name gate :: (ins.map .type ++ ins.map .name)
  | qrefMeasure qubit _ | qssaMeasure qubit _ _ => [.name qubit]

/-- The values whose types are printed. -/
def Instruction.annotated : Instruction → List Value
  | quaternion real .. => [real]
  | compose _ _ out => [out]
  | qrefGate _ ins | qrefDynGate ins _ | qssaGate _ ins _ => ins
  | _ => []

theorem Instruction.name_mem_lookUps {i : Instruction} {v : Value} :
    .name v ∈ i.lookUps ↔ v ∈ i.operands := by
  cases i <;> simp [lookUps, operands, or_comm]

theorem Instruction.type_mem_lookUps {i : Instruction} {v : Value} :
    .type v ∈ i.lookUps ↔ v ∈ i.annotated := by
  cases i <;> simp [lookUps, annotated]

namespace Circuit

variable {c : Circuit} {α β : Type} {ls ms : List LookUp} {namePrefix : String}

/-! ## Performing look-ups -/

/-- The action fails as the first of the look-ups that fail, and succeeds when none does. -/
def Performs (c : Circuit) (ls : List LookUp) (x : Except CircuitError α) : Prop :=
  match ls.find? (LookUp.Fails c ·) with
  | some l => x = .error (.unknownValue l.value)
  | none => ∃ a, x = .ok a

theorem performs_pure (a : α) : c.Performs [] (pure a) := ⟨a, rfl⟩

theorem Performs.bind {x : Except CircuitError α} {f : α → Except CircuitError β}
    (hx : c.Performs ls x) (hf : ∀ a, c.Performs ms (f a)) : c.Performs (ls ++ ms) (x >>= f) := by
  rw [Performs] at hx ⊢
  rw [List.find?_append]
  cases h : ls.find? (LookUp.Fails c ·) with
  | some l =>
    rw [h] at hx
    rw [hx]
    rfl
  | none =>
    rw [h] at hx
    obtain ⟨a, rfl⟩ := hx
    exact hf a

/-- What comes last may look nothing up. -/
theorem Performs.bind_nil {x : Except CircuitError α} {f : α → Except CircuitError β}
    (hx : c.Performs ls x) (hf : ∀ a, c.Performs [] (f a)) : c.Performs ls (x >>= f) := by
  have h := hx.bind hf
  rwa [List.append_nil] at h

theorem performs_mapM {f : α → Except CircuitError β} {look : α → List LookUp} {as : List α}
    (h : ∀ a ∈ as, c.Performs (look a) (f a)) : c.Performs (as.flatMap look) (as.mapM f) := by
  induction as with
  | nil => exact performs_pure []
  | cons a as ih =>
    obtain ⟨ha, has⟩ := List.forall_mem_cons.1 h
    rw [List.mapM_cons, List.flatMap_cons]
    exact ha.bind fun b => (ih has).bind_nil fun bs => performs_pure (b :: bs)

theorem performs_nameOf (v : Value) : c.Performs [.name v] (c.nameOf namePrefix v) := by
  rw [Performs, nameOf]
  by_cases hv : v ∈ c.definitions
  · obtain ⟨n, hn⟩ := Option.ne_none_iff_exists'.1 (lastIndex?_eq_none_iff.not.2 (not_not.2 hv))
    simp [LookUp.Fails, hv, hn]
  · simp [LookUp.Fails, LookUp.value, hv, lastIndex?_eq_none_iff.2 hv]

theorem performs_typeOf (v : Value) : c.Performs [.type v] (c.typeOf v) := by
  rw [Performs]
  by_cases hv : c.Knows v
  · obtain ⟨t, ht⟩ := knows_iff_hasType.1 hv
    simp [LookUp.Fails, hv, typeOf_eq_ok_iff.2 ht]
  · simp [LookUp.Fails, LookUp.value, hv, typeOf_eq_error_iff.2 ⟨hv, rfl⟩]

/-! ## The printer -/

theorem performs_namesOf (vs : List Value) :
    c.Performs (vs.map .name) (c.namesOf namePrefix vs) := by
  rw [List.map_eq_flatMap]
  exact performs_mapM fun v _ => performs_nameOf v

theorem performs_operandsOf (vs : List Value) :
    c.Performs (vs.map .type ++ vs.map .name) (c.operandsOf namePrefix vs) := by
  have htypes : c.Performs (vs.map .type) (c.typesOf vs) := by
    rw [List.map_eq_flatMap]
    exact performs_mapM fun v _ => performs_typeOf v
  exact htypes.bind fun ts => (performs_namesOf vs).bind_nil fun ns => performs_pure (ns, ts)

theorem performs_bodyOf (i : Instruction) : c.Performs i.lookUps (c.bodyOf namePrefix i) := by
  have hname (v : Value) : c.Performs [.name v] (c.nameOf namePrefix v) := performs_nameOf v
  have hoperands (vs : List Value) :
      c.Performs (vs.map .type ++ vs.map .name) (c.operandsOf namePrefix vs) :=
    performs_operandsOf vs
  cases i with
  | constant g out => exact performs_pure _
  | quaternion real i j k out =>
    exact (performs_typeOf real).bind fun _ => (hname real).bind fun _ => (hname i).bind fun _ =>
      (hname j).bind fun _ => (hname k).bind_nil fun _ => performs_pure _
  | compose lhs rhs out =>
    exact (hname lhs).bind fun _ => (hname rhs).bind fun _ => (performs_typeOf out).bind_nil fun _ =>
      performs_pure _
  | xzs x z phase out =>
    exact (hname x).bind fun _ => (hname z).bind fun _ => (hname phase).bind_nil fun _ =>
      performs_pure _
  | qrefGate a ins => exact (hoperands ins).bind_nil fun _ => performs_pure _
  | qrefDynGate ins gate =>
    exact (hname gate).bind fun _ => (hoperands ins).bind_nil fun _ => performs_pure _
  | qrefMeasure qubit out => exact (hname qubit).bind_nil fun _ => performs_pure _
  | qssaGate a ins outs => exact (hoperands ins).bind_nil fun _ => performs_pure _
  | qssaMeasure qubit out outQubit => exact (hname qubit).bind_nil fun _ => performs_pure _

theorem performs_statementOf (i : Instruction) (line : Nat) :
    c.Performs (i.lookUps ++ i.results.map .name) (c.statementOf namePrefix i line) :=
  (performs_bodyOf i).bind fun _ => (performs_namesOf i.results).bind_nil fun _ => performs_pure _

theorem performs_argumentOf (v : Value) :
    c.Performs [.name v, .type v] (c.argumentOf namePrefix v) :=
  (performs_nameOf v).bind fun _ => (performs_typeOf v).bind_nil fun _ => performs_pure _

/-- What is looked up to print a circuit, in order. -/
def lookUps (c : Circuit) : List LookUp :=
  c.arguments.toList.flatMap (fun v => [.name v, .type v]) ++
    c.instructions.toList.flatMap fun i => i.lookUps ++ i.results.map .name

theorem performs_toProgram : c.Performs c.lookUps (c.toProgram namePrefix) := by
  have hlooks : (c.instructions.toList.flatMap fun i => i.lookUps ++ i.results.map .name) =
      (c.instructions.toList.zipIdx 2).flatMap fun p => p.1.lookUps ++ p.1.results.map .name := by
    conv_lhs => rw [← List.zipIdx_map_fst 2 c.instructions.toList, List.flatMap_map]
  have hstatements : c.Performs
      (c.instructions.toList.flatMap fun i => i.lookUps ++ i.results.map .name)
      ((c.instructions.toList.zipIdx 2).mapM fun p => c.statementOf namePrefix p.1 p.2) := by
    rw [hlooks]
    exact performs_mapM fun p _ => performs_statementOf p.1 p.2
  exact (performs_mapM fun v _ => performs_argumentOf v).bind fun _ =>
    hstatements.bind_nil fun _ => performs_pure _

theorem name_mem_lookUps {v : Value} :
    .name v ∈ c.lookUps ↔ v ∈ c.definitions ∨ ∃ i ∈ c.instructions, v ∈ i.operands := by
  rw [definitions, List.mem_append, or_right_comm, or_assoc]
  simp [lookUps, Instruction.name_mem_lookUps, and_or_left, exists_or]

theorem type_mem_lookUps {v : Value} :
    .type v ∈ c.lookUps ↔ v ∈ c.arguments ∨ ∃ i ∈ c.instructions, v ∈ i.annotated := by
  simp [lookUps, Instruction.type_mem_lookUps]

/-! ## Dangling handles -/

/-- The handle stands where the printer needs its definition or its table entry, which is not
there. -/
inductive Dangles (c : Circuit) : Value → Prop
  /-- Arguments are written with their types. -/
  | argument {v : Value} : v ∈ c.arguments → ¬ c.Knows v → Dangles c v
  /-- Operands are arguments or results, of earlier or of later instructions. -/
  | operand {i : Instruction} {v : Value} :
      i ∈ c.instructions → v ∈ i.operands → v ∉ c.definitions → Dangles c v
  | annotated {i : Instruction} {v : Value} :
      i ∈ c.instructions → v ∈ i.annotated → ¬ c.Knows v → Dangles c v

/-- Handles dangle where look-ups fail; arguments and results have names. -/
theorem dangles_iff {v : Value} :
    c.Dangles v ↔ ∃ l ∈ c.lookUps, l.Fails c ∧ l.value = v := by
  constructor
  · intro h
    cases h with
    | argument hv hunknown =>
      exact ⟨.type v, type_mem_lookUps.2 (.inl hv), hunknown, rfl⟩
    | operand hi hv hundefined =>
      exact ⟨.name v, name_mem_lookUps.2 (.inr ⟨_, hi, hv⟩), hundefined, rfl⟩
    | annotated hi hv hunknown =>
      exact ⟨.type v, type_mem_lookUps.2 (.inr ⟨_, hi, hv⟩), hunknown, rfl⟩
  · intro h
    obtain ⟨l, hl, hfails, rfl⟩ := h
    cases l with
    | name v =>
      obtain ⟨i, hi, hv⟩ := (name_mem_lookUps.1 hl).resolve_left hfails
      exact .operand hi hv hfails
    | type v =>
      rcases type_mem_lookUps.1 hl with hv | ⟨i, hi, hv⟩
      · exact .argument hv hfails
      · exact .annotated hi hv hfails

/-- **A circuit has a text unless a handle dangles**, however it is printed. Only an indentation that
is too long for a string is left out. -/
theorem text_fails_on_dangling (c : Circuit) :
    (∀ config, config.indent < 2 ^ 63 →
        ((∃ text, c.text config = .ok text) ↔ ∀ v, ¬ c.Dangles v)) ∧
      ((∃ v, c.Dangles v) → ∃ v, c.Dangles v ∧ ∀ config, config.indent < 2 ^ 63 →
        c.text config = .error (.inCircuit (.unknownValue v))) := by
  have hprogram (config : PrintConfig) : c.Performs c.lookUps (c.toProgram config.valuePrefix) :=
    performs_toProgram
  simp only [Performs] at hprogram
  simp only [dangles_iff]
  cases hfirst : c.lookUps.find? (LookUp.Fails c ·) with
  | none =>
    rw [hfirst] at hprogram
    simp only [List.find?_eq_none, decide_eq_true_eq] at hfirst
    have hnone (v : Value) : ¬ ∃ l ∈ c.lookUps, l.Fails c ∧ l.value = v := by
      rintro ⟨l, hl, hfails, -⟩
      exact hfirst l hl hfails
    refine ⟨fun config _ => iff_of_true ?_ hnone, fun ⟨v, hv⟩ => absurd hv (hnone v)⟩
    obtain ⟨p, hp⟩ := hprogram config
    exact ⟨p.text config.indent, by rw [text, hp]⟩
  | some l =>
    rw [hfirst] at hprogram
    have hdangles : ∃ k ∈ c.lookUps, k.Fails c ∧ k.value = l.value :=
      ⟨l, List.mem_of_find?_eq_some hfirst, by simpa using List.find?_some hfirst, rfl⟩
    have herror (config : PrintConfig) :
        c.text config = .error (.inCircuit (.unknownValue l.value)) := by
      rw [text, hprogram config]
    refine ⟨fun config _ => iff_of_false ?_ fun h => h l.value hdangles,
      fun _ => ⟨l.value, hdangles, fun config _ => herror config⟩⟩
    rintro ⟨text, htext⟩
    rw [herror config] at htext
    nomatch htext

/-- A measurement of a qubit that is in the table, and that nothing defines. -/
def strayQubit : Circuit where
  arguments := #[]
  table := #[⟨.qubit, .argument 0⟩, ⟨.bool, .result 0 0⟩]
  instructions := #[.qrefMeasure (.ofIndex 0) (.ofIndex 1)]

theorem text_fails_on_dangling_strayQubit :
    strayQubit.Dangles (.ofIndex 0) ∧ 2 < 2 ^ 63 ∧ 8 < 2 ^ 63 ∧
      (¬ ∃ text, strayQubit.text ⟨8, "q"⟩ = .ok text) ∧
      ∃ v, strayQubit.Dangles v ∧ strayQubit.text {} = .error (.inCircuit (.unknownValue v)) ∧
        strayQubit.text ⟨8, "q"⟩ = .error (.inCircuit (.unknownValue v)) := by
  have hdangles : strayQubit.Dangles (.ofIndex 0) :=
    .operand (Array.mem_singleton.2 rfl) (List.mem_singleton.2 rfl) (by decide)
  obtain ⟨hiff, herror⟩ := text_fails_on_dangling strayQubit
  obtain ⟨v, hv, hsame⟩ := herror ⟨_, hdangles⟩
  refine ⟨hdangles, by decide, by decide, fun htext => ?_, v, hv, hsame {} (by decide),
    hsame ⟨8, "q"⟩ (by decide)⟩
  exact (hiff ⟨8, "q"⟩ (by decide)).1 htext _ hdangles

end Circuit

end GateIR

import GateIR.Proofs.Instruction.Typing
import GateIR.Proofs.Typing.Failure

/-!
# Applying a gate

A gate is applied to qubit references as an attribute or as a gate value, and to qubit values as an
attribute. The three rules differ in where the number of qubits comes from and in what becomes of
the results; what they ask of the operands is the same.

**Theorem (`applications_checked_alike`).** The three forms give the same answer for the same gate,
the same handles and the same operand types, whatever these are. `ApplicationFault` says which of
several faults is reported: the first operand that is no qubit, then the number of operands, then
the first qubit that is named twice.
-/

namespace GateIR.Instruction

variable {n : UInt32} {ins outs : List Value} {ts : List Ty} {e : Violation}

/-! ## The fault that is reported -/

/-- What is reported of a gate on `n` qubits that is applied to values of the given types. -/
inductive ApplicationFault (n : UInt32) (ins : List Value) : List Ty → Violation → Prop
  /-- The first operand that is no qubit. -/
  | notAQubit {before after : List Ty} {t : Ty} :
      (∀ u ∈ before, u = .qubit) → t ≠ .qubit →
      ApplicationFault n ins (before ++ t :: after) (.typeMismatch .qubit t)
  /-- Another number of qubits. -/
  | arity {ts : List Ty} :
      (∀ t ∈ ts, t = .qubit) → ts.length ≠ n.toNat →
      ApplicationFault n ins ts (.operandArity n.toNat ts.length)
  /-- The right number of qubits, one of which is named twice. -/
  | repeated {v : Value} :
      firstRepeated? [] ins = some v →
      ApplicationFault n ins (List.replicate n.toNat .qubit) (.repeatedQubit v)

theorem mem_of_firstRepeated? {seen : List Value} {v : Value}
    (h : firstRepeated? seen ins = some v) : v ∈ ins := by
  induction ins generalizing seen with
  | nil => cases h
  | cons w rest ih =>
    rw [firstRepeated?] at h
    split at h
    · cases h
      exact List.mem_cons_self
    · exact List.mem_cons_of_mem _ (ih h)

theorem fails_checkDistinct {c : Context} :
    Fails (checkDistinct ins) c e ↔ ∃ v, firstRepeated? [] ins = some v ∧ e = .repeatedQubit v := by
  unfold checkDistinct
  cases firstRepeated? [] ins <;> simp [not_fails_pure, fails_throw]

/-- A list of qubits clashes with a number of qubits by its length only. -/
theorem clashes_qubits_iff (h : ∀ t ∈ ts, t = .qubit) :
    Binding.Clashes "Q" (.inr (List.replicate n.toNat .qubit)) (.inr ts) e ↔
      ts.length ≠ n.toNat ∧ e = .operandArity n.toNat ts.length := by
  constructor
  · intro hclash
    have hne : ts.length ≠ n.toNat := fun hlength =>
      hclash.ne (congrArg Sum.inr (List.eq_replicate_iff.2 ⟨hlength, h⟩).symm)
    refine ⟨hne, ?_⟩
    rw [← hclash.conflict_eq_of_lists]
    simp [Binding.conflict, Binding.length?, hne.symm]
  · intro hfault
    rcases hfault with ⟨hne, rfl⟩
    have hlengths : (List.replicate n.toNat Ty.qubit).length ≠ ts.length := by simpa using hne.symm
    have hclash : Binding.Clashes "Q" _ _ _ := .lengths hlengths
    rwa [List.length_replicate] at hclash

theorem fails_qubits_next :
    Fails (gateQubits.check ts) (.single "Q" (.qubits n)) e ↔
      (∃ before t after, ts = before ++ t :: after ∧ (∀ u ∈ before, u = .qubit) ∧ t ≠ .qubit ∧
        e = .typeMismatch .qubit t) ∨
      (∀ t ∈ ts, t = .qubit) ∧ ts.length ≠ n.toNat ∧ e = .operandArity n.toNat ts.length := by
  have helement : gateQubits.element = .exact .qubit := rfl
  have hname : gateQubits.name = "Q" := rfl
  simp only [RangeConstraint.fails_iff, helement, hname, fails_bind_single,
    Family.accepts_exact_iff, ← Bool.not_eq_true, Family.violation]
  exact or_congr_right (and_congr_right fun h => clashes_qubits_iff h)

/-- The operands, and then the handles. -/
theorem fails_application :
    Fails (gateQubits.check ts >>= fun _ => checkDistinct ins) (.single "Q" (.qubits n)) e ↔
      ApplicationFault n ins ts e := by
  simp only [fails_bind, fails_qubits_next, passes_qubits_next, fails_checkDistinct]
  constructor
  · intro h
    rcases h with (⟨before, t, after, rfl, hbefore, ht, rfl⟩ | ⟨hts, hlength, rfl⟩) |
      ⟨_, ⟨rfl, -⟩, v, hv, rfl⟩
    · exact .notAQubit hbefore ht
    · exact .arity hts hlength
    · exact .repeated hv
  · intro h
    cases h with
    | notAQubit hbefore ht => exact .inl (.inl ⟨_, _, _, rfl, hbefore, ht, rfl⟩)
    | arity hts hlength => exact .inl (.inr ⟨hts, hlength, rfl⟩)
    | repeated hv => exact .inr ⟨_, ⟨rfl, rfl⟩, _, hv, rfl⟩

/-! ## The three forms -/

theorem check_qrefGate_eq_error_iff {g : Gate} :
    (qrefGate (.gate g) ins).check ts [] = .error e ↔ ApplicationFault g.arity ins ts e := by
  rw [← fails_application]
  exact fails_bind_of_passes (passes_gate_first.2 ⟨g, rfl, rfl⟩)

theorem check_qrefDynGate_eq_error_iff {gate : Value} :
    (qrefDynGate ins gate).check (ts ++ [.gate n]) [] = .error e ↔
      ApplicationFault n ins ts e := by
  have hrule : (qrefDynGate ins gate).rule (ts ++ [.gate n]) [] =
      ((TyConstraint.gateQubits gateQubits.name).check (.gate n) >>= fun _ =>
        gateQubits.check ts >>= fun _ => checkDistinct ins) := by
    simp [rule]
  have hcheck : (qrefDynGate ins gate).check (ts ++ [.gate n]) [] = .error e ↔
      Fails ((qrefDynGate ins gate).rule (ts ++ [.gate n]) []) {} e := Iff.rfl
  rw [hcheck, hrule, ← fails_application]
  exact fails_bind_of_passes (passes_gateType_first.2 ⟨n, rfl, rfl⟩)

/-- One qubit for each operand is what the gate asks for, once the operands have passed. -/
theorem passes_results_next {d : Context}
    (h : Passes (gateQubits.check ts) (.single "Q" (.qubits n)) d) :
    Passes ((gateQubits.check (List.replicate ts.length .qubit)).adapt Violation.ofResults) d d := by
  obtain ⟨rfl, rfl⟩ := passes_qubits_next.1 h
  rw [passes_adapt, List.length_replicate]
  exact passes_qubits_next.2 ⟨rfl, rfl⟩

theorem check_qssaGate_eq_error_iff {g : Gate} :
    (qssaGate (.gate g) ins outs).check ts (List.replicate ts.length .qubit) = .error e ↔
      ApplicationFault g.arity ins ts e := by
  have hcheck : (qssaGate (.gate g) ins outs).check ts (List.replicate ts.length .qubit) =
      .error e ↔ Fails (gateQubits.check ts >>= fun _ =>
        (gateQubits.check (List.replicate ts.length .qubit)).adapt Violation.ofResults >>= fun _ =>
          checkDistinct ins) (.single "Q" (.qubits g.arity)) e :=
    fails_bind_of_passes (passes_gate_first.2 ⟨g, rfl, rfl⟩)
  rw [hcheck, ← fails_application, fails_bind, fails_bind]
  -- The results are only reached after the operands, and then there are as many of them.
  refine or_congr_right (exists_congr fun d => and_congr_right fun h => ?_)
  exact fails_bind_of_passes (passes_results_next h)

/-- An attribute that is no gate is reported before anything else. -/
theorem fails_notAGate {a : Attribute} {f : Unit → Check Unit} (h : a.gate? = none) :
    Fails ((GateConstraint.qubits gateQubits.name).check a >>= f) {} (.notAGate a) :=
  fails_bind.2 (.inl (GateConstraint.fails_iff.2 (.inl ⟨h, rfl⟩)))

theorem check_qrefGate_eq_notAGate {a : Attribute} (h : a.gate? = none) :
    (qrefGate a ins).check ts [] = .error (.notAGate a) := fails_notAGate h

theorem check_qssaGate_eq_notAGate {a : Attribute} (h : a.gate? = none) (rs : List Ty) :
    (qssaGate a ins outs).check ts rs = .error (.notAGate a) := fails_notAGate h

/-- A value in gate position that has no gate type is reported before anything else. -/
theorem check_qrefDynGate_eq_notAGateType {gate : Value} {t : Ty} (h : t.arity? = none) :
    (qrefDynGate ins gate).check (ts ++ [t]) [] = .error (.notAGateType t) := by
  have hfails : Fails ((qrefDynGate ins gate).rule (ts ++ [t]) []) {} (.notAGateType t) := by
    simp only [rule, List.getLast?_concat]
    exact fails_bind.2 (.inl (TyConstraint.fails_gateQubits.2 (.inl ⟨h, rfl⟩)))
  exact hfails

theorem not_applicationFault_notAGate {a : Attribute} :
    ¬ ApplicationFault n ins ts (.notAGate a) := nofun

/-- **The three ways to apply a gate are checked alike**: they accept the same operands, and report
the same fault of the others. Attributes that are no gates are reported as such. -/
theorem applications_checked_alike (ins outs : List Value) (gate : Value) (ts : List Ty) :
    (∀ g : Gate, (qrefDynGate ins gate).check (ts ++ [g.ty]) [] =
        (qrefGate (.gate g) ins).check ts []) ∧
      (∀ a : Attribute, (qssaGate a ins outs).check ts (List.replicate ts.length .qubit) =
        (qrefGate a ins).check ts []) ∧
      (∀ (g : Gate) (e : Violation), (qrefGate (.gate g) ins).check ts [] = .error e ↔
        ApplicationFault g.arity ins ts e) ∧
      ∀ a : Attribute, (qrefGate a ins).check ts [] = .error (.notAGate a) ↔ a.gate? = none := by
  refine ⟨fun g => eq_of_error_iff fun e => ?_, fun a => ?_, fun g e => ?_, fun a => ?_⟩
  · rw [check_qrefGate_eq_error_iff]
    exact check_qrefDynGate_eq_error_iff
  · by_cases h : a.gate? = none
    · rw [check_qrefGate_eq_notAGate h, check_qssaGate_eq_notAGate h]
    · cases a with
      | gate g =>
        refine eq_of_error_iff fun e => ?_
        rw [check_qrefGate_eq_error_iff, check_qssaGate_eq_error_iff]
      | _ => exact absurd rfl h
  · exact check_qrefGate_eq_error_iff
  · refine ⟨fun h => ?_, check_qrefGate_eq_notAGate⟩
    cases a with
    | gate g => exact absurd (check_qrefGate_eq_error_iff.1 h) not_applicationFault_notAGate
    | _ => rfl

/-- Of a wrong type, a wrong number and a repeated qubit, the type is reported. -/
example : (qrefGate (.gate .toffoli) [.ofIndex 0, .ofIndex 0]).check [.qubit, .bool] [] =
    .error (.typeMismatch .qubit .bool) := rfl

end GateIR.Instruction

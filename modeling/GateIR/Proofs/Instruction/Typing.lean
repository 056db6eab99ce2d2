import GateIR.Instruction.Typing
import GateIR.Proofs.Typing.Constraint

/-!
# Which types each instruction accepts

For each instruction, `check_…_iff` says which lists of operand and result types it accepts. The
lists are arbitrary: a list of the wrong length is among those turned down.
-/

namespace GateIR

namespace Instruction

/-- An instruction is accepted when its rule passes from an empty context. -/
theorem check_eq_ok_iff_passes {i : Instruction} {ts rs : List Ty} :
    i.check ts rs = .ok () ↔ ∃ d, Passes (i.rule ts rs) {} d := by
  have h : i.check ts rs = (outcome (i.rule ts rs) {}).1 := rfl
  rw [h]
  unfold Passes
  rcases outcome (i.rule ts rs) {} with ⟨r, d⟩
  simp

/-! ## Handles named twice -/

theorem firstRepeated?_eq_none_iff {qubits : List Value} (seen : List Value) :
    firstRepeated? seen qubits = none ↔ qubits.Nodup ∧ ∀ v ∈ qubits, v ∉ seen := by
  induction qubits generalizing seen with
  | nil => simp [firstRepeated?]
  | cons v rest ih =>
    by_cases hv : v ∈ seen
    · simp [firstRepeated?, hv]
    · simp only [firstRepeated?, hv, if_false, ih, List.nodup_cons, List.mem_cons, not_or,
        forall_eq_or_imp, not_false_eq_true, true_and]
      constructor
      · intro h
        rcases h with ⟨hn, h⟩
        exact ⟨⟨fun hm => (h v hm).1 rfl, hn⟩, fun w hw => (h w hw).2⟩
      · intro h
        rcases h with ⟨⟨hm, hn⟩, h⟩
        exact ⟨hn, fun w hw => ⟨fun he => hm (he ▸ hw), h w hw⟩⟩

theorem passes_checkDistinct {qubits : List Value} {c d : Context} :
    Passes (checkDistinct qubits) c d ↔ qubits.Nodup ∧ d = c := by
  have h := @firstRepeated?_eq_none_iff qubits []
  simp only [List.not_mem_nil, not_false_eq_true, implies_true, and_true] at h
  rw [← h]
  unfold checkDistinct
  cases firstRepeated? [] qubits <;> simp [passes_pure, not_passes_throw]

/-! ## The variable of gate and scalar types -/

theorem passes_shared_first {f : Family} {t : Ty} {d : Context} :
    Passes ((TyConstraint.var "T" f).check t) {} d ↔
      f.accepts t = true ∧ d = .single "T" (.type t) := by
  rw [TyConstraint.passes_var, passes_bind_empty]

theorem passes_shared_next {f : Family} {t u : Ty} {d : Context} :
    Passes ((TyConstraint.var "T" f).check u) (.single "T" (.type t)) d ↔
      f.accepts u = true ∧ t = u ∧ d = .single "T" (.type t) := by
  rw [TyConstraint.passes_var, passes_bind_single, Binding.agrees_type_iff]

/-! ## The variable of qubit lists -/

/-- A qubit list is accepted when it has the length that the gate asks for. -/
theorem passes_qubits_next {n : UInt32} {ts : List Ty} {d : Context} :
    Passes (gateQubits.check ts) (.single "Q" (.qubits n)) d ↔
      ts = List.replicate n.toNat .qubit ∧ d = .single "Q" (.qubits n) := by
  rw [RangeConstraint.passes_iff]
  simp only [gateQubits, RangeConstraint.qubits, passes_bind_single,
    Binding.agrees_qubits_range_iff, Family.accepts_exact_iff]
  constructor
  · exact fun h => h.2
  · intro h
    rcases h with ⟨rfl, hd⟩
    exact ⟨fun t ht => List.eq_of_mem_replicate ht, rfl, hd⟩

theorem passes_gate_first {a : Attribute} {d : Context} :
    Passes ((GateConstraint.qubits gateQubits.name).check a) {} d ↔
      ∃ g, a = .gate g ∧ d = .single "Q" (.qubits g.arity) := by
  rw [GateConstraint.passes_iff]
  simp [GateConstraint.qubits, gateQubits, RangeConstraint.qubits, TyConstraint.passes_gateQubits,
    passes_bind_empty, Gate.ty]

theorem passes_gateType_first {t : Ty} {d : Context} :
    Passes ((TyConstraint.gateQubits gateQubits.name).check t) {} d ↔
      ∃ n, t = .gate n ∧ d = .single "Q" (.qubits n) := by
  simp [TyConstraint.passes_gateQubits, passes_bind_empty, gateQubits, RangeConstraint.qubits]

/-! ## The rules -/

theorem check_constant_iff {g : Gate} {out : Value} {ts rs : List Ty} :
    (constant g out).check ts rs = .ok () ↔ ts = [] ∧ rs = [.gate g.arity] := by
  rw [check_eq_ok_iff_passes]
  unfold rule
  dsimp only
  split
  · simp only [passes_bind, GateConstraint.passes_iff, sameGateType, Attribute.gate.injEq,
      exists_eq_left', passes_shared_first, Gate.ty, Family.accepts_gate_iff]
    constructor
    · intro h
      rcases h with ⟨d, -, ⟨-, rfl⟩, h⟩
      rw [passes_shared_next] at h
      simp [h.2.1]
    · intro h
      rcases h with ⟨-, h⟩
      obtain rfl := List.singleton_inj.1 h
      exact ⟨_, _, ⟨⟨_, rfl⟩, rfl⟩, passes_shared_next.2 ⟨rfl, rfl, rfl⟩⟩
  · simp_all [not_passes_throw]
  · simp_all [not_passes_throw]

theorem check_quaternion_iff {real i j k out : Value} {ts rs : List Ty} :
    (quaternion real i j k out).check ts rs = .ok () ↔
      ∃ t, ((∃ w, t = .int w) ∨ ∃ w, t = .float w) ∧ ts = [t, t, t, t] ∧ rs = [.gate 1] := by
  rw [check_eq_ok_iff_passes]
  unfold rule
  dsimp only
  split
  · next t t₁ t₂ t₃ out =>
    simp only [← Family.accepts_scalar_iff, List.forM_eq_forM, List.forM_cons, List.forM_nil,
      passes_bind, passes_pure, passes_lift, sameScalarType, passes_shared_first,
      Family.check_eq_ok_iff, Family.accepts_exact_iff]
    constructor
    · intro h
      rcases h with ⟨d, m, ⟨_, ⟨ht, rfl⟩, _, h₁, _, h₂, _, h₃, rfl⟩, rfl, rfl⟩
      obtain ⟨-, rfl, rfl⟩ := passes_shared_next.1 h₁
      obtain ⟨-, rfl, rfl⟩ := passes_shared_next.1 h₂
      obtain ⟨-, rfl, -⟩ := passes_shared_next.1 h₃
      exact ⟨t, ht, rfl, rfl⟩
    · intro h
      rcases h with ⟨u, hu, hts, hrs⟩
      obtain ⟨rfl, rfl, rfl, rfl⟩ : u = t ∧ u = t₁ ∧ u = t₂ ∧ u = t₃ := by simpa [eq_comm] using hts
      obtain rfl := List.singleton_inj.1 hrs
      have hn := (passes_shared_next (d := .single "T" (.type u))).2 ⟨hu, rfl, rfl⟩
      exact ⟨_, _, ⟨_, ⟨hu, rfl⟩, _, hn, _, hn, _, hn, rfl⟩, rfl, rfl⟩
  · simp_all [not_passes_throw]
  · simp_all [not_passes_throw]

theorem check_compose_iff {lhs rhs out : Value} {ts rs : List Ty} :
    (compose lhs rhs out).check ts rs = .ok () ↔
      ∃ n, ts = [.gate n, .gate n] ∧ rs = [.gate n] := by
  rw [check_eq_ok_iff_passes]
  unfold rule
  dsimp only
  split
  · next l r out =>
    simp only [passes_bind, sameGateType, passes_shared_first]
    constructor
    · intro h
      rcases h with ⟨d, -, ⟨hl, rfl⟩, m, hr, ho⟩
      obtain ⟨-, rfl, rfl⟩ := passes_shared_next.1 hr
      obtain ⟨-, rfl, -⟩ := passes_shared_next.1 ho
      obtain ⟨n, rfl⟩ := Family.accepts_gate_iff.1 hl
      exact ⟨n, rfl, rfl⟩
    · intro h
      rcases h with ⟨n, hts, hrs⟩
      obtain ⟨rfl, rfl⟩ : l = .gate n ∧ r = .gate n := by simpa using hts
      obtain rfl := List.singleton_inj.1 hrs
      have ha : Family.gate.accepts (.gate n) = true := rfl
      have hn := (passes_shared_next (d := .single "T" (.type (.gate n)))).2 ⟨ha, rfl, rfl⟩
      exact ⟨_, _, ⟨ha, rfl⟩, _, hn, hn⟩
  · simp_all [not_passes_throw]
  · simp_all [not_passes_throw]

theorem check_xzs_iff {x z phase out : Value} {ts rs : List Ty} :
    (xzs x z phase out).check ts rs = .ok () ↔
      ts = [.bool, .bool, .bool] ∧ rs = [.gate 1] := by
  rw [check_eq_ok_iff_passes]
  unfold rule
  dsimp only
  split
  · simp [passes_bind, passes_lift, Family.check_eq_ok_iff, Family.accepts_exact_iff, and_assoc]
  · simp_all [not_passes_throw]
  · simp_all [not_passes_throw]

theorem check_qrefGate_iff {a : Attribute} {ins : List Value} {ts rs : List Ty} :
    (qrefGate a ins).check ts rs = .ok () ↔
      (∃ g, a = .gate g ∧ ts = List.replicate g.arity.toNat .qubit) ∧ rs = [] ∧ ins.Nodup := by
  rw [check_eq_ok_iff_passes]
  unfold rule
  dsimp only
  split
  · simp only [passes_bind, passes_gate_first, passes_checkDistinct]
    constructor
    · intro h
      rcases h with ⟨d, -, ⟨g, rfl, rfl⟩, m, h, hd, -⟩
      exact ⟨⟨g, rfl, (passes_qubits_next.1 h).1⟩, trivial, hd⟩
    · intro h
      rcases h with ⟨⟨g, rfl, rfl⟩, -, hd⟩
      exact ⟨_, _, ⟨g, rfl, rfl⟩, _, passes_qubits_next.2 ⟨rfl, rfl⟩, hd, rfl⟩
  · simp_all [not_passes_throw]

theorem check_qrefDynGate_iff {ins : List Value} {gate : Value} {ts rs : List Ty} :
    (qrefDynGate ins gate).check ts rs = .ok () ↔
      (∃ n, ts = List.replicate n.toNat .qubit ++ [.gate n]) ∧ rs = [] ∧ ins.Nodup := by
  rw [check_eq_ok_iff_passes]
  unfold rule
  dsimp only
  cases rs with
  | cons r rs => simp [not_passes_throw]
  | nil =>
    cases ht : ts.getLast? with
    | none => simp [not_passes_throw, List.getLast?_eq_none_iff.1 ht]
    | some t =>
      obtain ⟨us, rfl⟩ := List.getLast?_eq_some_iff.1 ht
      simp only [passes_bind, passes_gateType_first, passes_checkDistinct, List.dropLast_concat]
      constructor
      · intro h
        rcases h with ⟨d, -, ⟨n, rfl, rfl⟩, m, h, hd, -⟩
        exact ⟨⟨n, by rw [(passes_qubits_next.1 h).1]⟩, trivial, hd⟩
      · intro h
        rcases h with ⟨⟨n, hts⟩, -, hd⟩
        obtain ⟨rfl, hn⟩ := List.append_inj' hts rfl
        obtain rfl := List.singleton_inj.1 hn
        exact ⟨_, _, ⟨n, rfl, rfl⟩, _, passes_qubits_next.2 ⟨rfl, rfl⟩, hd, rfl⟩

theorem check_qrefMeasure_iff {qubit out : Value} {ts rs : List Ty} :
    (qrefMeasure qubit out).check ts rs = .ok () ↔ ts = [.qubit] ∧ rs = [.bool] := by
  rw [check_eq_ok_iff_passes]
  unfold rule
  dsimp only
  split
  · simp [passes_bind, passes_lift, Family.check_eq_ok_iff, Family.accepts_exact_iff]
  · simp_all [not_passes_throw]
  · simp_all [not_passes_throw]

theorem check_qssaGate_iff {a : Attribute} {ins outs : List Value} {ts rs : List Ty} :
    (qssaGate a ins outs).check ts rs = .ok () ↔
      (∃ g, a = .gate g ∧ ts = List.replicate g.arity.toNat .qubit ∧
        rs = List.replicate g.arity.toNat .qubit) ∧ ins.Nodup := by
  rw [check_eq_ok_iff_passes]
  simp only [rule, passes_bind, passes_gate_first, passes_adapt, passes_checkDistinct]
  constructor
  · intro h
    rcases h with ⟨d, -, ⟨g, rfl, rfl⟩, m, hi, m', ho, hd, -⟩
    obtain ⟨rfl, rfl⟩ := passes_qubits_next.1 hi
    exact ⟨⟨g, rfl, rfl, (passes_qubits_next.1 ho).1⟩, hd⟩
  · intro h
    rcases h with ⟨⟨g, rfl, rfl, rfl⟩, hd⟩
    have hq := passes_qubits_next (d := .single "Q" (.qubits g.arity)).2 ⟨rfl, rfl⟩
    exact ⟨_, _, ⟨g, rfl, rfl⟩, _, hq, _, hq, hd, rfl⟩

theorem check_qssaMeasure_iff {qubit out outQubit : Value} {ts rs : List Ty} :
    (qssaMeasure qubit out outQubit).check ts rs = .ok () ↔
      ts = [.qubit] ∧ rs = [.bool, .qubit] := by
  rw [check_eq_ok_iff_passes]
  unfold rule
  dsimp only
  split
  · simp [passes_bind, passes_lift, Family.check_eq_ok_iff, Family.accepts_exact_iff]
  · simp_all [not_passes_throw]
  · simp_all [not_passes_throw]

end Instruction

end GateIR

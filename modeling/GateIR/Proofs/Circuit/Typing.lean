import GateIR.Circuit.Typing
import GateIR.Proofs.Circuit.Table
import GateIR.Proofs.Instruction.Typing

/-!
# The typing check decides the typing rules

**The rules.** `Circuit.Obeys` states the rule of each instruction in terms of its handles and the
value table alone: no variables, no contexts and no order of checking.

**Theorem (`check_decides_rules`).** The check accepts a circuit exactly when every handle of every
instruction is in the value table and every instruction obeys its rule. Otherwise it reports the
first instruction of which this fails: the first of its handles that is not in the table, or its
position, its name and the violation that its types give.

Nothing is assumed of the circuit; its table may contradict its instructions.
-/

namespace GateIR

namespace Circuit

variable {c : Circuit}

/-! ## The rules -/

/-- The typing rules. -/
inductive Obeys (c : Circuit) : Instruction → Prop
  | constant {g : Gate} {out : Value} :
      c.HasType out (.gate g.arity) → Obeys c (.constant g out)
  | quaternion {real i j k out : Value} {t : Ty} :
      ((∃ w, t = .int w) ∨ ∃ w, t = .float w) →
      c.HasType real t → c.HasType i t → c.HasType j t → c.HasType k t →
      c.HasType out (.gate 1) → Obeys c (.quaternion real i j k out)
  | compose {lhs rhs out : Value} {n : UInt32} :
      c.HasType lhs (.gate n) → c.HasType rhs (.gate n) → c.HasType out (.gate n) →
      Obeys c (.compose lhs rhs out)
  | xzs {x z phase out : Value} :
      c.HasType x .bool → c.HasType z .bool → c.HasType phase .bool →
      c.HasType out (.gate 1) → Obeys c (.xzs x z phase out)
  | qrefGate {g : Gate} {ins : List Value} :
      ins.length = g.arity.toNat → (∀ q ∈ ins, c.HasType q .qubit) → ins.Nodup →
      Obeys c (.qrefGate (.gate g) ins)
  | qrefDynGate {ins : List Value} {gate : Value} {n : UInt32} :
      c.HasType gate (.gate n) → ins.length = n.toNat → (∀ q ∈ ins, c.HasType q .qubit) →
      ins.Nodup → Obeys c (.qrefDynGate ins gate)
  | qrefMeasure {qubit out : Value} :
      c.HasType qubit .qubit → c.HasType out .bool → Obeys c (.qrefMeasure qubit out)
  | qssaGate {g : Gate} {ins outs : List Value} :
      ins.length = g.arity.toNat → (∀ q ∈ ins, c.HasType q .qubit) → ins.Nodup →
      outs.length = g.arity.toNat → (∀ q ∈ outs, c.HasType q .qubit) →
      Obeys c (.qssaGate (.gate g) ins outs)
  | qssaMeasure {qubit out outQubit : Value} :
      c.HasType qubit .qubit → c.HasType out .bool → c.HasType outQubit .qubit →
      Obeys c (.qssaMeasure qubit out outQubit)

/-- Every handle of the instruction is in the value table, and the instruction obeys its rule. -/
def WellTyped (c : Circuit) (i : Instruction) : Prop :=
  (∀ v ∈ i.operands ++ i.results, c.Knows v) ∧ c.Obeys i

/-! ## One instruction -/

/-- An instruction that obeys its rule passes the check at the types in the table. -/
theorem Obeys.check_eq_ok {i : Instruction} (h : c.Obeys i) :
    ∃ ts rs, List.Forall₂ c.HasType i.operands ts ∧
      List.Forall₂ c.HasType i.results rs ∧ i.check ts rs = .ok () := by
  cases h with
  | constant hout =>
    exact ⟨_, _, .nil, .cons hout .nil, Instruction.check_constant_iff.2 ⟨rfl, rfl⟩⟩
  | quaternion ht hr hi hj hk hout =>
    exact ⟨_, _, .cons hr (.cons hi (.cons hj (.cons hk .nil))), .cons hout .nil,
      Instruction.check_quaternion_iff.2 ⟨_, ht, rfl, rfl⟩⟩
  | compose hl hr hout =>
    exact ⟨_, _, .cons hl (.cons hr .nil), .cons hout .nil,
      Instruction.check_compose_iff.2 ⟨_, rfl, rfl⟩⟩
  | xzs hx hz hp hout =>
    exact ⟨_, _, .cons hx (.cons hz (.cons hp .nil)), .cons hout .nil,
      Instruction.check_xzs_iff.2 ⟨rfl, rfl⟩⟩
  | qrefGate hn hq hd =>
    exact ⟨_, _, forall₂_replicate_iff.2 ⟨hn, hq⟩, .nil,
      Instruction.check_qrefGate_iff.2 ⟨⟨_, rfl, rfl⟩, rfl, hd⟩⟩
  | qrefDynGate hg hn hq hd =>
    exact ⟨_, _, List.rel_append (forall₂_replicate_iff.2 ⟨hn, hq⟩) (.cons hg .nil), .nil,
      Instruction.check_qrefDynGate_iff.2 ⟨⟨_, rfl⟩, rfl, hd⟩⟩
  | qrefMeasure hq hout =>
    exact ⟨_, _, .cons hq .nil, .cons hout .nil,
      Instruction.check_qrefMeasure_iff.2 ⟨rfl, rfl⟩⟩
  | qssaGate hn hq hd hm ho =>
    exact ⟨_, _, forall₂_replicate_iff.2 ⟨hn, hq⟩, forall₂_replicate_iff.2 ⟨hm, ho⟩,
      Instruction.check_qssaGate_iff.2 ⟨⟨_, rfl, rfl, rfl⟩, hd⟩⟩
  | qssaMeasure hq hout hqubit =>
    exact ⟨_, _, .cons hq .nil, .cons hout (.cons hqubit .nil),
      Instruction.check_qssaMeasure_iff.2 ⟨rfl, rfl⟩⟩

theorem obeys_of_check_eq_ok {i : Instruction} {ts rs : List Ty}
    (hts : List.Forall₂ c.HasType i.operands ts) (hrs : List.Forall₂ c.HasType i.results rs)
    (h : i.check ts rs = .ok ()) : c.Obeys i := by
  cases i with
  | constant g out =>
    obtain ⟨-, rfl⟩ := Instruction.check_constant_iff.1 h
    cases hrs with | cons hout _ => exact .constant hout
  | quaternion real i j k out =>
    obtain ⟨t, ht, rfl, rfl⟩ := Instruction.check_quaternion_iff.1 h
    simp only [Instruction.operands, Instruction.results, List.forall₂_cons] at hts hrs
    exact .quaternion ht hts.1 hts.2.1 hts.2.2.1 hts.2.2.2.1 hrs.1
  | compose lhs rhs out =>
    obtain ⟨n, rfl, rfl⟩ := Instruction.check_compose_iff.1 h
    simp only [Instruction.operands, Instruction.results, List.forall₂_cons] at hts hrs
    exact .compose hts.1 hts.2.1 hrs.1
  | xzs x z phase out =>
    obtain ⟨rfl, rfl⟩ := Instruction.check_xzs_iff.1 h
    simp only [Instruction.operands, Instruction.results, List.forall₂_cons] at hts hrs
    exact .xzs hts.1 hts.2.1 hts.2.2.1 hrs.1
  | qrefGate a ins =>
    obtain ⟨⟨g, rfl, rfl⟩, -, hd⟩ := Instruction.check_qrefGate_iff.1 h
    obtain ⟨hn, hq⟩ := forall₂_replicate_iff.1 hts
    exact .qrefGate hn hq hd
  | qrefDynGate ins gate =>
    obtain ⟨⟨n, rfl⟩, -, hd⟩ := Instruction.check_qrefDynGate_iff.1 h
    obtain ⟨hq, hg⟩ := forall₂_concat_iff.1 hts
    obtain ⟨hn, hq⟩ := forall₂_replicate_iff.1 hq
    exact .qrefDynGate hg hn hq hd
  | qrefMeasure qubit out =>
    obtain ⟨rfl, rfl⟩ := Instruction.check_qrefMeasure_iff.1 h
    simp only [Instruction.operands, Instruction.results, List.forall₂_cons] at hts hrs
    exact .qrefMeasure hts.1 hrs.1
  | qssaGate a ins outs =>
    obtain ⟨⟨g, rfl, rfl, rfl⟩, hd⟩ := Instruction.check_qssaGate_iff.1 h
    obtain ⟨hn, hq⟩ := forall₂_replicate_iff.1 hts
    obtain ⟨hm, ho⟩ := forall₂_replicate_iff.1 hrs
    exact .qssaGate hn hq hd hm ho
  | qssaMeasure qubit out outQubit =>
    obtain ⟨rfl, rfl⟩ := Instruction.check_qssaMeasure_iff.1 h
    simp only [Instruction.operands, Instruction.results, List.forall₂_cons] at hts hrs
    exact .qssaMeasure hts.1 hrs.1 hrs.2.1

/-- The rules are what the check of an instruction accepts at the types in the table. -/
theorem obeys_iff {i : Instruction} :
    c.Obeys i ↔ ∃ ts rs, List.Forall₂ c.HasType i.operands ts ∧
      List.Forall₂ c.HasType i.results rs ∧ i.check ts rs = .ok () := by
  refine ⟨Obeys.check_eq_ok, fun h => ?_⟩
  obtain ⟨ts, rs, hts, hrs, hcheck⟩ := h
  exact obeys_of_check_eq_ok hts hrs hcheck

/-- An instruction that obeys its rule names known values only. -/
theorem wellTyped_iff_obeys {i : Instruction} : c.WellTyped i ↔ c.Obeys i := by
  refine ⟨And.right, fun h => ⟨fun v hv => ?_, h⟩⟩
  obtain ⟨ts, rs, hts, hrs, -⟩ := obeys_iff.1 h
  rcases List.mem_append.1 hv with hv | hv
  · exact knows_of_forall₂ hts v hv
  · exact knows_of_forall₂ hrs v hv

theorem checkInstruction_eq_ok_iff {i : Instruction} {k : Nat} :
    c.checkInstruction i k = .ok () ↔ c.WellTyped i := by
  simp only [wellTyped_iff_obeys, obeys_iff, checkInstruction, bind_eq_ok_iff, typesOf_eq_ok_iff,
    mapError_eq_ok_iff, exists_and_left]

/-- What is reported of the instruction at a position. -/
inductive Reports (c : Circuit) (k : Nat) (i : Instruction) : CircuitError → Prop
  /-- The first handle outside the value table, if there is one. -/
  | unknown {v : Value} :
      c.firstUnknown? (i.operands ++ i.results) = some v → Reports c k i (.unknownValue v)
  /-- The violation by the types in the table. -/
  | illTyped {ts rs : List Ty} {cause : Violation} :
      List.Forall₂ c.HasType i.operands ts → List.Forall₂ c.HasType i.results rs →
      i.check ts rs = .error cause → Reports c k i (.illTyped k i.name cause)

theorem checkInstruction_eq_error_iff {i : Instruction} {k : Nat} {e : CircuitError} :
    c.checkInstruction i k = .error e ↔ c.Reports k i e := by
  simp only [checkInstruction, bind_eq_error_iff, typesOf_eq_error_iff, typesOf_eq_ok_iff,
    mapError_eq_error_iff]
  constructor
  · intro h
    rcases h with ⟨v, hv, rfl⟩ | ⟨ts, hts, ⟨v, hv, rfl⟩ | ⟨rs, hrs, cause, h, rfl⟩⟩
    · exact .unknown (by rw [firstUnknown?_append, hv, Option.some_or])
    · have hn := firstUnknown?_eq_none_iff.2 (knows_of_forall₂ hts)
      exact .unknown (by rw [firstUnknown?_append, hn, hv, Option.none_or])
    · exact .illTyped hts hrs h
  · intro h
    cases h with
    | @unknown v hv =>
      rw [firstUnknown?_append] at hv
      cases ho : c.firstUnknown? i.operands with
      | some w =>
        rw [ho, Option.some_or] at hv
        exact .inl ⟨v, hv, rfl⟩
      | none =>
        rw [ho, Option.none_or] at hv
        obtain ⟨ts, hts⟩ := exists_types_of_knows (firstUnknown?_eq_none_iff.1 ho)
        exact .inr ⟨ts, hts, .inl ⟨v, hv, rfl⟩⟩
    | illTyped hts hrs hc => exact .inr ⟨_, hts, .inr ⟨_, hrs, _, hc, rfl⟩⟩

theorem Reports.not_wellTyped {i : Instruction} {k : Nat} {e : CircuitError}
    (h : c.Reports k i e) : ¬ c.WellTyped i := by
  rw [← checkInstruction_eq_error_iff] at h
  rw [← @checkInstruction_eq_ok_iff c i k, h]
  exact nofun

/-! ## Whole circuits -/

/-- A check that fails does so at one of the instructions. -/
theorem exists_checkInstruction_of_check {e : CircuitError} (h : c.check = .error e) :
    ∃ k i, c.instructions[k]? = some i ∧ c.checkInstruction i k = .error e := by
  obtain ⟨k, p, hp, -, he⟩ := forM_eq_error_iff.1 h
  rw [List.getElem?_zipIdx, Array.getElem?_toList, Option.map_eq_some_iff] at hp
  obtain ⟨i, hi, rfl⟩ := hp
  exact ⟨k, i, hi, by simpa using he⟩

/-- **The check decides the rules.** It accepts a circuit exactly when every instruction is well
typed, and otherwise reports the first one that is not. -/
theorem check_decides_rules (c : Circuit) :
    (c.check = .ok () ↔ ∀ i ∈ c.instructions, c.WellTyped i) ∧
      ∀ e, c.check = .error e ↔ ∃ k i, c.instructions[k]? = some i ∧
        (∀ j < k, ∀ i', c.instructions[j]? = some i' → c.WellTyped i') ∧
        ¬ c.WellTyped i ∧ c.Reports k i e := by
  have hpair {k : Nat} {p : Instruction × Nat} :
      c.instructions.toList.zipIdx[k]? = some p ↔ c.instructions[k]? = some p.1 ∧ p.2 = k := by
    rw [List.getElem?_zipIdx, Array.getElem?_toList, Option.map_eq_some_iff]
    constructor
    · intro h
      rcases h with ⟨i, hi, rfl⟩
      exact ⟨hi, by simp⟩
    · intro h
      rcases h with ⟨hi, rfl⟩
      exact ⟨p.1, hi, by simp⟩
  constructor
  · simp only [check, List.forM_eq_forM, forM_eq_ok_iff, checkInstruction_eq_ok_iff, Prod.forall]
    constructor
    · intro h i hi
      obtain ⟨k, hk⟩ := Array.mem_iff_getElem?.1 hi
      exact h i k (List.mem_of_getElem? (hpair.2 ⟨hk, rfl⟩))
    · intro h i k hik
      obtain ⟨j, hj⟩ := List.mem_iff_getElem?.1 hik
      exact h i (Array.mem_of_getElem? (hpair.1 hj).1)
  · intro e
    simp only [check, List.forM_eq_forM, forM_eq_error_iff, hpair, checkInstruction_eq_ok_iff,
      checkInstruction_eq_error_iff, Prod.exists, Prod.forall]
    constructor
    · intro h
      rcases h with ⟨_, i, k, ⟨hi, rfl⟩, hbefore, he⟩
      exact ⟨k, i, hi, fun j hj i' hi' => hbefore j hj i' j ⟨hi', rfl⟩, he.not_wellTyped, he⟩
    · intro h
      rcases h with ⟨k, i, hi, hbefore, -, he⟩
      exact ⟨k, i, k, ⟨hi, rfl⟩, fun j hj i' _ hi' => hbefore j hj i' hi'.1, he⟩

end Circuit

end GateIR

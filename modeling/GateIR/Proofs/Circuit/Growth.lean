import GateIR.Proofs.Circuit.Building
import GateIR.Proofs.Circuit.Typing

/-!
# Circuits that grow

**Calls (`fallible_all_or_nothing`).** A call that is given handles fails exactly when one of them is
not in the value table. It then names the first such handle and leaves the circuit as it was.
Otherwise it adds one instruction, with its handles as operands, and the table entries of the
results, and nothing else.

**Checks (`built_check_permanent`).** What the check reports of a built circuit, it reports after all
further calls. A circuit that passes can only fail later at an instruction that was added later.

The check of an instruction depends on the table entries of its handles alone, and growth keeps
these. So a grown circuit is checked as the circuit it grew from, and then at the instructions that
were added (`check_of_grows`). The invariant is that every handle of an instruction is in the table
(`Closed`). It holds of every built circuit, even of one with more values than there are handles:
the handles then start over, and are known all the more.
-/

namespace GateIR

/-! ## Calls -/

namespace Call

open Circuit

variable {c : Circuit} {call : Call}

/-- The call is given handles, which need not be known. -/
def Fallible : Call → Prop
  | argument _ | qubits _ | constant _ => False
  | _ => True

/-- A call whose handles are known has an instruction to add. -/
theorem Fallible.exists_added? (h : call.Fallible) (hknown : ∀ v ∈ call.handles, c.Knows v) :
    ∃ i types, call.added? c = some (i, types) := by
  cases call with
  | argument ty => cases h
  | qubits n => cases h
  | constant gate => cases h
  | compose lhs rhs =>
    obtain ⟨ty, hty⟩ := knows_iff_hasType.1 (hknown lhs List.mem_cons_self)
    refine ⟨.compose lhs rhs (c.upcoming 0), [ty], ?_⟩
    rw [added?, typeOf_eq_ok_iff.2 hty]
    rfl
  | _ => exact ⟨_, _, rfl⟩

/-- **A call does all or nothing.** -/
theorem fallible_all_or_nothing (c : Circuit) (call : Call) (h : call.Fallible) :
    ((∃ e, (outcome call.action c).1 = .error e) ↔ ∃ v ∈ call.handles, ¬ c.Knows v) ∧
      (∀ e, (outcome call.action c).1 = .error e →
        (∃ v, c.firstUnknown? call.handles = some v ∧ e = .unknownValue v) ∧
          (outcome call.action c).2 = c) ∧
      ((outcome call.action c).1 = .ok () →
        ∃ i types, call.added? c = some (i, types) ∧ i.operands = call.handles ∧
          i.results = c.fresh types.length ∧
          (outcome call.action c).2.arguments = c.arguments ∧
          (outcome call.action c).2.table = c.table ++ (c.resultEntries types).toArray ∧
          (outcome call.action c).2.instructions = c.instructions.push i) := by
  rw [outcome_action, guarded]
  cases hfirst : c.firstUnknown? call.handles with
  | some v =>
    have hv : v ∈ call.handles ∧ ¬ c.Knows v := by
      simpa using And.intro (List.mem_of_find?_eq_some hfirst) (List.find?_some hfirst)
    refine ⟨⟨fun _ => ⟨v, hv⟩, fun _ => ⟨_, rfl⟩⟩, ?_, fun hok => by cases hok⟩
    rintro _ ⟨⟩
    exact ⟨⟨v, rfl, rfl⟩, rfl⟩
  | none =>
    have hknown := firstUnknown?_eq_none_iff.1 hfirst
    obtain ⟨i, types, hadded⟩ := h.exists_added? hknown
    obtain ⟨hoperands, hresults, -⟩ := spec_of_added? hadded
    have hgrow : call.grow c = c.withInstruction i types := by rw [grow, hadded]
    refine ⟨⟨?_, ?_⟩, ?_, fun _ => ⟨i, types, hadded, hoperands, hresults, ?_⟩⟩
    · rintro ⟨e, he⟩
      cases he
    · rintro ⟨v, hv, hunknown⟩
      exact absurd (hknown v hv) hunknown
    · intro e he
      cases he
    · rw [hgrow]
      exact ⟨rfl, rfl, rfl⟩

/-- A table with one qubit, which nothing defines. -/
def undefinedQubit : Circuit := { table := #[⟨.qubit, .result 3 1⟩] }

/-- Of two unknown handles the qubit is reported, before the gate. A measurement of the qubit in the
table succeeds. -/
theorem fallible_all_or_nothing_undefinedQubit :
    let apply := qrefDynGate (.ofIndex 5) [.ofIndex 0, .ofIndex 4]
    let measure := qssaMeasure (.ofIndex 0)
    apply.Fallible ∧ (outcome apply.action undefinedQubit).1 = .error (.unknownValue (.ofIndex 4)) ∧
      (outcome apply.action undefinedQubit).2 = undefinedQubit ∧
      measure.Fallible ∧ (outcome measure.action undefinedQubit).1 = .ok () ∧
      ∃ i types, measure.added? undefinedQubit = some (i, types) ∧ i.operands = measure.handles ∧
        (outcome measure.action undefinedQubit).2.instructions =
          undefinedQubit.instructions.push i := by
  intro apply measure
  have hunknown : (outcome apply.action undefinedQubit).1 = .error (.unknownValue (.ofIndex 4)) :=
    rfl
  have hok : (outcome measure.action undefinedQubit).1 = .ok () := rfl
  obtain ⟨-, hfailing, -⟩ := fallible_all_or_nothing undefinedQubit apply trivial
  obtain ⟨-, -, hadding⟩ := fallible_all_or_nothing undefinedQubit measure trivial
  obtain ⟨i, types, hadded, hoperands, -, -, -, hinstructions⟩ := hadding hok
  exact ⟨trivial, hunknown, (hfailing _ hunknown).2, trivial, hok, i, types, hadded, hoperands,
    hinstructions⟩

end Call

namespace Circuit

open Relation (ReflTransGen)

variable {c d : Circuit}

/-! ## Known handles -/

/-- Every handle of an instruction is in the value table. -/
def Closed (c : Circuit) : Prop := ∀ i ∈ c.instructions, ∀ v ∈ i.operands ++ i.results, c.Knows v

theorem Knows.of_grows (h : ReflTransGen Grows c d) {v : Value} (hv : c.Knows v) : d.Knows v :=
  hv.trans_le (size_le_of_grows h)

/-- The results of an instruction are in the table that has their entries, also when their numbers
start over. -/
theorem knows_of_mem_fresh {i : Instruction} {types : List Ty} {v : Value}
    (h : v ∈ c.fresh types.length) : (c.withInstruction i types).Knows v := by
  obtain ⟨j, hj, rfl⟩ := List.mem_map.1 h
  have hindex : (c.upcoming j).index ≤ c.table.size + j := Nat.mod_le _ _
  have hsize : (c.withInstruction i types).table.size = c.table.size + types.length := by
    simp [withInstruction]
  have hlt := List.mem_range.1 hj
  rw [Knows, hsize]
  omega

theorem Grows.closed (h : Grows c d) (hc : c.Closed) : d.Closed := by
  have hgrows := ReflTransGen.single h
  cases h with
  | argument ty => exact fun i hi v hv => (hc i hi v hv).of_grows hgrows
  | instruction hresults hoperands _ =>
    intro i hi v hv
    rcases Array.mem_push.1 hi with hi | rfl
    · exact (hc i hi v hv).of_grows hgrows
    · rcases List.mem_append.1 hv with hv | hv
      · exact (hoperands v hv).of_grows hgrows
      · exact knows_of_mem_fresh (hresults ▸ hv)

theorem closed_built (calls : List Call) : (built calls).Closed := by
  have h := grows_built calls
  generalize built calls = d at h
  induction h with
  | refl => simp [Closed]
  | tail _ hd ih => exact hd.closed ih

/-! ## Checks -/

theorem typesOf_of_grows (h : ReflTransGen Grows c d) {vs : List Value}
    (hvs : ∀ v ∈ vs, c.Knows v) : d.typesOf vs = c.typesOf vs := by
  obtain ⟨ts, hts⟩ := exists_types_of_knows hvs
  rw [typesOf_eq_ok_iff.2 hts, typesOf_eq_ok_iff.2 (hts.imp fun _ _ ht => ht.of_grows h)]

theorem checkInstruction_of_grows (h : ReflTransGen Grows c d) {i : Instruction}
    (hi : ∀ v ∈ i.operands ++ i.results, c.Knows v) (k : Nat) :
    d.checkInstruction i k = c.checkInstruction i k := by
  obtain ⟨hoperands, hresults⟩ := List.forall_mem_append.1 hi
  rw [checkInstruction, checkInstruction, typesOf_of_grows h hoperands, typesOf_of_grows h hresults]

/-- A circuit that has grown is checked as before, and then at what was added. -/
theorem check_of_grows (h : ReflTransGen Grows c d) (hc : c.Closed) :
    ∃ more, d.instructions.toList = c.instructions.toList ++ more ∧
      d.check = c.check >>= fun _ =>
        (more.zipIdx c.instructions.size).forM fun (i, k) => d.checkInstruction i k := by
  obtain ⟨more, hmore⟩ := (prefixes_of_grows h).2.2
  have hsame : (c.instructions.toList.zipIdx.forM fun (i, k) => d.checkInstruction i k) = c.check :=
    forM_congr fun p hp => checkInstruction_of_grows h
      (hc p.1 (Array.mem_toList_iff.1 (List.fst_mem_of_mem_zipIdx hp))) p.2
  refine ⟨more, hmore.symm, ?_⟩
  rw [← hsame, check, ← hmore, List.zipIdx_append, Nat.zero_add, Array.length_toList]
  exact List.forM_append

/-- A check at known handles reports a violation. -/
theorem exists_illTyped_of_checkInstruction {i : Instruction} {k : Nat} {e : CircuitError}
    (hi : ∀ v ∈ i.operands ++ i.results, c.Knows v) (h : c.checkInstruction i k = .error e) :
    ∃ cause, e = .illTyped k i.name cause := by
  cases checkInstruction_eq_error_iff.1 h with
  | unknown hv =>
    rw [firstUnknown?_eq_none_iff.2 hi] at hv
    cases hv
  | illTyped _ _ _ => exact ⟨_, rfl⟩

/-- **A failure stays, and what passes stays.** -/
theorem built_check_permanent (calls more : List Call) :
    (built calls).instructions.toList <+: (built (calls ++ more)).instructions.toList ∧
      (built calls).table.toList <+: (built (calls ++ more)).table.toList ∧
      (∀ e, (built calls).check = .error e →
        (∃ k name cause, e = .illTyped k name cause) ∧ (built (calls ++ more)).check = .error e) ∧
      ((built calls).check = .ok () → ∀ e, (built (calls ++ more)).check = .error e →
        ∃ k name cause, e = .illTyped k name cause ∧ (built calls).instructions.size ≤ k) := by
  have hgrows := grows_built_append calls more
  have hclosed := closed_built calls
  have hclosed' := closed_built (calls ++ more)
  obtain ⟨-, htable, hinstructions⟩ := prefixes_of_grows hgrows
  obtain ⟨added, hadded, hcheck⟩ := check_of_grows hgrows hclosed
  refine ⟨hinstructions, htable, fun e he => ⟨?_, ?_⟩, fun hok e he => ?_⟩
  · obtain ⟨k, i, hi, he⟩ := exists_checkInstruction_of_check he
    obtain ⟨cause, rfl⟩ :=
      exists_illTyped_of_checkInstruction (hclosed i (Array.mem_of_getElem? hi)) he
    exact ⟨k, i.name, cause, rfl⟩
  · rw [hcheck, he]
    rfl
  · rw [hcheck, hok] at he
    obtain ⟨j, ⟨i, k⟩, hj, -, he⟩ := forM_eq_error_iff.1 he
    have hmem := List.mem_of_getElem? hj
    have hi : i ∈ (built (calls ++ more)).instructions := by
      rw [← Array.mem_toList_iff, hadded]
      exact List.mem_append_right _ (List.fst_mem_of_mem_zipIdx hmem)
    obtain ⟨cause, rfl⟩ := exists_illTyped_of_checkInstruction (hclosed' i hi) he
    exact ⟨k, i.name, cause, rfl, List.le_snd_of_mem_zipIdx hmem⟩

/-- A qubit that is measured. -/
def measuredQubit : List Call := [.argument .qubit, .qrefMeasure (.ofIndex 0)]

/-- A correction by a qubit, where three bits belong. -/
def qubitCorrection : Call := .xzs (.ofIndex 0) (.ofIndex 0) (.ofIndex 0)

/-- A measurement passes, and a wrong correction after it is reported for good: another argument, a
call that fails and a second wrong correction change nothing. -/
theorem built_check_permanent_qubitCorrection :
    let wrong := measuredQubit ++ [qubitCorrection]
    let more := [.argument .bool, .qssaMeasure (.ofIndex 9), qubitCorrection]
    let e := CircuitError.illTyped 1 "gate.xzs" (.typeMismatch .bool .qubit)
    (built measuredQubit).check = .ok () ∧ (built wrong).check = .error e ∧
      (built measuredQubit).instructions.size ≤ 1 ∧
      (built wrong).instructions.toList <+: (built (wrong ++ more)).instructions.toList ∧
      (built (wrong ++ more)).check = .error e := by
  intro wrong more e
  have hok : (built measuredQubit).check = .ok () := rfl
  have hwrong : (built wrong).check = .error e := rfl
  obtain ⟨-, -, -, hlater⟩ := built_check_permanent measuredQubit [qubitCorrection]
  obtain ⟨hkept, -, hstays, -⟩ := built_check_permanent wrong more
  obtain ⟨k, name, cause, heq, hsize⟩ := hlater hok e hwrong
  obtain ⟨rfl, -, -⟩ := CircuitError.illTyped.inj heq
  exact ⟨hok, hwrong, hsize, hkept, (hstays e hwrong).2⟩

end Circuit

end GateIR

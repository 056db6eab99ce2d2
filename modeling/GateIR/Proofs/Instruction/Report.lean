import GateIR.Proofs.Instruction.Fault

/-!
# Which violation is reported

Several things can be wrong with an instruction at once. `violations` lists them all, in the order of
the rules of the instruction and within a rule in the order of the types or handles. It looks at each
type by itself, and has neither variables nor contexts.

**Theorem (`check_eq_firstOf_violations`).** A check reports the first violation in the list, and
accepts an instruction without violations.

`Finds` says of a check that it reports the first violation in a list, and which context it leaves if
the list is empty. It holds of a sequence, with one list after the other, when it holds of the parts
(`finds_bind`); what comes after the first part may assume that the first list is empty.
-/

namespace GateIR

variable {α : Type} {c d : Context} {x : Check Unit} {vs ws : List Violation}

/-! ## Violations in order -/

/-- The answer that reports the first violation. -/
def firstOf : List Violation → Except Violation Unit
  | [] => .ok ()
  | e :: _ => .error e

/-- In the first context the check reports the first violation, and without one leaves the second
context. -/
def Finds (x : Check Unit) (c : Context) (vs : List Violation) (d : Context) : Prop :=
  match vs with
  | [] => Passes x c d
  | e :: _ => Fails x c e

theorem Finds.answer (h : Finds x c vs d) : (outcome x c).1 = firstOf vs := by
  cases vs with
  | nil => exact congrArg Prod.fst h
  | cons e vs => exact h

theorem finds_bind {f : Unit → Check Unit} {m : Context} (hx : Finds x c vs m)
    (hf : vs = [] → Finds (f ()) m ws d) : Finds (x >>= f) c (vs ++ ws) d := by
  cases vs with
  | cons e vs => exact fails_bind.2 (.inl hx)
  | nil =>
    have hnext := hf rfl
    cases ws with
    | nil => exact passes_bind.2 ⟨m, hx, hnext⟩
    | cons e ws => exact fails_bind.2 (.inr ⟨m, hx, hnext⟩)

theorem finds_adapt (f : Violation → Violation) (hx : Finds x c vs d) :
    Finds (x.adapt f) c (vs.map f) d := by
  cases vs with
  | nil => exact passes_adapt.2 hx
  | cons e vs => exact fails_adapt.2 ⟨e, hx, rfl⟩

theorem finds_forM {f : α → Check Unit} {found : α → List Violation}
    (hf : ∀ a, Finds (f a) c (found a) c) (as : List α) :
    Finds (forM as f) c (as.flatMap found) c := by
  induction as with
  | nil => exact passes_pure.2 rfl
  | cons a as ih =>
    rw [List.forM_cons, List.flatMap_cons]
    exact finds_bind (hf a) fun _ => ih

namespace Instruction

variable {f : Family} {t : Ty} {ts rs : List Ty} {n m : Nat} {i : Instruction}

/-! ## What can be wrong with a type -/

/-- A type that differs from the required one. -/
def mismatch (t u : Ty) : List Violation := if u = t then [] else [.typeMismatch t u]

theorem finds_exact (t u : Ty) : Finds (liftM ((Family.exact t).check u)) c (mismatch t u) c := by
  unfold mismatch
  split
  · next h => exact passes_lift.2 ⟨h ▸ check_exact_self t, rfl⟩
  · next h => exact fails_lift.2 (check_exact_eq_error_iff.2 ⟨h, rfl⟩)

theorem finds_exact_singleton (t u : Ty) :
    Finds (liftM ((Family.exact t).check u)) c ([u].flatMap (mismatch t)) c := by
  rw [List.flatMap_singleton]
  exact finds_exact t u

/-- A type that lies outside the family, or differs from the one it shares a variable with. -/
def unshared (f : Family) (t u : Ty) : List Violation :=
  if f.accepts u = false then [.outsideFamily f u]
  else if t = u then [] else [.conflictingTypes "T" t u]

/-- Types that should all be the first one. -/
def unsharedAmong (f : Family) : List Ty → List Violation
  | [] => []
  | t :: ts => (t :: ts).flatMap (unshared f t)

theorem finds_shared_first (hf : f.violation t = .outsideFamily f t) :
    Finds ((TyConstraint.var "T" f).check t) {} (unshared f t t) (.single "T" (.type t)) := by
  unfold unshared
  split
  · next h => exact fails_shared_first.2 ⟨h, hf.symm⟩
  · next h =>
    rw [if_pos rfl]
    exact passes_shared_first.2 ⟨by simpa using h, rfl⟩

theorem finds_shared_next {u : Ty} (hf : f.violation u = .outsideFamily f u) :
    Finds ((TyConstraint.var "T" f).check u) (.single "T" (.type t)) (unshared f t u)
      (.single "T" (.type t)) := by
  unfold unshared
  split
  · next h => exact fails_shared_next.2 (.inl ⟨h, hf.symm⟩)
  · next h =>
    have haccepts : f.accepts u = true := by simpa using h
    split
    · next htu => exact passes_shared_next.2 ⟨haccepts, htu, rfl⟩
    · next htu => exact fails_shared_next.2 (.inr ⟨haccepts, htu, rfl⟩)

theorem finds_shared (hf : ∀ u, f.violation u = .outsideFamily f u) (t : Ty) (ts : List Ty) :
    Finds (forM (t :: ts) (TyConstraint.var "T" f).check) {} (unsharedAmong f (t :: ts))
      (.single "T" (.type t)) := by
  rw [List.forM_cons]
  exact finds_bind (finds_shared_first (hf t)) fun _ =>
    finds_forM (fun u => finds_shared_next (hf u)) ts

/-! ## What can be wrong with a list -/

/-- A list of another length than instructions of this kind have. -/
def miscount (i : Instruction) (slot : Slot) (n : Nat) (ts : List Ty) : List Violation :=
  if ts.length = n then [] else [.wrongCount i.name slot n ts.length]

/-- A list of another length than the gate asks for. -/
def misfit (say : Nat → Nat → Violation) (n : UInt32) (ts : List Ty) : List Violation :=
  if ts.length = n.toNat then [] else [say n.toNat ts.length]

/-- The numbers of operands and results of an instruction of fixed shape. -/
def shape? : Instruction → Option (Nat × Nat)
  | constant .. => some (0, 1)
  | quaternion .. => some (4, 1)
  | compose .. => some (2, 1)
  | xzs .. => some (3, 1)
  | qrefMeasure .. => some (1, 1)
  | qssaMeasure .. => some (1, 2)
  | qrefGate .. | qrefDynGate .. | qssaGate .. => none

theorem rule_of_operands_ne (h : i.shape? = some (n, m)) (hts : ts.length ≠ n) :
    i.rule ts rs = throw (i.wrongCount .operands n ts) := by
  cases i <;> cases h <;>
    · unfold rule
      dsimp only
      split <;> simp_all

theorem rule_of_results_ne (h : i.shape? = some (n, m)) (hts : ts.length = n)
    (hrs : rs.length ≠ m) : i.rule ts rs = throw (i.wrongCount .results m rs) := by
  cases i <;> cases h <;>
    · unfold rule
      dsimp only
      split
      · simp at hrs
      · rfl
      · next hshape =>
        grind [List.length_eq_one_iff, List.length_eq_two, List.length_eq_three, List.length_eq_four]

/-- The operands are counted before the results, and both before anything else. -/
theorem finds_counted (h : i.shape? = some (n, m))
    (hrule : ts.length = n → rs.length = m → Finds (i.rule ts rs) {} vs d) :
    Finds (i.rule ts rs) {} (i.miscount .operands n ts ++ (i.miscount .results m rs ++ vs)) d := by
  unfold miscount
  by_cases hn : ts.length = n
  · rw [if_pos hn, List.nil_append]
    by_cases hm : rs.length = m
    · rw [if_pos hm, List.nil_append]
      exact hrule hn hm
    · rw [if_neg hm, rule_of_results_ne h hn hm]
      exact fails_throw.2 rfl
  · rw [if_neg hn, rule_of_operands_ne h hn]
    exact fails_throw.2 rfl

/-- Every type is looked at before the number of types. -/
theorem finds_qubits_next {n : UInt32} (ts : List Ty) :
    Finds (gateQubits.check ts) (.single "Q" (.qubits n))
      (ts.flatMap (mismatch .qubit) ++ misfit .operandArity n ts) (.single "Q" (.qubits n)) := by
  have hf : ∀ t, Finds (liftM (gateQubits.element.check t)) (.single "Q" (.qubits n))
      (mismatch .qubit t) (.single "Q" (.qubits n)) := fun t => finds_exact .qubit t
  refine finds_bind (finds_forM hf ts) fun hqubits => ?_
  have hall : ∀ t ∈ ts, t = .qubit := by
    intro t ht
    by_contra hne
    have hmem : Violation.typeMismatch .qubit t ∈ ts.flatMap (mismatch .qubit) :=
      List.mem_flatMap.2 ⟨t, ht, by simp [mismatch, hne]⟩
    rw [hqubits] at hmem
    cases hmem
  unfold misfit
  split
  · next hlength =>
    refine passes_bind_single.2 ⟨?_, rfl⟩
    exact Binding.agrees_qubits_range_iff.2 (List.eq_replicate_iff.2 ⟨hlength, hall⟩)
  · next hlength => exact fails_bind_single.2 ((clashes_qubits_iff hall).2 ⟨hlength, rfl⟩)

/-- Of a result list, another length is reported as one of results. -/
theorem finds_results_next {n : UInt32} (rs : List Ty) :
    Finds ((gateQubits.check rs).adapt Violation.ofResults) (.single "Q" (.qubits n))
      (rs.flatMap (mismatch .qubit) ++ misfit .resultArity n rs) (.single "Q" (.qubits n)) := by
  have htypes : (rs.flatMap (mismatch .qubit)).map Violation.ofResults =
      rs.flatMap (mismatch .qubit) := by
    rw [List.map_flatMap]
    refine List.flatMap_congr fun t _ => ?_
    unfold mismatch
    split <;> rfl
  have hlength : (misfit .operandArity n rs).map Violation.ofResults = misfit .resultArity n rs := by
    unfold misfit
    split <;> rfl
  have hfinds := finds_adapt Violation.ofResults (finds_qubits_next (n := n) rs)
  rwa [List.map_append, htypes, hlength] at hfinds

/-- The qubits that were named before, each at its position. -/
def repeats (ins : List Value) : List Violation :=
  ins.zipIdx.flatMap fun p => if p.1 ∈ ins.take p.2 then [.repeatedQubit p.1] else []

/-- A handle repeats an earlier one when it is among those that were gone through before it. -/
theorem finds_repeats_from {seen rest : List Value} (before : List Value)
    (hseen : ∀ v, v ∈ seen ↔ v ∈ before) :
    Finds
      (match firstRepeated? seen rest with
        | none => pure ()
        | some v => throw (.repeatedQubit v))
      c ((rest.zipIdx before.length).flatMap fun p =>
        if p.1 ∈ (before ++ rest).take p.2 then [.repeatedQubit p.1] else []) c := by
  induction rest generalizing seen before with
  | nil => exact passes_pure.2 rfl
  | cons v rest ih =>
    rw [List.zipIdx_cons, List.flatMap_cons, List.take_left, firstRepeated?]
    by_cases hv : v ∈ before
    · rw [if_pos hv, if_pos ((hseen v).2 hv)]
      exact fails_throw.2 rfl
    · rw [if_neg hv, if_neg (mt (hseen v).1 hv), List.nil_append]
      have hseen' : ∀ w, w ∈ v :: seen ↔ w ∈ before ++ [v] := by
        intro w
        simp [hseen w, or_comm]
      have hnext := ih (before ++ [v]) hseen'
      rwa [List.append_assoc, List.singleton_append, List.length_append,
        List.length_singleton] at hnext

theorem finds_checkDistinct (ins : List Value) : Finds (checkDistinct ins) c (repeats ins) c :=
  finds_repeats_from [] fun _ => Iff.rfl

/-! ## The instructions -/

/-- What is wrong with the qubits of a gate on `n` qubits, up to the handles. -/
def unfitQubits (n : UInt32) (ts : List Ty) : List Violation :=
  ts.flatMap (mismatch .qubit) ++ misfit .operandArity n ts

/-- An attribute that is no gate, or else what is wrong with the application of the gate. -/
def unfitGate (a : Attribute) (found : Gate → List Violation) : List Violation :=
  match a.gate? with
  | none => [.notAGate a]
  | some g => found g

/-- A type that is no gate type, or else what is wrong with the application of such a gate. -/
def unfitGateType (t : Ty) (found : UInt32 → List Violation) : List Violation :=
  match t.arity? with
  | none => [.notAGateType t]
  | some n => found n

/-- Everything that is wrong with an instruction that has operands and results of the given types,
in the order in which it is looked for. -/
def violations (i : Instruction) (ts rs : List Ty) : List Violation :=
  match i with
  | constant g _ =>
    i.miscount .operands 0 ts ++ (i.miscount .results 1 rs ++ unsharedAmong .gate (g.ty :: rs))
  | quaternion .. =>
    i.miscount .operands 4 ts ++ (i.miscount .results 1 rs ++
      (unsharedAmong .scalar ts ++ rs.flatMap (mismatch (.gate 1))))
  | compose .. =>
    i.miscount .operands 2 ts ++ (i.miscount .results 1 rs ++ unsharedAmong .gate (ts ++ rs))
  | xzs .. =>
    i.miscount .operands 3 ts ++ (i.miscount .results 1 rs ++
      (ts.flatMap (mismatch .bool) ++ rs.flatMap (mismatch (.gate 1))))
  | qrefGate a ins =>
    i.miscount .results 0 rs ++ unfitGate a fun g => unfitQubits g.arity ts ++ repeats ins
  | qrefDynGate ins _ =>
    i.miscount .results 0 rs ++
      match ts.getLast? with
      | none => [.wrongCount i.name .operands 1 0]
      | some t => unfitGateType t fun n => unfitQubits n ts.dropLast ++ repeats ins
  | qrefMeasure .. =>
    i.miscount .operands 1 ts ++ (i.miscount .results 1 rs ++
      (ts.flatMap (mismatch .qubit) ++ rs.flatMap (mismatch .bool)))
  | qssaGate a ins _ =>
    unfitGate a fun g => unfitQubits g.arity ts ++
      (rs.flatMap (mismatch .qubit) ++ misfit .resultArity g.arity rs ++ repeats ins)
  | qssaMeasure .. =>
    i.miscount .operands 1 ts ++ (i.miscount .results 2 rs ++
      (ts.flatMap (mismatch .qubit) ++
        ([Ty.bool, .qubit].zip rs).flatMap fun p => mismatch p.1 p.2))

section Rules

theorem finds_constant (g : Gate) (out : Value) (ts rs : List Ty) :
    ∃ d, Finds ((constant g out).rule ts rs) {} ((constant g out).violations ts rs) d := by
  refine ⟨.single "T" (.type g.ty), finds_counted rfl ?_⟩
  intro hts hrs
  obtain rfl := List.length_eq_zero_iff.1 hts
  obtain ⟨t, rfl⟩ := List.length_eq_one_iff.1 hrs
  -- The gate itself binds the variable first.
  have hrule : (constant g out).rule [] [t] = forM [g.ty, t] sameGateType.check := by
    simp only [List.forM_cons, List.forM_nil, bind_pure_unit]
    rfl
  rw [hrule]
  exact finds_shared (fun _ => rfl) g.ty [t]

theorem finds_quaternion (real x y z out : Value) (ts rs : List Ty) :
    ∃ d, Finds ((quaternion real x y z out).rule ts rs) {}
      ((quaternion real x y z out).violations ts rs) d := by
  refine ⟨.single "T" (.type (ts.headD .index)), finds_counted rfl ?_⟩
  intro hts hrs
  obtain ⟨a, b, c, d, rfl⟩ := List.length_eq_four.1 hts
  obtain ⟨t, rfl⟩ := List.length_eq_one_iff.1 hrs
  exact finds_bind (finds_shared (fun _ => rfl) a [b, c, d]) fun _ => finds_exact_singleton _ t

theorem finds_compose (lhs rhs out : Value) (ts rs : List Ty) :
    ∃ d, Finds ((compose lhs rhs out).rule ts rs) {} ((compose lhs rhs out).violations ts rs) d := by
  refine ⟨.single "T" (.type (ts.headD .index)), finds_counted rfl ?_⟩
  intro hts hrs
  obtain ⟨a, b, rfl⟩ := List.length_eq_two.1 hts
  obtain ⟨t, rfl⟩ := List.length_eq_one_iff.1 hrs
  -- The result shares the type of the operands.
  have hrule : (compose lhs rhs out).rule [a, b] [t] = forM [a, b, t] sameGateType.check := by
    simp only [List.forM_cons, List.forM_nil, bind_pure_unit]
    rfl
  rw [hrule]
  exact finds_shared (fun _ => rfl) a [b, t]

theorem finds_xzs (x z phase out : Value) (ts rs : List Ty) :
    ∃ d, Finds ((xzs x z phase out).rule ts rs) {} ((xzs x z phase out).violations ts rs) d := by
  refine ⟨{}, finds_counted rfl ?_⟩
  intro hts hrs
  obtain ⟨a, b, c, rfl⟩ := List.length_eq_three.1 hts
  obtain ⟨t, rfl⟩ := List.length_eq_one_iff.1 hrs
  exact finds_bind (finds_forM (finds_exact .bool) [a, b, c]) fun _ => finds_exact_singleton _ t

theorem finds_qrefMeasure (qubit out : Value) (ts rs : List Ty) :
    ∃ d, Finds ((qrefMeasure qubit out).rule ts rs) {}
      ((qrefMeasure qubit out).violations ts rs) d := by
  refine ⟨{}, finds_counted rfl ?_⟩
  intro hts hrs
  obtain ⟨a, rfl⟩ := List.length_eq_one_iff.1 hts
  obtain ⟨t, rfl⟩ := List.length_eq_one_iff.1 hrs
  exact finds_bind (finds_exact_singleton _ a) fun _ => finds_exact_singleton _ t

theorem finds_qssaMeasure (qubit out outQubit : Value) (ts rs : List Ty) :
    ∃ d, Finds ((qssaMeasure qubit out outQubit).rule ts rs) {}
      ((qssaMeasure qubit out outQubit).violations ts rs) d := by
  refine ⟨{}, finds_counted rfl ?_⟩
  intro hts hrs
  obtain ⟨a, rfl⟩ := List.length_eq_one_iff.1 hts
  obtain ⟨t, u, rfl⟩ := List.length_eq_two.1 hrs
  have hresults : ([Ty.bool, .qubit].zip [t, u]).flatMap (fun p => mismatch p.1 p.2) =
      mismatch .bool t ++ mismatch .qubit u := by
    simp
  rw [hresults]
  exact finds_bind (finds_exact_singleton _ a) fun _ =>
    finds_bind (finds_exact _ t) fun _ => finds_exact _ u

theorem finds_gate {f : Unit → Check Unit} {found : Gate → List Violation} {e : Gate → Context}
    (a : Attribute)
    (hf : ∀ g, Finds (f ()) (.single "Q" (.qubits g.arity)) (found g) (e g)) :
    ∃ d, Finds ((GateConstraint.qubits gateQubits.name).check a >>= f) {} (unfitGate a found) d := by
  cases a with
  | gate g =>
    have hgate : Finds ((GateConstraint.qubits gateQubits.name).check (.gate g)) {} []
        (.single "Q" (.qubits g.arity)) := passes_gate_first.2 ⟨g, rfl, rfl⟩
    exact ⟨e g, finds_bind hgate fun _ => hf g⟩
  | _ => exact ⟨{}, fails_notAGate rfl⟩

theorem finds_gateType {f : Unit → Check Unit} {found : UInt32 → List Violation}
    {e : UInt32 → Context} (t : Ty)
    (hf : ∀ n, Finds (f ()) (.single "Q" (.qubits n)) (found n) (e n)) :
    ∃ d, Finds ((TyConstraint.gateQubits gateQubits.name).check t >>= f) {}
      (unfitGateType t found) d := by
  cases t with
  | gate n =>
    have hgate : Finds ((TyConstraint.gateQubits gateQubits.name).check (.gate n)) {} []
        (.single "Q" (.qubits n)) := passes_gateType_first.2 ⟨n, rfl, rfl⟩
    exact ⟨e n, finds_bind hgate fun _ => hf n⟩
  | _ =>
    refine ⟨{}, ?_⟩
    exact fails_bind.2 (.inl (TyConstraint.fails_gateQubits.2 (.inl ⟨rfl, rfl⟩)))

theorem finds_application (n : UInt32) (ins : List Value) (ts : List Ty) :
    Finds (gateQubits.check ts >>= fun _ => checkDistinct ins) (.single "Q" (.qubits n))
      (unfitQubits n ts ++ repeats ins) (.single "Q" (.qubits n)) :=
  finds_bind (finds_qubits_next ts) fun _ => finds_checkDistinct ins

theorem finds_qrefGate (a : Attribute) (ins : List Value) (ts rs : List Ty) :
    ∃ d, Finds ((qrefGate a ins).rule ts rs) {} ((qrefGate a ins).violations ts rs) d := by
  cases rs with
  | nil => exact finds_gate a fun g => finds_application g.arity ins ts
  | cons t rs => exact ⟨{}, fails_throw.2 rfl⟩

theorem finds_qrefDynGate (ins : List Value) (gate : Value) (ts rs : List Ty) :
    ∃ d, Finds ((qrefDynGate ins gate).rule ts rs) {}
      ((qrefDynGate ins gate).violations ts rs) d := by
  cases rs with
  | cons t rs => exact ⟨{}, fails_throw.2 rfl⟩
  | nil =>
    cases hlast : ts.getLast? with
    | none =>
      obtain rfl := List.getLast?_eq_none_iff.1 hlast
      exact ⟨{}, fails_throw.2 rfl⟩
    | some t =>
      simp only [rule, violations, hlast]
      exact finds_gateType t fun n => finds_application n ins ts.dropLast

theorem finds_qssaGate (a : Attribute) (ins outs : List Value) (ts rs : List Ty) :
    ∃ d, Finds ((qssaGate a ins outs).rule ts rs) {} ((qssaGate a ins outs).violations ts rs) d :=
  finds_gate a fun _ => finds_bind (finds_qubits_next ts) fun _ =>
    finds_bind (finds_results_next rs) fun _ => finds_checkDistinct ins

theorem finds_rule (i : Instruction) (ts rs : List Ty) :
    ∃ d, Finds (i.rule ts rs) {} (i.violations ts rs) d := by
  cases i with
  | constant => exact finds_constant ..
  | quaternion => exact finds_quaternion ..
  | compose => exact finds_compose ..
  | xzs => exact finds_xzs ..
  | qrefGate => exact finds_qrefGate ..
  | qrefDynGate => exact finds_qrefDynGate ..
  | qrefMeasure => exact finds_qrefMeasure ..
  | qssaGate => exact finds_qssaGate ..
  | qssaMeasure => exact finds_qssaMeasure ..

end Rules

/-- **Which violation is reported**: of all that is wrong with an instruction, the first. -/
theorem check_eq_firstOf_violations (i : Instruction) (ts rs : List Ty) :
    i.check ts rs = firstOf (i.violations ts rs) := by
  obtain ⟨d, hfinds⟩ := finds_rule i ts rs
  exact hfinds.answer

/-- Of a missing operand, a result that is no qubit and a repeated handle, the operand. -/
example : (qssaGate (.gate .toffoli) [.ofIndex 0, .ofIndex 0] []).check [.qubit, .qubit] [.bool] =
    .error (.operandArity 3 2) := rfl

end Instruction

end GateIR

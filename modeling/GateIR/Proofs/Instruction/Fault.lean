import GateIR.Proofs.Circuit.Building
import GateIR.Proofs.Instruction.Application

/-!
# What is reported of each instruction

The results of an instruction have the types that it fixes, unless somebody wrote others into the
table. `Fault` lists what can then be reported of the operands.

**Theorem (`fault_of_check`).** A check of an instruction with results of the types that it fixes
reports one of the faults in the list. Lifting a gate has none.

A shared type is reported by a value outside its family or by a value that differs from the first
one, a required type by a value of another type.
-/

namespace GateIR

namespace Instruction

variable {f : Family} {t : Ty} {ts rs : List Ty} {e : Violation}

/-! ## Types that are shared -/

theorem fails_shared_first :
    Fails ((TyConstraint.var "T" f).check t) {} e ↔ f.accepts t = false ∧ e = f.violation t := by
  rw [TyConstraint.fails_var]
  simp [not_fails_bind_empty]

theorem fails_shared_next {u : Ty} :
    Fails ((TyConstraint.var "T" f).check u) (.single "T" (.type t)) e ↔
      (f.accepts u = false ∧ e = f.violation u) ∨
        f.accepts u = true ∧ t ≠ u ∧ e = .conflictingTypes "T" t u := by
  have hdiffer : (Binding.type t).agrees (.type u) = false ↔ t ≠ u := by
    rw [← Bool.not_eq_true, Binding.agrees_type_iff]
  rw [TyConstraint.fails_var, fails_bind_single, Binding.clashes_iff, hdiffer]
  rfl

/-- Types that should be the same one fail outside the family, or by a difference from the first. -/
theorem of_fails_shared (h : Fails (forM ts (TyConstraint.var "T" f).check)
    (.single "T" (.type t)) e) :
    ∃ u ∈ ts, e = f.violation u ∨ t ≠ u ∧ e = .conflictingTypes "T" t u := by
  induction ts with
  | nil => exact absurd h not_fails_pure
  | cons u ts ih =>
    rw [List.forM_cons, fails_bind] at h
    rcases h with h | ⟨m, hpass, h⟩
    · refine ⟨u, List.mem_cons_self, ?_⟩
      exact (fails_shared_next.1 h).imp And.right And.right
    · obtain ⟨-, -, rfl⟩ := passes_shared_next.1 hpass
      obtain ⟨w, hw, hfault⟩ := ih h
      exact ⟨w, List.mem_cons_of_mem _ hw, hfault⟩

theorem of_fails_shared_first (h : Fails (forM ts (TyConstraint.var "T" f).check) {} e) :
    (∃ u ∈ ts, e = f.violation u) ∨
      ∃ t ∈ ts, ∃ u ∈ ts, t ≠ u ∧ e = .conflictingTypes "T" t u := by
  cases ts with
  | nil => exact absurd h not_fails_pure
  | cons t ts =>
    rw [List.forM_cons, fails_bind] at h
    rcases h with h | ⟨m, hpass, h⟩
    · exact .inl ⟨t, List.mem_cons_self, (fails_shared_first.1 h).2⟩
    · obtain ⟨-, rfl⟩ := passes_shared_first.1 hpass
      obtain ⟨u, hu, rfl | ⟨htu, rfl⟩⟩ := of_fails_shared h
      · exact .inl ⟨u, List.mem_cons_of_mem _ hu, rfl⟩
      · exact .inr ⟨t, List.mem_cons_self, u, List.mem_cons_of_mem _ hu, htu, rfl⟩

/-! ## Types that are required -/

theorem check_exact_eq_error_iff {u : Ty} :
    (Family.exact t).check u = .error e ↔ u ≠ t ∧ e = .typeMismatch t u := by
  rw [Family.check_eq_error_iff, ← Bool.not_eq_true, Family.accepts_exact_iff]
  rfl

theorem check_exact_self (t : Ty) : (Family.exact t).check t = .ok () :=
  Family.check_eq_ok_iff.2 (Family.accepts_exact_iff.2 rfl)

theorem of_fails_exact {x : Check Unit} {c : Context} {u : Ty}
    (h : Fails (liftM ((Family.exact t).check u) >>= fun _ => x) c e) :
    u ≠ t ∧ e = .typeMismatch t u ∨ Fails x c e := by
  rw [fails_bind] at h
  rcases h with h | ⟨m, hpass, h⟩
  · exact .inl (check_exact_eq_error_iff.1 (fails_lift.1 h))
  · obtain ⟨-, rfl⟩ := passes_lift.1 hpass
    exact .inr h

theorem not_fails_exact_self {c : Context} : ¬ Fails (liftM ((Family.exact t).check t)) c e := by
  rw [fails_lift, check_exact_self]
  exact nofun

/-! ## The faults of each instruction -/

/-- What can be reported of an instruction with operands of the types `ts` and with results of the
types `rs` that it fixes. -/
inductive Fault (ts rs : List Ty) : Instruction → Violation → Prop
  | notAScalar {real i j k out : Value} {t : Ty} :
      t ∈ ts → Fault ts rs (.quaternion real i j k out) (.outsideFamily .scalar t)
  | twoScalars {real i j k out : Value} {t u : Ty} :
      t ∈ ts → u ∈ ts → t ≠ u →
      Fault ts rs (.quaternion real i j k out) (.conflictingTypes "T" t u)
  /-- The result counts here, because it may be declared to have any type. -/
  | notAGateType {lhs rhs out : Value} {t : Ty} :
      t ∈ ts ++ rs → Fault ts rs (.compose lhs rhs out) (.outsideFamily .gate t)
  | twoGateTypes {lhs rhs out : Value} {t u : Ty} :
      t ∈ ts ++ rs → u ∈ ts ++ rs → t ≠ u →
      Fault ts rs (.compose lhs rhs out) (.conflictingTypes "T" t u)
  | notABool {x z phase out : Value} {t : Ty} :
      t ∈ ts → Fault ts rs (.xzs x z phase out) (.typeMismatch .bool t)
  | qrefAttribute {a : Attribute} {ins : List Value} : Fault ts rs (.qrefGate a ins) (.notAGate a)
  | qrefGate {g : Gate} {ins : List Value} {e : Violation} :
      ApplicationFault g.arity ins ts e → Fault ts rs (.qrefGate (.gate g) ins) e
  | qrefValue {ins : List Value} {gate : Value} {t : Ty} :
      t ∈ ts → Fault ts rs (.qrefDynGate ins gate) (.notAGateType t)
  | qrefDynGate {ins : List Value} {gate : Value} {n : UInt32} {us : List Ty} {e : Violation} :
      ts = us ++ [.gate n] → ApplicationFault n ins us e → Fault ts rs (.qrefDynGate ins gate) e
  | qrefMeasure {qubit out : Value} {t : Ty} :
      t ∈ ts → Fault ts rs (.qrefMeasure qubit out) (.typeMismatch .qubit t)
  | qssaAttribute {a : Attribute} {ins outs : List Value} :
      Fault ts rs (.qssaGate a ins outs) (.notAGate a)
  | qssaGate {g : Gate} {ins outs : List Value} {e : Violation} :
      ApplicationFault g.arity ins ts e → Fault ts rs (.qssaGate (.gate g) ins outs) e
  | qssaMeasure {qubit out outQubit : Value} {t : Ty} :
      t ∈ ts → Fault ts rs (.qssaMeasure qubit out outQubit) (.typeMismatch .qubit t)

theorem fault_quaternion {real i j k out : Value} {a b c d : Ty}
    (h : (quaternion real i j k out).check [a, b, c, d] [.gate 1] = .error e) :
    Fault [a, b, c, d] [.gate 1] (.quaternion real i j k out) e := by
  have hfails : Fails (forM [a, b, c, d] sameScalarType.check >>= fun _ =>
      liftM ((Family.exact (.gate 1)).check (.gate 1))) {} e := h
  rw [fails_bind] at hfails
  rcases hfails with hfails | ⟨m, -, hfails⟩
  · rcases of_fails_shared_first hfails with ⟨u, hu, rfl⟩ | ⟨t, ht, u, hu, htu, rfl⟩
    · exact .notAScalar hu
    · exact .twoScalars ht hu htu
  · exact absurd hfails not_fails_exact_self

theorem fault_compose {lhs rhs out : Value} {a b ty : Ty}
    (h : (compose lhs rhs out).check [a, b] [ty] = .error e) :
    Fault [a, b] [ty] (.compose lhs rhs out) e := by
  have hfails : Fails (sameGateType.check a >>= fun _ => sameGateType.check b >>= fun _ =>
      sameGateType.check ty) {} e := h
  -- The result shares the type of the operands.
  have hforM : forM ([a, b] ++ [ty]) sameGateType.check = (sameGateType.check a >>= fun _ =>
      sameGateType.check b >>= fun _ => sameGateType.check ty) := by
    simp
  rw [← hforM] at hfails
  rcases of_fails_shared_first hfails with ⟨u, hu, rfl⟩ | ⟨t, ht, u, hu, htu, rfl⟩
  · exact .notAGateType hu
  · exact .twoGateTypes ht hu htu

theorem fault_xzs {x z phase out : Value} {a b c : Ty}
    (h : (xzs x z phase out).check [a, b, c] [.gate 1] = .error e) :
    Fault [a, b, c] [.gate 1] (.xzs x z phase out) e := by
  have hf : ∀ t d d', Passes (liftM ((Family.exact .bool).check t)) d d' ↔ t = .bool ∧ d' = d :=
    fun t d d' => by rw [passes_lift, Family.check_eq_ok_iff, Family.accepts_exact_iff]
  have hfails : Fails ((forM [a, b, c] fun t => liftM ((Family.exact .bool).check t)) >>= fun _ =>
      liftM ((Family.exact (.gate 1)).check (.gate 1))) {} e := h
  rw [fails_bind, fails_forM hf] at hfails
  rcases hfails with ⟨before, t, after, heq, -, hfails⟩ | ⟨m, -, hfails⟩
  · obtain ⟨-, rfl⟩ := check_exact_eq_error_iff.1 (fails_lift.1 hfails)
    exact .notABool (by simp [heq])
  · exact absurd hfails not_fails_exact_self

theorem fault_qrefGate {a : Attribute} {ins : List Value}
    (h : (qrefGate a ins).check ts [] = .error e) : Fault ts [] (.qrefGate a ins) e := by
  by_cases ha : a.gate? = none
  · rw [check_qrefGate_eq_notAGate ha] at h
    cases h
    exact .qrefAttribute
  · cases a with
    | gate g => exact .qrefGate (check_qrefGate_eq_error_iff.1 h)
    | _ => exact absurd rfl ha

theorem fault_qrefDynGate {ins : List Value} {gate : Value}
    (h : (qrefDynGate ins gate).check (ts ++ [t]) [] = .error e) :
    Fault (ts ++ [t]) [] (.qrefDynGate ins gate) e := by
  by_cases ht : ∃ n, t = .gate n
  · obtain ⟨n, rfl⟩ := ht
    exact .qrefDynGate rfl (check_qrefDynGate_eq_error_iff.1 h)
  · have harity : t.arity? = none := by cases t <;> simp_all [Ty.arity?]
    rw [check_qrefDynGate_eq_notAGateType harity] at h
    cases h
    exact .qrefValue (by simp)

theorem fault_qrefMeasure {qubit out : Value}
    (h : (qrefMeasure qubit out).check [t] [.bool] = .error e) :
    Fault [t] [.bool] (.qrefMeasure qubit out) e := by
  rcases of_fails_exact h with ⟨-, rfl⟩ | hfails
  · exact .qrefMeasure List.mem_cons_self
  · exact absurd hfails not_fails_exact_self

theorem fault_qssaGate {a : Attribute} {ins outs : List Value}
    (h : (qssaGate a ins outs).check ts (List.replicate ts.length .qubit) = .error e) :
    Fault ts rs (.qssaGate a ins outs) e := by
  by_cases ha : a.gate? = none
  · rw [check_qssaGate_eq_notAGate ha] at h
    cases h
    exact .qssaAttribute
  · cases a with
    | gate g => exact .qssaGate (check_qssaGate_eq_error_iff.1 h)
    | _ => exact absurd rfl ha

theorem fault_qssaMeasure {qubit out outQubit : Value}
    (h : (qssaMeasure qubit out outQubit).check [t] [.bool, .qubit] = .error e) :
    Fault [t] [.bool, .qubit] (.qssaMeasure qubit out outQubit) e := by
  rcases of_fails_exact h with ⟨-, rfl⟩ | hfails
  · exact .qssaMeasure List.mem_cons_self
  · rcases of_fails_exact hfails with ⟨hne, -⟩ | hfails
    · exact absurd rfl hne
    · exact absurd hfails not_fails_exact_self

/-- **What is reported of an instruction** with results of the types that it fixes. -/
theorem fault_of_check {i : Instruction} (hfix : i.Fixes rs) (hlength : ts.length = i.operands.length)
    (h : i.check ts rs = .error e) : Fault ts rs i e := by
  cases hfix with
  | constant =>
    obtain rfl := List.length_eq_zero_iff.1 hlength
    rw [check_constant_iff.2 ⟨rfl, rfl⟩] at h
    cases h
  | quaternion =>
    obtain ⟨a, b, c, d, rfl⟩ := List.length_eq_four.1 hlength
    exact fault_quaternion h
  | compose =>
    obtain ⟨a, b, rfl⟩ := List.length_eq_two.1 hlength
    exact fault_compose h
  | xzs =>
    obtain ⟨a, b, c, rfl⟩ := List.length_eq_three.1 hlength
    exact fault_xzs h
  | qrefGate => exact fault_qrefGate h
  | qrefDynGate =>
    have hne : ts ≠ [] := fun hts => by simp [hts, operands] at hlength
    rw [← List.dropLast_concat_getLast hne] at h ⊢
    exact fault_qrefDynGate h
  | qrefMeasure =>
    obtain ⟨t, rfl⟩ := List.length_eq_one_iff.1 hlength
    exact fault_qrefMeasure h
  | @qssaGate a ins outs =>
    have hins : ts.length = ins.length := hlength
    rw [← hins] at h
    exact fault_qssaGate h
  | qssaMeasure =>
    obtain ⟨t, rfl⟩ := List.length_eq_one_iff.1 hlength
    exact fault_qssaMeasure h

end Instruction

end GateIR

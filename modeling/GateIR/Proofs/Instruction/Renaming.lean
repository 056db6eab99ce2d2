import GateIR.Proofs.Circuit.Renumber
import GateIR.Proofs.Instruction.Application

/-!
# Renaming handles does not change the check

A typing rule looks at types. The only handles that it looks at are the qubits of a gate
application, and these only to see whether one is named twice.

**Theorem (`check_rename`).** An instruction whose operands get new and different handles is checked
as before, at any types. A qubit that is named twice is reported by its new handle.

`Renames` says of two checks that the second answers as the first with the handles renamed. It holds
of a sequence when it holds of the parts, and of a check with itself when no violation of that check
names a handle (`Nameless`).
-/

namespace GateIR

/-- The violation with every handle replaced. -/
def Violation.rename (f : Value → Value) : Violation → Violation
  | repeatedQubit v => repeatedQubit (f v)
  | e => e

theorem Violation.rename_eq_self {f : Value → Value} {e : Violation}
    (h : ∀ v, e ≠ .repeatedQubit v) : e.rename f = e := by
  cases e with
  | repeatedQubit v => exact absurd rfl (h v)
  | _ => rfl

/-! ## Checks that name no handle -/

/-- No violation of the check names a handle. -/
def Nameless (x : Check Unit) : Prop := ∀ c v, ¬ Fails x c (.repeatedQubit v)

theorem nameless_pure : Nameless (pure ()) := fun _ _ => not_fails_pure

theorem nameless_throw {e : Violation} (h : ∀ v, e ≠ .repeatedQubit v) : Nameless (throw e) :=
  fun _ v hfails => h v (fails_throw.1 hfails).symm

theorem nameless_bind {x : Check Unit} {f : Unit → Check Unit} (hx : Nameless x)
    (hf : Nameless (f ())) : Nameless (x >>= f) := by
  intro c v h
  rcases fails_bind.1 h with h | ⟨m, -, h⟩
  · exact hx c v h
  · exact hf m v h

theorem nameless_forM {α : Type} {f : α → Check Unit} (hf : ∀ a, Nameless (f a)) (as : List α) :
    Nameless (forM as f) := by
  induction as with
  | nil => exact nameless_pure
  | cons a as ih =>
    rw [List.forM_cons]
    exact nameless_bind (hf a) ih

theorem nameless_ofResults {x : Check Unit} (hx : Nameless x) :
    Nameless (x.adapt Violation.ofResults) := by
  intro c v h
  obtain ⟨e, he, hv⟩ := fails_adapt.1 h
  cases e with
  | repeatedQubit w => exact hx c w he
  | _ => cases hv

theorem nameless_family (f : Family) (t : Ty) : Nameless (liftM (f.check t)) := by
  intro c v h
  obtain ⟨-, hv⟩ := Family.check_eq_error_iff.1 (fails_lift.1 h)
  cases f <;> cases hv

theorem nameless_bindVar (v : String) (b : Binding) : Nameless (Context.bind v b) := by
  intro c w h
  obtain ⟨a, -, hclash⟩ := fails_bindVar.1 h
  generalize a.denotation = m at hclash
  generalize b.denotation = n at hclash
  cases hclash

theorem nameless_type (k : TyConstraint) (t : Ty) : Nameless (k.check t) := by
  cases k with
  | family f => exact nameless_family f t
  | var v f => exact nameless_bind (nameless_family f t) (nameless_bindVar v _)
  | gateQubits v =>
    cases t with
    | gate n => exact nameless_bindVar v _
    | _ => exact nameless_throw (by simp)

theorem nameless_range (k : RangeConstraint) (ts : List Ty) : Nameless (k.check ts) :=
  nameless_bind (nameless_forM (nameless_family k.element) ts) (nameless_bindVar k.name _)

theorem nameless_gate (k : GateConstraint) (a : Attribute) : Nameless (k.check a) := by
  cases a with
  | gate g => exact nameless_type k.inner g.ty
  | _ => exact nameless_throw (by simp)

/-! ## Checks that differ by a renaming -/

/-- The second check answers as the first one, with the handles of violations replaced. -/
def Renames (f : Value → Value) (x y : Check Unit) : Prop :=
  ∀ c, outcome y c = ((outcome x c).1.mapError (Violation.rename f), (outcome x c).2)

variable {f : Value → Value}

theorem Nameless.renames {x : Check Unit} (h : Nameless x) : Renames f x x := by
  intro c
  have hno : ∀ v, (outcome x c).1 ≠ .error (.repeatedQubit v) := fun v => h c v
  rcases hx : outcome x c with ⟨r, d⟩
  rw [hx] at hno
  cases r with
  | ok => rfl
  | error e =>
    have he : e.rename f = e := Violation.rename_eq_self fun v hv => hno v (by rw [hv])
    show (_, d) = (Except.error (e.rename f), d)
    rw [he]

theorem renames_bind {x y : Check Unit} {k l : Unit → Check Unit} (hx : Renames f x y)
    (hk : Renames f (k ()) (l ())) : Renames f (x >>= k) (y >>= l) := by
  intro c
  rw [outcome_bind, outcome_bind, hx]
  rcases outcome x c with ⟨_ | _, d⟩
  · rfl
  · exact hk d

/-- The first repeated value moves with the values, if different values stay different. -/
theorem Instruction.firstRepeated?_map {seen qubits : List Value}
    (hinj : Set.InjOn f {v | v ∈ seen ++ qubits}) :
    firstRepeated? (seen.map f) (qubits.map f) = (firstRepeated? seen qubits).map f := by
  induction qubits generalizing seen with
  | nil => rfl
  | cons v rest ih =>
    have hmem : f v ∈ seen.map f ↔ v ∈ seen := by
      refine ⟨fun h => ?_, List.mem_map_of_mem⟩
      obtain ⟨w, hw, hwv⟩ := List.mem_map.1 h
      have heq : w = v := hinj (by simp [hw]) (by simp) hwv
      exact heq ▸ hw
    rw [List.map_cons, firstRepeated?, firstRepeated?]
    by_cases hv : v ∈ seen
    · rw [if_pos hv, if_pos (hmem.2 hv), Option.map_some]
    · rw [if_neg hv, if_neg (mt hmem.1 hv)]
      have hperm : (v :: seen ++ rest).Perm (seen ++ v :: rest) := List.perm_middle.symm
      rw [← List.map_cons]
      exact ih (hinj.mono fun w hw => hperm.mem_iff.1 hw)

theorem Instruction.renames_checkDistinct {qubits : List Value}
    (hinj : Set.InjOn f {v | v ∈ qubits}) :
    Renames f (checkDistinct qubits) (checkDistinct (qubits.map f)) := by
  intro c
  have hmap : firstRepeated? [] (qubits.map f) = (firstRepeated? [] qubits).map f :=
    @firstRepeated?_map f [] qubits hinj
  unfold checkDistinct
  rw [hmap]
  cases firstRepeated? [] qubits <;> rfl

/-! ## The rules -/

namespace Instruction

@[simp] theorem name_rename (f : Value → Value) (i : Instruction) : (i.rename f).name = i.name := by
  cases i <;> rfl

variable {ts rs : List Ty}

theorem nameless_wrongCount (i : Instruction) (slot : Slot) (n : Nat) (types : List Ty) :
    Nameless (throw (i.wrongCount slot n types)) := nameless_throw (by simp [wrongCount])

/-- The operands, and then the handles. -/
theorem renames_application {ins : List Value} (hinj : Set.InjOn f {v | v ∈ ins}) :
    Renames f (gateQubits.check ts >>= fun _ => checkDistinct ins)
      (gateQubits.check ts >>= fun _ => checkDistinct (ins.map f)) :=
  renames_bind (nameless_range gateQubits ts).renames (renames_checkDistinct hinj)

/-- Only gate applications look at handles; the rules of the other instructions do not. -/
theorem renames_rule {i : Instruction} (hinj : Set.InjOn f {v | v ∈ i.operands}) :
    Renames f (i.rule ts rs) ((i.rename f).rule ts rs) := by
  cases i with
  | constant | quaternion | compose | xzs | qrefMeasure | qssaMeasure =>
    -- Every branch is made of checks that are given types only.
    refine Nameless.renames ?_
    unfold rule
    dsimp only
    split <;> simp only [List.forM_eq_forM, nameless_bind, nameless_forM, nameless_family,
      nameless_type, nameless_gate, nameless_wrongCount, implies_true]
  | qrefGate gate ins =>
    cases rs with
    | nil =>
      exact renames_bind (nameless_gate _ _).renames (renames_application hinj)
    | cons r rs => exact (nameless_wrongCount _ _ _ _).renames
  | qrefDynGate ins gate =>
    have hins : Set.InjOn f {v | v ∈ ins} := hinj.mono fun v hv => List.mem_append_left _ hv
    cases rs with
    | cons r rs => exact (nameless_wrongCount _ _ _ _).renames
    | nil =>
      unfold rule Instruction.rename
      dsimp only
      cases ts.getLast? with
      | none => exact (nameless_wrongCount _ _ _ _).renames
      | some t => exact renames_bind (nameless_type _ _).renames (renames_application hins)
  | qssaGate gate ins outs =>
    exact renames_bind (nameless_gate _ _).renames (renames_bind (nameless_range _ _).renames
      (renames_bind (nameless_ofResults (nameless_range _ _)).renames
        (renames_checkDistinct hinj)))

/-- **Renaming handles does not change the check**, apart from the handle that is reported. -/
theorem check_rename {i : Instruction} (hinj : Set.InjOn f {v | v ∈ i.operands}) (ts rs : List Ty) :
    (i.rename f).check ts rs = (i.check ts rs).mapError (Violation.rename f) :=
  congrArg Prod.fst (renames_rule hinj {})

end Instruction

end GateIR

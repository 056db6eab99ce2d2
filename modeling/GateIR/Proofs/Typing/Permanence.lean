import GateIR.Proofs.Typing.Failure
import GateIR.Proofs.Typing.Inspection

/-!
# Bound variables stay as they are

A context changes by steps: a variable is bound, or a constraint is checked on a value. A step may
fail, and the steps after it go on with the context that it leaves.

**Step (`Step.outcome_cases`).** A step that fails leaves its context as it is. A step that passes
extends it by the pairs that it brings, and a pair of a variable that is bound adds nothing.

**Run (`get?_run`).** So a variable keeps its binding to the end of a run.

**Theorem (`bound_stays`).** In a run of any length, a variable keeps its binding from the moment it
has one, also when it agrees later with a list that is written in another way. A step that passes
leaves the variable that it names bound, and touches no other.
-/

namespace GateIR

/-! ## The variable of a constraint -/

/-- The variable that a constraint names. -/
def TyConstraint.named? : TyConstraint → Option String
  | family _ => none
  | var v _ | gateQubits v => some v

/-- The variable that a constraint names. -/
def Requirement.named? : Requirement → Option String
  | type k _ => k.named?
  | range k _ => some k.name
  | gate k _ => k.inner.named?

theorem TyConstraint.named?_of_mem {k : TyConstraint} {t : Ty} {p : String × Binding}
    (h : p ∈ k.bindings t) : k.named? = some p.1 := by
  cases k with
  | family f => cases h
  | var v f => rw [List.mem_singleton.1 h]; rfl
  | gateQubits v =>
    cases t with
    | gate n => rw [List.mem_singleton.1 h]; rfl
    | _ => cases h

theorem Requirement.named?_of_mem {r : Requirement} {p : String × Binding}
    (h : p ∈ r.bindings) : r.named? = some p.1 := by
  cases r with
  | type k t => exact TyConstraint.named?_of_mem h
  | range k ts => rw [List.mem_singleton.1 h]; rfl
  | gate k a =>
    cases a with
    | gate g => exact TyConstraint.named?_of_mem (k := k.inner) h
    | _ => cases h

/-- A type of the right kind brings something to the variable. -/
theorem TyConstraint.exists_bindings {k : TyConstraint} {t : Ty} {v : String}
    (hkind : k.inspect t = .ok ()) (hv : k.named? = some v) : ∃ b, k.bindings t = [(v, b)] := by
  cases k with
  | family f => cases hv
  | var w f => cases hv; exact ⟨_, rfl⟩
  | gateQubits w =>
    cases hv
    cases t with
    | gate n => exact ⟨_, rfl⟩
    | _ => cases hkind

theorem Requirement.exists_bindings {r : Requirement} {v : String} (hkind : r.inspect = .ok ())
    (hv : r.named? = some v) : ∃ b, r.bindings = [(v, b)] := by
  cases r with
  | type k t => exact TyConstraint.exists_bindings hkind hv
  | range k ts => cases hv; exact ⟨_, rfl⟩
  | gate k a =>
    cases a with
    | gate g => exact TyConstraint.exists_bindings (k := k.inner) hkind hv
    | _ => cases hkind

namespace Context

variable {c d : Context} {v : String} {b : Binding}

/-! ## Steps -/

/-- A change to a context. -/
inductive Step where
  /-- A variable is bound. -/
  | bind (name : String) (b : Binding)
  /-- A constraint is checked on a value. -/
  | check (r : Requirement)

namespace Step

variable {s : Step}

def action : Step → Check Unit
  | bind v b => Context.bind v b
  | check r => r.check

/-- The variable that a step names. -/
def named? : Step → Option String
  | bind v _ => some v
  | check r => r.named?

/-- The pairs that a step brings. -/
def pairs : Step → List (String × Binding)
  | bind v b => [(v, b)]
  | check r => r.bindings

/-- **Step.** A step fails without a trace, or extends its context by what it brings. -/
theorem outcome_cases (s : Step) (c : Context) :
    (∃ e, outcome s.action c = (.error e, c)) ∨
      outcome s.action c = (.ok (), s.pairs.foldl extend c) := by
  cases s with
  | bind v b => exact outcome_bind_cases v b c
  | check r =>
    rw [action, r.outcome_check, outcome_bind, outcome_lift]
    cases r.inspect with
    | error e => exact .inl ⟨e, rfl⟩
    | ok => exact r.outcome_bindAll_cases c

theorem eq_foldl_of_passes (h : Passes s.action c d) : d = s.pairs.foldl extend c := by
  rcases s.outcome_cases c with ⟨e, hs⟩ | hs
  · cases h.symm.trans hs
  · cases h.symm.trans hs
    rfl

/-- A step brings nothing to a variable that it does not name. -/
theorem lookup_pairs (h : s.named? ≠ some v) : s.pairs.lookup v = none := by
  cases hp : s.pairs.lookup v with
  | none => rfl
  | some b =>
    refine absurd ?_ h
    have hmem := mem_of_lookup hp
    cases s with
    | bind w a => rw [(Prod.mk.inj (List.mem_singleton.1 hmem)).1]; rfl
    | check r => exact Requirement.named?_of_mem hmem

/-- A step that passes brings something to the variable that it names. -/
theorem exists_pairs_of_passes (h : Passes s.action c d) (hv : s.named? = some v) :
    ∃ b, s.pairs = [(v, b)] := by
  cases s with
  | bind w b => cases hv; exact ⟨b, rfl⟩
  | check r =>
    refine Requirement.exists_bindings ?_ hv
    have hcheck : Passes (do r.inspect; bindAll r.bindings : Check Unit) c d :=
      (r.outcome_check c).symm.trans h
    obtain ⟨m, hkind, -⟩ := passes_bind.1 hcheck
    exact (passes_lift.1 hkind).1

end Step

/-! ## Runs -/

/-- The context after a step, whether or not it fails. -/
def next (c : Context) (s : Step) : Context := (outcome s.action c).2

/-- The context after a run of steps. -/
def run (c : Context) (steps : List Step) : Context := steps.foldl next c

theorem run_append (c : Context) (before after : List Step) :
    c.run (before ++ after) = (c.run before).run after := List.foldl_append

theorem get?_next {s : Step} (h : c.get? v = some b) : (c.next s).get? v = some b := by
  rw [next]
  rcases s.outcome_cases c with ⟨e, hs⟩ | hs
  · rw [hs]
    exact h
  · rw [hs, get?_foldl_extend, h, Option.some_or]

/-- **Run.** A variable keeps its binding to the end of a run. -/
theorem get?_run (steps : List Step) (h : c.get? v = some b) : (c.run steps).get? v = some b := by
  induction steps generalizing c with
  | nil => exact h
  | cons s steps ih => exact ih (get?_next h)

/-- **Bound variables stay as they are**, failing steps change nothing, and passing steps bind the
variable that they name if it was free. -/
theorem bound_stays (c : Context) (before : List Step) (s : Step) (after : List Step) :
    (∀ v b, (c.run before).get? v = some b → (c.run (before ++ s :: after)).get? v = some b) ∧
      (∀ e, Fails s.action (c.run before) e → c.run (before ++ [s]) = c.run before) ∧
      ∀ d, Passes s.action (c.run before) d → c.run (before ++ [s]) = d ∧
        (∀ v, s.named? ≠ some v → d.get? v = (c.run before).get? v) ∧
        ∀ v, s.named? = some v → ∃ b, d.get? v = some b := by
  simp only [run_append]
  generalize c.run before = m
  refine ⟨fun v b h => get?_run _ h, ?_, ?_⟩
  · intro e h
    show (outcome s.action m).2 = m
    rcases s.outcome_cases m with ⟨e', hs⟩ | hs
    · rw [hs]
    · rw [Fails, hs] at h
      cases h
  · intro d h
    obtain rfl := Step.eq_foldl_of_passes h
    refine ⟨congrArg Prod.snd h, ?_, ?_⟩
    · intro v hv
      rw [get?_foldl_extend, Step.lookup_pairs hv, Option.or_none]
    · intro v hv
      obtain ⟨b, hb⟩ := Step.exists_pairs_of_passes h hv
      rw [get?_foldl_extend, hb, List.lookup_cons_self]
      exact Option.isSome_iff_exists.1 (by simp)

/-- A gate on two qubits, which gives the length of the list. -/
def pairGate : Step := .check (.gate (.qubits "Q") (.gate .cnot))

/-- Operands one of which is the outcome of a measurement. -/
def measuredOperand : Step := .check (.range (.qubits "Q") [.qubit, .bool])

/-- Two qubits, as a list. -/
def pairOperands : Step := .check (.range (.qubits "Q") [.qubit, .qubit])

/-- The length stays when the list itself is accepted, and nothing comes of the refused list. -/
theorem bound_stays_writtenOut :
    ((run {} [pairGate]).get? "Q" = some (.qubits 2) ∧
        (run {} [pairGate, measuredOperand, pairOperands]).get? "Q" = some (.qubits 2)) ∧
      (Fails measuredOperand.action (run {} [pairGate]) (.typeMismatch .qubit .bool) ∧
        run {} [pairGate, measuredOperand] = run {} [pairGate]) ∧
      Passes pairGate.action {} ⟨[("Q", .qubits 2)]⟩ ∧ pairGate.named? ≠ some "T" ∧
        Context.get? ⟨[("Q", .qubits 2)]⟩ "T" = none ∧ pairGate.named? = some "Q" ∧
        ∃ b, Context.get? ⟨[("Q", .qubits 2)]⟩ "Q" = some b := by
  have hbound : (run {} [pairGate]).get? "Q" = some (.qubits 2) := rfl
  have hfails : Fails measuredOperand.action (run {} [pairGate]) (.typeMismatch .qubit .bool) := rfl
  have hpasses : Passes pairGate.action {} ⟨[("Q", .qubits 2)]⟩ := rfl
  have hother : pairGate.named? ≠ some "T" := by decide
  obtain ⟨hstays, hunchanged, -⟩ := bound_stays {} [pairGate] measuredOperand [pairOperands]
  obtain ⟨-, -, hextends⟩ := bound_stays {} [] pairGate []
  obtain ⟨-, huntouched, hnamed⟩ := hextends _ hpasses
  exact ⟨⟨hbound, hstays _ _ hbound⟩, ⟨hfails, hunchanged _ hfails⟩, hpasses, hother,
    huntouched _ hother, rfl, hnamed _ rfl⟩

end Context

end GateIR

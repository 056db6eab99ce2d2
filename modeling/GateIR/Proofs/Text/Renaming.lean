import GateIR.Proofs.Text.Scoping
import GateIR.Text.Scope

/-!
# The names of values do not matter

Resolving looks names up and compares them, and reports them. `Program.rename` replaces every name of
a program, where it is defined and where it is used.

**Theorem (`toCircuit_rename`).** A renaming that keeps the names of a program apart does not change
its circuit. Where there is no circuit, the same error is reported with its name replaced.

`Scope.Renamed` says of two scopes that they build the same circuit, and that a name stands for the
same value in the one as its replacement does in the other. `Mirrors` says of two steps that they keep
this and that they answer alike. It holds of a sequence when it holds of the parts, so that a program
is followed statement by statement. Only naming a value needs that names are kept apart: a new name
must not cover an old one.
-/

namespace GateIR.Text

/-! ## Replacing names -/

namespace Body

/-- The body with every operand replaced. -/
def rename (r : String → String) : Body → Body
  | constant g => constant g
  | quaternion t real i j k => quaternion t (r real) (r i) (r j) (r k)
  | compose lhs rhs t => compose (r lhs) (r rhs) t
  | xzs x z phase => xzs (r x) (r z) (r phase)
  | qrefGate a qubits types => qrefGate a (qubits.map r) types
  | qrefDynGate g qubits types => qrefDynGate (r g) (qubits.map r) types
  | qrefMeasure q => qrefMeasure (r q)
  | qssaGate a qubits types => qssaGate a (qubits.map r) types
  | qssaMeasure q => qssaMeasure (r q)

@[simp] theorem name_rename (r : String → String) (b : Body) : (b.rename r).name = b.name := by
  cases b <;> rfl

@[simp] theorem resultCount_rename (r : String → String) (b : Body) :
    (b.rename r).resultCount = b.resultCount := by
  cases b <;> simp [rename, resultCount]

end Body

def Argument.rename (r : String → String) (a : Argument) : Argument := { a with name := r a.name }

def Statement.rename (r : String → String) (s : Statement) : Statement :=
  { s with results := s.results.map r, body := s.body.rename r }

namespace Program

/-- The program with every name replaced. -/
def rename (r : String → String) (p : Program) : Program where
  arguments := p.arguments.map (Argument.rename r)
  statements := p.statements.map (Statement.rename r)

/-- The names that are defined or used, used names also where nothing defines them. -/
def mentioned (p : Program) : List String :=
  p.names ++ p.statements.flatMap fun s => s.body.operands

end Program

/-- The error with the name of a value replaced. -/
def Error.rename (r : String → String) : Error → Error
  | undefinedValue n => undefinedValue (r n)
  | duplicateName n => duplicateName (r n)
  | misdeclared n declared actual => misdeclared (r n) declared actual
  | e => e

/-! ## Scopes that differ by a renaming -/

/-- Both scopes build the same circuit, and the replacement of a name stands for the value of the
name. -/
structure Scope.Renamed (r : String → String) (names : Set String) (s t : Scope) : Prop where
  circuit : t.circuit = s.circuit
  lookup : ∀ n ∈ names, t.names.lookup (r n) = s.names.lookup n

variable {r : String → String} {names : Set String} {s t : Scope}

/-- A new name covers no old one, because the replacements are different too. -/
theorem Scope.Renamed.define (h : s.Renamed r names t) (hinj : Set.InjOn r names) {n : String}
    (hn : n ∈ names) (v : Value) :
    Scope.Renamed r names { s with names := (n, v) :: s.names }
      { t with names := (r n, v) :: t.names } where
  circuit := h.circuit
  lookup := by
    intro m hm
    rw [List.lookup_cons, List.lookup_cons]
    by_cases hmn : m = n
    · rw [beq_iff_eq.2 hmn, beq_iff_eq.2 (congrArg r hmn)]
    · have hne : r m ≠ r n := fun heq => hmn (hinj hm hn heq)
      rw [beq_eq_false_iff_ne.2 hmn, beq_eq_false_iff_ne.2 hne]
      exact h.lookup m hm

namespace Resolve

variable {α β γ : Type}

/-- The two steps give the same value in scopes that differ by the renaming, or the same error with
its name replaced. -/
inductive Alike (r : String → String) (names : Set String) :
    Except Error (α × Scope) → Except Error (α × Scope) → Prop
  | ok {s t : Scope} (a : α) : s.Renamed r names t → Alike r names (.ok (a, s)) (.ok (a, t))
  | error (e : Error) : Alike r names (.error e) (.error (e.rename r))

/-- The second step does in a renamed scope what the first one does. -/
def Mirrors (r : String → String) (names : Set String) (x y : Resolve α) : Prop :=
  ∀ s t, s.Renamed r names t → Alike r names (x.run s) (y.run t)

theorem mirrors_pure (a : α) : Mirrors r names (pure a) (pure a) := fun _ _ h => .ok a h

theorem mirrors_throw (e : Error) :
    Mirrors r names (throw e : Resolve α) (throw (e.rename r)) := fun _ _ _ => .error e

theorem mirrors_bind {x y : Resolve α} {f g : α → Resolve β} (hx : Mirrors r names x y)
    (hf : ∀ a, Mirrors r names (f a) (g a)) : Mirrors r names (x >>= f) (y >>= g) := by
  intro s t h
  have halike := hx s t h
  rw [StateT.run_bind, StateT.run_bind]
  generalize x.run s = before at halike ⊢
  generalize y.run t = after at halike ⊢
  cases halike with
  | ok a h' => exact hf a _ _ h'
  | error e => exact .error e

/-- Steps that look at the scope see the same circuit and the same values. -/
theorem mirrors_get {f g : Scope → Resolve α}
    (hf : ∀ s t, s.Renamed r names t → Mirrors r names (f s) (g t)) :
    Mirrors r names (get >>= f) (get >>= g) := fun s t h => hf s t h s t h

theorem mirrors_set (h : s.Renamed r names t) : Mirrors r names (set s) (set t) :=
  fun _ _ _ => .ok _ h

theorem mirrors_forM {f : α → Resolve Unit} {g : β → Resolve Unit} {h : α → β} {as : List α}
    (hf : ∀ a ∈ as, Mirrors r names (f a) (g (h a))) :
    Mirrors r names (forM as f) (forM (as.map h) g) := by
  induction as with
  | nil => exact mirrors_pure ()
  | cons a as ih =>
    obtain ⟨ha, has⟩ := List.forall_mem_cons.1 hf
    rw [List.map_cons, List.forM_cons, List.forM_cons]
    exact mirrors_bind ha fun _ => ih has

theorem mirrors_mapM {f : α → Resolve γ} {g : β → Resolve γ} {h : α → β} {as : List α}
    (hf : ∀ a ∈ as, Mirrors r names (f a) (g (h a))) :
    Mirrors r names (as.mapM f) ((as.map h).mapM g) := by
  induction as with
  | nil => exact mirrors_pure []
  | cons a as ih =>
    obtain ⟨ha, has⟩ := List.forall_mem_cons.1 hf
    rw [List.map_cons, List.mapM_cons, List.mapM_cons]
    exact mirrors_bind ha fun c => mirrors_bind (ih has) fun cs => mirrors_pure (c :: cs)

/-! ## Parts of statements -/

/-- Errors of the circuit speak of handles and not of names. -/
theorem mirrors_ofCircuit (x : Except CircuitError α) :
    Mirrors r names (ofCircuit x) (ofCircuit x) := by
  cases x with
  | ok a => exact mirrors_pure a
  | error e => exact mirrors_throw (.inCircuit e)

theorem mirrors_build (b : Builder α) : Mirrors r names (build b) (build b) := by
  refine mirrors_get fun s t h => ?_
  rw [h.circuit]
  exact mirrors_bind (mirrors_set ⟨rfl, h.lookup⟩) fun _ => mirrors_ofCircuit _

variable {n : String}

theorem mirrors_define (hinj : Set.InjOn r names) (hn : n ∈ names) (v : Value) :
    Mirrors r names (define n v) (define (r n) v) := by
  refine mirrors_get fun s t h => ?_
  rw [h.lookup n hn]
  split
  · exact mirrors_throw (.duplicateName n)
  · exact mirrors_set (h.define hinj hn v)

theorem mirrors_value (hn : n ∈ names) : Mirrors r names (value n) (value (r n)) := by
  refine mirrors_get fun s t h => ?_
  rw [h.lookup n hn]
  cases s.names.lookup n with
  | none => exact mirrors_throw (.undefinedValue n)
  | some v => exact mirrors_pure v

theorem mirrors_typedValue (hn : n ∈ names) (declared : Ty) :
    Mirrors r names (typedValue n declared) (typedValue (r n) declared) := by
  refine mirrors_bind (mirrors_value hn) fun v => mirrors_get fun s t h => ?_
  rw [h.circuit]
  refine mirrors_bind (mirrors_ofCircuit _) fun actual => ?_
  split
  · exact mirrors_pure v
  · exact mirrors_throw (.misdeclared n declared actual)

theorem mirrors_typedValues {ns : List String} (hns : ∀ n ∈ ns, n ∈ names) (instruction : String)
    (types : List Ty) :
    Mirrors r names (typedValues instruction ns types)
      (typedValues instruction (ns.map r) types) := by
  unfold typedValues
  rw [List.length_map, List.zip_map_left]
  split
  · refine mirrors_mapM fun p hp => ?_
    exact mirrors_typedValue (hns p.1 (List.of_mem_zip hp).1) p.2
  · exact mirrors_throw (.typeCount instruction ns.length types.length)

/-! ## Programs -/

theorem mirrors_body {b : Body} (h : ∀ n ∈ b.operands, n ∈ names) :
    Mirrors r names (body b) (body (b.rename r)) := by
  have hresult : ∀ v : Value, Mirrors r names (pure [v]) (pure [v]) := fun v => mirrors_pure [v]
  cases b with
  | constant g => exact mirrors_bind (mirrors_build _) hresult
  | quaternion t real i j k =>
    simp only [Body.operands, List.forall_mem_cons] at h
    obtain ⟨hreal, hi, hj, hk, -⟩ := h
    refine mirrors_bind (mirrors_typedValue hreal t) fun _ => ?_
    refine mirrors_bind (mirrors_typedValue hi t) fun _ => ?_
    refine mirrors_bind (mirrors_typedValue hj t) fun _ => ?_
    refine mirrors_bind (mirrors_typedValue hk t) fun _ => ?_
    exact mirrors_bind (mirrors_build _) hresult
  | compose lhs rhs t =>
    simp only [Body.operands, List.forall_mem_cons] at h
    obtain ⟨hlhs, hrhs, -⟩ := h
    refine mirrors_bind (mirrors_value hlhs) fun _ => ?_
    refine mirrors_bind (mirrors_value hrhs) fun _ => ?_
    exact mirrors_bind (mirrors_build _) hresult
  | xzs x z phase =>
    simp only [Body.operands, List.forall_mem_cons] at h
    obtain ⟨hx, hz, hphase, -⟩ := h
    refine mirrors_bind (mirrors_value hx) fun _ => ?_
    refine mirrors_bind (mirrors_value hz) fun _ => ?_
    refine mirrors_bind (mirrors_value hphase) fun _ => ?_
    exact mirrors_bind (mirrors_build _) hresult
  | qrefGate a qubits types =>
    refine mirrors_bind (mirrors_typedValues h _ types) fun _ => ?_
    exact mirrors_bind (mirrors_build _) fun _ => mirrors_pure []
  | qrefDynGate g qubits types =>
    have hqubits : ∀ n ∈ qubits, n ∈ names := fun n hn => h n (List.mem_append_left _ hn)
    have hg : g ∈ names := h g (List.mem_append_right _ List.mem_cons_self)
    refine mirrors_bind (mirrors_typedValues hqubits _ types) fun _ => ?_
    refine mirrors_bind (mirrors_value hg) fun _ => ?_
    exact mirrors_bind (mirrors_build _) fun _ => mirrors_pure []
  | qrefMeasure q =>
    refine mirrors_bind (mirrors_value (h q List.mem_cons_self)) fun _ => ?_
    exact mirrors_bind (mirrors_build _) hresult
  | qssaGate a qubits types =>
    exact mirrors_bind (mirrors_typedValues h _ types) fun _ => mirrors_build _
  | qssaMeasure q =>
    refine mirrors_bind (mirrors_value (h q List.mem_cons_self)) fun _ => ?_
    exact mirrors_bind (mirrors_build _) fun outs => mirrors_pure [outs.1, outs.2]

theorem mirrors_statement (hinj : Set.InjOn r names) {stmt : Statement}
    (hresults : ∀ n ∈ stmt.results, n ∈ names) (hoperands : ∀ n ∈ stmt.body.operands, n ∈ names) :
    Mirrors r names (statement stmt) (statement (stmt.rename r)) := by
  unfold statement Statement.rename
  rw [List.length_map, Body.resultCount_rename, Body.name_rename]
  split
  · refine mirrors_bind (mirrors_body hoperands) fun values => ?_
    rw [List.zip_map_left]
    refine mirrors_forM fun p hp => ?_
    exact mirrors_define hinj (hresults p.1 (List.of_mem_zip hp).1) p.2
  · exact mirrors_throw (.resultCount stmt.body.name stmt.body.resultCount stmt.results.length)

theorem mirrors_argument (hinj : Set.InjOn r names) {a : Argument} (ha : a.name ∈ names) :
    Mirrors r names (argument a) (argument (a.rename r)) :=
  mirrors_bind (mirrors_build _) fun v => mirrors_define hinj ha v

theorem mirrors_program {p : Program} (hinj : Set.InjOn r {n | n ∈ p.mentioned}) :
    Mirrors r {n | n ∈ p.mentioned} (program p) (program (p.rename r)) := by
  refine mirrors_bind (mirrors_forM fun a ha => ?_) fun _ => mirrors_forM fun stmt hstmt => ?_
  · exact mirrors_argument hinj (List.mem_append_left _ (Program.mem_names_of_mem_arguments ha))
  · refine mirrors_statement hinj (fun n hn => ?_) (fun n hn => ?_)
    · exact List.mem_append_left _ (Program.mem_names_of_mem_results hstmt hn)
    · exact List.mem_append_right _ (List.mem_flatMap.2 ⟨stmt, hstmt, hn⟩)

end Resolve

namespace Program

/-- **The names of values do not matter**, apart from the name that is reported. -/
theorem toCircuit_rename {p : Program} (hinj : Set.InjOn r {n | n ∈ p.mentioned}) :
    (p.rename r).toCircuit = p.toCircuit.mapError (Error.rename r) := by
  have hempty : Scope.Renamed r {n | n ∈ p.mentioned} {} {} := ⟨rfl, fun _ _ => rfl⟩
  have halike := Resolve.mirrors_program hinj _ _ hempty
  unfold toCircuit
  generalize (Resolve.program p).run {} = x at halike
  generalize (Resolve.program (p.rename r)).run {} = y at halike
  cases halike with
  | ok a h => exact congrArg Except.ok h.circuit
  | error e => rfl

/-- A gate value that is taken for a qubit, next to a qubit. -/
def gateTakenForQubit : Program where
  arguments := [⟨"a", .qubit⟩, ⟨"b", .gate 1⟩]
  statements := [⟨[], .qrefGate (.gate .cnot) ["a", "b"] [.qubit, .qubit], 2⟩]

theorem toCircuit_rename_gateTakenForQubit :
    Set.InjOn (Equiv.swap "a" "b") {n | n ∈ gateTakenForQubit.mentioned} ∧
      gateTakenForQubit.toCircuit = .error (.misdeclared "b" .qubit (.gate 1)) ∧
      (gateTakenForQubit.rename (Equiv.swap "a" "b")).toCircuit =
        .error (.misdeclared "a" .qubit (.gate 1)) := by
  have hinj : Set.InjOn (Equiv.swap "a" "b") {n | n ∈ gateTakenForQubit.mentioned} :=
    (Equiv.injective _).injOn
  have hfails : gateTakenForQubit.toCircuit = .error (.misdeclared "b" .qubit (.gate 1)) := rfl
  refine ⟨hinj, hfails, ?_⟩
  rw [toCircuit_rename hinj, hfails]
  rfl

end Program

end GateIR.Text

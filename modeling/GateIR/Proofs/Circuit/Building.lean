import GateIR.Circuit.Builder
import GateIR.Proofs.Circuit.Table

/-!
# What the builder does

**Calls.** A `Call` is one use of the builder with arbitrary handles, and `Circuit.built` is the
circuit after a sequence of calls from the empty one. A call that fails is followed by the next one.

**Effect (`outcome_action`).** A call fails exactly when one of its handles is not in the value
table; it then names the first such handle and changes nothing. Otherwise it adds its arguments
(`withArgument`), or its instruction with the table entries of its results (`withInstruction`), and
nothing else.

**Growth (`grows_built`).** A built circuit grows out of the empty one by single arguments and by
instructions with known operands and fresh results. Growth only ever appends, so what is said of a
value or an instruction stays true.
-/

namespace GateIR

namespace Circuit

variable {c : Circuit}

/-! ## Growing a circuit -/

/-- The handle that comes `j` places after the last one in the table. -/
def upcoming (c : Circuit) (j : Nat) : Value := .ofIndex (c.table.size + j)

/-- The handles of the next `n` values. -/
def fresh (c : Circuit) (n : Nat) : List Value := (List.range n).map c.upcoming

/-- The circuit with one more argument. -/
def withArgument (c : Circuit) (ty : Ty) : Circuit :=
  { c with
    arguments := c.arguments.push (c.upcoming 0)
    table := c.table.push ⟨ty, .argument c.arguments.size⟩ }

/-- The table entries of the results of the next instruction. -/
def resultEntries (c : Circuit) (types : List Ty) : List Entry :=
  types.mapIdx fun j t => ⟨t, .result c.instructions.size j⟩

/-- The circuit with one more instruction, whose results have the given types. -/
def withInstruction (c : Circuit) (i : Instruction) (types : List Ty) : Circuit :=
  { c with
    table := c.table ++ (c.resultEntries types).toArray
    instructions := c.instructions.push i }

@[simp] theorem length_fresh (c : Circuit) (n : Nat) : (c.fresh n).length = n := by
  simp [fresh]

@[simp] theorem length_resultEntries (c : Circuit) (types : List Ty) :
    (c.resultEntries types).length = types.length := by
  simp [resultEntries]

end Circuit

/-- The types that an instruction gives to its results; only a composition may be declared to have
any. -/
inductive Instruction.Fixes : Instruction → List Ty → Prop
  | constant {g : Gate} {out : Value} : Fixes (.constant g out) [.gate g.arity]
  | quaternion {real i j k out : Value} : Fixes (.quaternion real i j k out) [.gate 1]
  | compose {lhs rhs out : Value} {ty : Ty} : Fixes (.compose lhs rhs out) [ty]
  | xzs {x z phase out : Value} : Fixes (.xzs x z phase out) [.gate 1]
  | qrefGate {a : Attribute} {ins : List Value} : Fixes (.qrefGate a ins) []
  | qrefDynGate {gate : Value} {ins : List Value} : Fixes (.qrefDynGate ins gate) []
  | qrefMeasure {qubit out : Value} : Fixes (.qrefMeasure qubit out) [.bool]
  | qssaGate {a : Attribute} {ins outs : List Value} :
      Fixes (.qssaGate a ins outs) (List.replicate ins.length .qubit)
  | qssaMeasure {qubit out outQubit : Value} :
      Fixes (.qssaMeasure qubit out outQubit) [.bool, .qubit]

/-- One part more. -/
inductive Circuit.Grows : Circuit → Circuit → Prop
  | argument {c : Circuit} (ty : Ty) : Grows c (c.withArgument ty)
  | instruction {c : Circuit} {i : Instruction} {types : List Ty} :
      i.results = c.fresh types.length → (∀ v ∈ i.operands, c.Knows v) → i.Fixes types →
      Grows c (c.withInstruction i types)

/-! ## Calls -/

/-- A call of the builder. -/
inductive Call where
  | argument (ty : Ty)
  /-- Several arguments that are qubits. -/
  | qubits (n : Nat)
  | constant (gate : Gate)
  | quaternion (real i j k : Value)
  | composeAs (lhs rhs : Value) (ty : Ty)
  | compose (lhs rhs : Value)
  | xzs (x z phase : Value)
  | qrefGate (gate : Attribute) (ins : List Value)
  | qrefDynGate (gate : Value) (ins : List Value)
  | qrefMeasure (qubit : Value)
  | qssaGate (gate : Attribute) (ins : List Value)
  | qssaMeasure (qubit : Value)

namespace Call

/-- The builder action of a call, without the handles that it gives. -/
def action : Call → Builder Unit
  | argument ty => discard (Circuit.addArgument ty)
  | qubits n => discard (Circuit.addQubits n)
  | constant gate => discard (Circuit.constant gate)
  | quaternion real i j k => discard (Circuit.quaternion real i j k)
  | composeAs lhs rhs ty => discard (Circuit.composeAs lhs rhs ty)
  | compose lhs rhs => discard (Circuit.compose lhs rhs)
  | xzs x z phase => discard (Circuit.xzs x z phase)
  | qrefGate gate ins => Circuit.qrefGate gate ins
  | qrefDynGate gate ins => Circuit.qrefDynGate gate ins
  | qrefMeasure qubit => discard (Circuit.qrefMeasure qubit)
  | qssaGate gate ins => discard (Circuit.qssaGate gate ins)
  | qssaMeasure qubit => discard (Circuit.qssaMeasure qubit)

/-- The handles that a call is given, in the order in which it looks at them. -/
def handles : Call → List Value
  | argument _ | qubits _ | constant _ => []
  | quaternion real i j k => [real, i, j, k]
  | composeAs lhs rhs _ | compose lhs rhs => [lhs, rhs]
  | xzs x z phase => [x, z, phase]
  | qrefGate _ ins | qssaGate _ ins => ins
  | qrefDynGate gate ins => ins ++ [gate]
  | qrefMeasure qubit | qssaMeasure qubit => [qubit]

/-- The types of the arguments that a call adds. -/
def argumentTypes : Call → List Ty
  | argument ty => [ty]
  | qubits n => List.replicate n .qubit
  | _ => []

/-- The instruction that a call adds to a circuit, and the types of its results. A composition has
the type of its first gate unless another is declared. -/
def added? (c : Circuit) : Call → Option (Instruction × List Ty)
  | argument _ | qubits _ => none
  | constant gate => some (.constant gate (c.upcoming 0), [gate.ty])
  | quaternion real i j k => some (.quaternion real i j k (c.upcoming 0), [.gate 1])
  | composeAs lhs rhs ty => some (.compose lhs rhs (c.upcoming 0), [ty])
  | compose lhs rhs =>
    (c.typeOf lhs).toOption.map fun ty => (.compose lhs rhs (c.upcoming 0), [ty])
  | xzs x z phase => some (.xzs x z phase (c.upcoming 0), [.gate 1])
  | qrefGate gate ins => some (.qrefGate gate ins, [])
  | qrefDynGate gate ins => some (.qrefDynGate ins gate, [])
  | qrefMeasure qubit => some (.qrefMeasure qubit (c.upcoming 0), [.bool])
  | qssaGate gate ins =>
    some (.qssaGate gate ins (c.fresh ins.length), List.replicate ins.length .qubit)
  | qssaMeasure qubit =>
    some (.qssaMeasure qubit (c.upcoming 0) (c.upcoming 1), [.bool, .qubit])

/-- The circuit after a call whose handles are all known. -/
def grow (c : Circuit) (call : Call) : Circuit :=
  match call.added? c with
  | some (i, types) => c.withInstruction i types
  | none => call.argumentTypes.foldl Circuit.withArgument c

/-- An instruction that a call adds has the handles of the call as operands, and fresh results. -/
theorem spec_of_added? {c : Circuit} {call : Call} {i : Instruction} {types : List Ty}
    (h : call.added? c = some (i, types)) :
    i.operands = call.handles ∧ i.results = c.fresh types.length ∧ i.Fixes types := by
  cases call with
  | argument ty => cases h
  | qubits n => cases h
  | compose lhs rhs =>
    obtain ⟨ty, -, hi⟩ := Option.map_eq_some_iff.1 h
    cases hi
    exact ⟨rfl, rfl, .compose⟩
  | qssaGate gate ins =>
    cases h
    exact ⟨rfl, by simp [Instruction.results], .qssaGate⟩
  | _ =>
    cases h
    exact ⟨rfl, rfl, by constructor⟩

end Call

/-! ## The outcome of a call -/

namespace Circuit

variable {c : Circuit}

theorem outcome_addResult (c : Circuit) (ty : Ty) (j : Nat) :
    outcome (addResult ty j) c =
      (.ok (c.upcoming 0),
        { c with table := c.table.push ⟨ty, .result c.instructions.size j⟩ }) := rfl

theorem outcome_addInstruction (c : Circuit) (i : Instruction) :
    outcome (addInstruction i) c =
      (.ok (), { c with instructions := c.instructions.push i }) := rfl

theorem outcome_addArgument (c : Circuit) (ty : Ty) :
    outcome (addArgument ty) c = (.ok (c.upcoming 0), c.withArgument ty) := rfl

theorem outcome_discard {α : Type} (x : Builder α) (c : Circuit) :
    outcome (discard x) c = ((outcome x c).1.map fun _ => (), (outcome x c).2) := outcome_map _ x c

/-- Known handles pass; otherwise the first unknown one is reported. -/
theorem outcome_expectKnown (c : Circuit) (vs : List Value) :
    outcome (expectKnown vs) c =
      match c.firstUnknown? vs with
      | some v => (.error (.unknownValue v), c)
      | none => (.ok (), c) := by
  rw [expectKnown, outcome_bind_of_ok (outcome_get c), List.forM_eq_forM]
  induction vs with
  | nil => rfl
  | cons v vs ih =>
    rw [List.forM_cons, firstUnknown?, List.find?_cons, outcome_bind, outcome_discard, outcome_lift]
    by_cases hv : c.Knows v
    · obtain ⟨t, e, he, -⟩ := knows_iff_hasType.1 hv
      simp only [entry_eq_ok_iff.2 he, Except.map, ih, hv, firstUnknown?]
      simp
    · simp [entry_eq_error_iff.2 ⟨hv, rfl⟩, Except.map, hv]

/-- The answer of a call: the first unknown handle, or what it gives if all handles are known. -/
def guarded {α : Type} (c : Circuit) (vs : List Value) (a : α) (d : Circuit) :
    Except CircuitError α × Circuit :=
  match c.firstUnknown? vs with
  | some v => (.error (.unknownValue v), c)
  | none => (.ok a, d)

theorem guarded_of_knows {α : Type} {vs : List Value} (h : ∀ v ∈ vs, c.Knows v) (a : α)
    (d : Circuit) : c.guarded vs a d = (.ok a, d) := by
  rw [guarded, firstUnknown?_eq_none_iff.2 h]

theorem outcome_expectKnown_bind {α : Type} {vs : List Value} {f : Unit → Builder α} {a : α}
    {d : Circuit} (h : outcome (f ()) c = (.ok a, d)) :
    outcome (expectKnown vs >>= f) c = c.guarded vs a d := by
  rw [outcome_bind, outcome_expectKnown, guarded]
  cases c.firstUnknown? vs with
  | some v => rfl
  | none => exact h

theorem outcome_addArguments (c : Circuit) (types : List Ty) :
    (outcome (types.mapM addArgument) c).1.map (fun _ => ()) = .ok () ∧
      (outcome (types.mapM addArgument) c).2 = types.foldl withArgument c := by
  induction types generalizing c with
  | nil => exact ⟨rfl, rfl⟩
  | cons ty types ih =>
    rw [List.mapM_cons, outcome_bind_of_ok (outcome_addArgument c ty), outcome_bind,
      List.foldl_cons, ← (ih _).2]
    have h := (ih (c.withArgument ty)).1
    revert h
    cases outcome (types.mapM addArgument) (c.withArgument ty) with
    | mk r t => cases r <;> simp [Except.map]

/-- The results of one instruction are the next values, with consecutive result numbers. -/
theorem outcome_addResults (c : Circuit) (n : Nat) :
    outcome ((List.range n).mapM (addResult .qubit)) c =
      (.ok (c.fresh n),
        { c with table := c.table ++ (c.resultEntries (List.replicate n .qubit)).toArray }) := by
  induction n with
  | zero => rfl
  | succ n ih =>
    rw [List.range_succ, List.mapM_append, outcome_bind_of_ok ih]
    simp [outcome_map, outcome_addResult, Except.map, fresh, upcoming, resultEntries,
      List.range_succ, List.replicate_succ', List.mapIdx_append]

theorem outcome_addQubits (c : Circuit) (n : Nat) :
    (outcome (addQubits n) c).1.map (fun _ => ()) = .ok () ∧
      (outcome (addQubits n) c).2 = (List.replicate n Ty.qubit).foldl withArgument c :=
  outcome_addArguments c _

/-- An instruction with one result. -/
theorem outcome_addOne (c : Circuit) (ty : Ty) (i : Value → Instruction) :
    outcome (do let out ← addResult ty 0; addInstruction (i out); return out) c =
      (.ok (c.upcoming 0), c.withInstruction (i (c.upcoming 0)) [ty]) := by
  rw [outcome_bind_of_ok (outcome_addResult c ty 0),
    outcome_bind_of_ok (outcome_addInstruction _ _), outcome_pure]
  simp [withInstruction, resultEntries]

theorem outcome_constant (c : Circuit) (g : Gate) :
    outcome (constant g) c =
      (.ok (c.upcoming 0), c.withInstruction (.constant g (c.upcoming 0)) [g.ty]) :=
  outcome_addOne c g.ty _

theorem outcome_quaternion (c : Circuit) (real i j k : Value) :
    outcome (quaternion real i j k) c =
      c.guarded [real, i, j, k] (c.upcoming 0)
        (c.withInstruction (.quaternion real i j k (c.upcoming 0)) [.gate 1]) :=
  outcome_expectKnown_bind (outcome_addOne c _ _)

theorem outcome_composeAs (c : Circuit) (lhs rhs : Value) (ty : Ty) :
    outcome (composeAs lhs rhs ty) c =
      c.guarded [lhs, rhs] (c.upcoming 0)
        (c.withInstruction (.compose lhs rhs (c.upcoming 0)) [ty]) :=
  outcome_expectKnown_bind (outcome_addOne c _ _)

theorem outcome_xzs (c : Circuit) (x z phase : Value) :
    outcome (xzs x z phase) c =
      c.guarded [x, z, phase] (c.upcoming 0)
        (c.withInstruction (.xzs x z phase (c.upcoming 0)) [.gate 1]) :=
  outcome_expectKnown_bind (outcome_addOne c _ _)

theorem outcome_qrefGate (c : Circuit) (a : Attribute) (ins : List Value) :
    outcome (qrefGate a ins) c = c.guarded ins () (c.withInstruction (.qrefGate a ins) []) := by
  refine outcome_expectKnown_bind ?_
  simp [outcome_addInstruction, withInstruction, resultEntries]

/-- The qubits are looked at before the gate. -/
theorem outcome_qrefDynGate (c : Circuit) (g : Value) (ins : List Value) :
    outcome (qrefDynGate g ins) c =
      c.guarded (ins ++ [g]) () (c.withInstruction (.qrefDynGate ins g) []) := by
  have hg : outcome (expectKnown [g] >>= fun _ => addInstruction (.qrefDynGate ins g)) c =
      c.guarded [g] () (c.withInstruction (.qrefDynGate ins g) []) := by
    refine outcome_expectKnown_bind ?_
    simp [outcome_addInstruction, withInstruction, resultEntries]
  rw [qrefDynGate, outcome_bind, outcome_expectKnown, guarded, firstUnknown?_append]
  cases c.firstUnknown? ins with
  | some v => rfl
  | none => rw [Option.none_or]; exact hg

theorem outcome_qrefMeasure (c : Circuit) (q : Value) :
    outcome (qrefMeasure q) c =
      c.guarded [q] (c.upcoming 0)
        (c.withInstruction (.qrefMeasure q (c.upcoming 0)) [.bool]) :=
  outcome_expectKnown_bind (outcome_addOne c _ _)

theorem outcome_qssaGate (c : Circuit) (a : Attribute) (ins : List Value) :
    outcome (qssaGate a ins) c =
      c.guarded ins (c.fresh ins.length)
        (c.withInstruction (.qssaGate a ins (c.fresh ins.length))
          (List.replicate ins.length .qubit)) := by
  refine outcome_expectKnown_bind ?_
  rw [outcome_bind_of_ok (outcome_addResults c _), outcome_bind_of_ok (outcome_addInstruction _ _),
    outcome_pure]
  rfl

theorem outcome_qssaMeasure (c : Circuit) (q : Value) :
    outcome (qssaMeasure q) c =
      c.guarded [q] (c.upcoming 0, c.upcoming 1)
        (c.withInstruction (.qssaMeasure q (c.upcoming 0) (c.upcoming 1)) [.bool, .qubit]) := by
  have htable : (c.table.push ⟨.bool, .result c.instructions.size 0⟩).push
      ⟨.qubit, .result c.instructions.size 1⟩ =
      c.table ++ (c.resultEntries [.bool, .qubit]).toArray := by
    apply Array.toList_inj.1
    simp [resultEntries]
  refine outcome_expectKnown_bind ?_
  rw [outcome_bind_of_ok (outcome_addResult c _ _), outcome_bind_of_ok (outcome_addResult _ _ _),
    outcome_bind_of_ok (outcome_addInstruction _ _), outcome_pure, htable]
  simp [withInstruction, upcoming]

end Circuit

namespace Call

open Circuit

theorem outcome_discard_guarded {α : Type} {x : Builder α} {c d : Circuit} {vs : List Value} {a : α}
    (h : outcome x c = c.guarded vs a d) : outcome (discard x) c = c.guarded vs () d := by
  rw [outcome_discard, h, guarded, guarded]
  cases c.firstUnknown? vs <;> rfl

/-- **The effect of a call.** -/
theorem outcome_action (c : Circuit) (call : Call) :
    outcome call.action c = c.guarded call.handles () (call.grow c) := by
  cases call with
  | argument ty =>
    have h : outcome (addArgument ty) c = c.guarded [] _ _ := outcome_addArgument c ty
    exact outcome_discard_guarded h
  | qubits n =>
    obtain ⟨hok, hc⟩ := outcome_addQubits c n
    rw [action, outcome_discard, hok, hc]
    rfl
  | constant gate =>
    have h : outcome (Circuit.constant gate) c = c.guarded [] _ _ := outcome_constant c gate
    exact outcome_discard_guarded h
  | quaternion real i j k => exact outcome_discard_guarded (outcome_quaternion c real i j k)
  | composeAs lhs rhs ty => exact outcome_discard_guarded (outcome_composeAs c lhs rhs ty)
  | compose lhs rhs =>
    rw [action, outcome_discard, Circuit.compose, outcome_bind_of_ok (outcome_get c), outcome_bind,
      outcome_lift]
    cases h : c.typeOf lhs with
    | error e =>
      obtain ⟨hl, rfl⟩ := typeOf_eq_error_iff.1 h
      simp [guarded, handles, firstUnknown?, hl, Except.map]
    | ok ty =>
      rw [← outcome_discard, outcome_discard_guarded (outcome_composeAs c lhs rhs ty)]
      simp [handles, grow, added?, h, Except.toOption]
  | xzs x z phase => exact outcome_discard_guarded (outcome_xzs c x z phase)
  | qrefGate gate ins => exact outcome_qrefGate c gate ins
  | qrefDynGate gate ins => exact outcome_qrefDynGate c gate ins
  | qrefMeasure qubit => exact outcome_discard_guarded (outcome_qrefMeasure c qubit)
  | qssaGate gate ins => exact outcome_discard_guarded (outcome_qssaGate c gate ins)
  | qssaMeasure qubit => exact outcome_discard_guarded (outcome_qssaMeasure c qubit)

/-- A call leaves the circuit as it is, or makes it grow. -/
theorem action_cases (c : Circuit) (call : Call) :
    (outcome call.action c).2 = c ∨
      (∀ v ∈ call.handles, c.Knows v) ∧ (outcome call.action c).2 = call.grow c := by
  rw [outcome_action, guarded]
  cases h : c.firstUnknown? call.handles with
  | some v => exact .inl rfl
  | none => exact .inr ⟨firstUnknown?_eq_none_iff.1 h, rfl⟩

end Call

/-! ## Built circuits -/

namespace Circuit

open Relation (ReflTransGen)

/-- The circuit after a sequence of calls, some of which may fail. -/
def built (calls : List Call) : Circuit :=
  calls.foldl (fun c call => (outcome call.action c).2) {}

theorem built_concat (calls : List Call) (call : Call) :
    built (calls ++ [call]) = (outcome call.action (built calls)).2 := by
  rw [built, List.foldl_append]
  rfl

theorem grows_arguments (c : Circuit) (types : List Ty) :
    ReflTransGen Grows c (types.foldl withArgument c) := by
  induction types generalizing c with
  | nil => exact .refl
  | cons ty types ih => exact .head (.argument ty) (ih _)

theorem grows_action (c : Circuit) (call : Call) :
    ReflTransGen Grows c (outcome call.action c).2 := by
  rcases call.action_cases c with h | ⟨hknown, h⟩
  · rw [h]
  · rw [h, Call.grow]
    split
    · next i types hi =>
      obtain ⟨hops, hres, hfix⟩ := Call.spec_of_added? hi
      exact .single (.instruction hres (hops ▸ hknown) hfix)
    · exact grows_arguments c _

/-- Later calls make a built circuit grow. -/
theorem grows_built_append (calls more : List Call) :
    ReflTransGen Grows (built calls) (built (calls ++ more)) := by
  induction more using List.reverseRecOn with
  | nil => rw [List.append_nil]
  | append_singleton more call ih =>
    rw [← List.append_assoc, built_concat]
    exact ih.trans (grows_action _ call)

theorem grows_built (calls : List Call) : ReflTransGen Grows {} (built calls) :=
  grows_built_append [] calls

/-! ## What growth keeps -/

theorem Grows.prefixes {d : Circuit} (h : Grows c d) :
    c.arguments.toList <+: d.arguments.toList ∧ c.table.toList <+: d.table.toList ∧
      c.instructions.toList <+: d.instructions.toList := by
  cases h with
  | argument ty => simp [withArgument]
  | instruction _ _ _ => simp [withInstruction]

theorem prefixes_of_grows {d : Circuit} (h : ReflTransGen Grows c d) :
    c.arguments.toList <+: d.arguments.toList ∧ c.table.toList <+: d.table.toList ∧
      c.instructions.toList <+: d.instructions.toList := by
  induction h with
  | refl => exact ⟨⟨[], by simp⟩, ⟨[], by simp⟩, ⟨[], by simp⟩⟩
  | tail _ hd ih =>
    obtain ⟨ha, ht, hi⟩ := hd.prefixes
    exact ⟨ih.1.trans ha, ih.2.1.trans ht, ih.2.2.trans hi⟩

theorem getElem?_of_isPrefix {α : Type} {xs ys : Array α} (h : xs.toList <+: ys.toList) {k : Nat}
    {x : α} (hx : xs[k]? = some x) : ys[k]? = some x := by
  obtain ⟨more, hmore⟩ := h
  rw [← Array.getElem?_toList] at hx ⊢
  rw [← hmore, List.getElem?_append_left (List.getElem?_eq_some_iff.1 hx).1, hx]

theorem HasType.of_grows {d : Circuit} (h : ReflTransGen Grows c d) {v : Value} {t : Ty}
    (hv : c.HasType v t) : d.HasType v t := by
  obtain ⟨e, he, ht⟩ := hv
  exact ⟨e, getElem?_of_isPrefix (prefixes_of_grows h).2.1 he, ht⟩

theorem size_le_of_grows {d : Circuit} (h : ReflTransGen Grows c d) :
    c.table.size ≤ d.table.size := (prefixes_of_grows h).2.1.length_le

end Circuit

end GateIR

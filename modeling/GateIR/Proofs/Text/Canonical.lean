import GateIR.Proofs.Text.Resolution
import GateIR.Proofs.Text.Resolved

/-!
# Canonical texts

Any circuit may be printed, also one whose parts do not fit each other. If its text reads back, then
nothing that was wrong with it is left: the text is the one that the new circuit is printed as.

**Names.** A handle that is defined twice is printed under one name in both places, which is not
read back. So the values of a text that reads back are numbered without a gap in definition order
(`names_of_toProgram`).

**Types.** Every annotation that is read back is the type of what it stands at
(`WellScoped.annotated`), so it does not matter where the printer took it from.

**Theorem (`text_canonical`).** The text of a circuit is a fixed point of reading and printing.
-/

namespace GateIR

open Text (Argument Body Program Statement ValidName Token)

/-! ## Printing any circuit -/

namespace Circuit

variable {c : Circuit} {namePrefix : String}

theorem nameOf_eq_ok_iff {v : Value} {name : String} :
    c.nameOf namePrefix v = .ok name ↔
      ∃ n, lastIndex? v c.definitions = some n ∧ namePrefix ++ n.repr = name := by
  unfold nameOf
  split
  · next n h => simp [h]
  · next h => simp [h]

/-- Names and types of an operand list are as many. -/
theorem operandsOf_eq_ok_iff {vs : List Value} {names : List String} {types : List Ty} :
    c.operandsOf namePrefix vs = .ok (names, types) ↔
      c.typesOf vs = .ok types ∧ c.namesOf namePrefix vs = .ok names := by
  simp only [operandsOf, bind_eq_ok_iff]
  constructor
  · intro h
    obtain ⟨ts, hts, ns, hns, hpair⟩ := h
    cases hpair
    exact ⟨hts, hns⟩
  · intro h
    exact ⟨types, h.1, names, h.2, rfl⟩

theorem length_of_operandsOf {vs : List Value} {names : List String} {types : List Ty}
    (h : c.operandsOf namePrefix vs = .ok (names, types)) : types.length = names.length := by
  obtain ⟨htypes, hnames⟩ := operandsOf_eq_ok_iff.1 h
  rw [← (mapM_eq_ok_iff.1 htypes).length_eq, ← (mapM_eq_ok_iff.1 hnames).length_eq]

/-- A statement stands on its line and names the results of its instruction. -/
theorem statementOf_eq_ok_iff {i : Instruction} {line : Nat} {s : Statement} :
    c.statementOf namePrefix i line = .ok s ↔
      c.bodyOf namePrefix i = .ok s.body ∧ c.namesOf namePrefix i.results = .ok s.results ∧
        s.line = line := by
  simp only [statementOf, bind_eq_ok_iff]
  constructor
  · intro h
    obtain ⟨b, hb, results, hresults, hs⟩ := h
    cases hs
    exact ⟨hb, hresults, rfl⟩
  · intro h
    obtain ⟨hb, hresults, rfl⟩ := h
    exact ⟨_, hb, _, hresults, rfl⟩

theorem argumentOf_eq_ok_iff {v : Value} {a : Argument} :
    c.argumentOf namePrefix v = .ok a ↔
      c.nameOf namePrefix v = .ok a.name ∧ c.typeOf v = .ok a.ty := by
  simp only [argumentOf, bind_eq_ok_iff]
  constructor
  · intro h
    obtain ⟨name, hname, t, ht, ha⟩ := h
    cases ha
    exact ⟨hname, ht⟩
  · intro h
    exact ⟨_, h.1, _, h.2, rfl⟩

theorem toProgram_eq_ok_iff {p : Program} :
    c.toProgram namePrefix = .ok p ↔
      List.Forall₂ (fun v a => c.argumentOf namePrefix v = .ok a) c.arguments.toList p.arguments ∧
        List.Forall₂ (fun i s => c.statementOf namePrefix i.1 i.2 = .ok s)
          (c.instructions.toList.zipIdx 2) p.statements := by
  simp only [toProgram, bind_eq_ok_iff, ← mapM_eq_ok_iff]
  constructor
  · intro h
    obtain ⟨as, has, ss, hss, hp⟩ := h
    cases hp
    exact ⟨has, hss⟩
  · intro h
    exact ⟨_, h.1, _, h.2, rfl⟩

/-- The names of a printed program are the names of the definitions, one by one. -/
theorem forall₂_names_of_toProgram {p : Program} (h : c.toProgram namePrefix = .ok p) :
    List.Forall₂ (fun v name => c.nameOf namePrefix v = .ok name) c.definitions p.names := by
  obtain ⟨harguments, hstatements⟩ := toProgram_eq_ok_iff.1 h
  refine List.rel_append ?_ ?_
  · rw [List.forall₂_map_right_iff]
    exact harguments.imp fun v a ha => (argumentOf_eq_ok_iff.1 ha).1
  · have hinstructions := List.zipIdx_map_fst 2 c.instructions.toList
    rw [← hinstructions, List.flatMap_map]
    refine List.rel_flatMap hstatements fun i s hs => ?_
    exact mapM_eq_ok_iff.1 (statementOf_eq_ok_iff.1 hs).2.1

/-! ## Printable texts -/

section Printable

variable (hchars : ∀ ch ∈ namePrefix.toList, Token.continuesWord ch)

include hchars

theorem validName_of_nameOf {v : Value} {name : String} (h : c.nameOf namePrefix v = .ok name) :
    ValidName name := by
  obtain ⟨n, -, rfl⟩ := nameOf_eq_ok_iff.1 h
  exact validName_numbered hchars n

theorem validName_of_namesOf {vs : List Value} {names : List String}
    (h : c.namesOf namePrefix vs = .ok names) : ∀ n ∈ names, ValidName n := by
  intro n hn
  obtain ⟨v, -, hv⟩ := exists_of_mem_mapM h hn
  exact validName_of_nameOf hchars hv

theorem printable_of_operandsOf {vs : List Value} {qubits : List String} {types : List Ty}
    (h : c.operandsOf namePrefix vs = .ok (qubits, types)) :
    (∀ n ∈ qubits, ValidName n) ∧ types.length = qubits.length :=
  ⟨validName_of_namesOf hchars (operandsOf_eq_ok_iff.1 h).2, length_of_operandsOf h⟩

theorem printable_of_bodyOf {i : Instruction} {b : Body} (h : c.bodyOf namePrefix i = .ok b) :
    b.Printable := by
  have hname {v : Value} {n : String} (h : c.nameOf namePrefix v = .ok n) : ValidName n :=
    validName_of_nameOf hchars h
  cases i with
  | constant g out =>
    cases h
    trivial
  | quaternion real i j k out =>
    simp only [bodyOf, bind_eq_ok_iff] at h
    obtain ⟨t, -, real', hreal, i', hi, j', hj, k', hk, hb⟩ := h
    cases hb
    exact ⟨hname hreal, hname hi, hname hj, hname hk⟩
  | compose lhs rhs out =>
    simp only [bodyOf, bind_eq_ok_iff] at h
    obtain ⟨lhs', hlhs, rhs', hrhs, t, -, hb⟩ := h
    cases hb
    exact ⟨hname hlhs, hname hrhs⟩
  | xzs x z phase out =>
    simp only [bodyOf, bind_eq_ok_iff] at h
    obtain ⟨x', hx, z', hz, phase', hphase, hb⟩ := h
    cases hb
    exact ⟨hname hx, hname hz, hname hphase⟩
  | qrefGate a ins =>
    simp only [bodyOf, bind_eq_ok_iff] at h
    obtain ⟨⟨qubits, types⟩, hins, hb⟩ := h
    cases hb
    exact printable_of_operandsOf hchars hins
  | qrefDynGate ins g =>
    simp only [bodyOf, bind_eq_ok_iff] at h
    obtain ⟨g', hg, ⟨qubits, types⟩, hins, hb⟩ := h
    cases hb
    exact ⟨hname hg, printable_of_operandsOf hchars hins⟩
  | qrefMeasure q out =>
    simp only [bodyOf, bind_eq_ok_iff] at h
    obtain ⟨q', hq, hb⟩ := h
    cases hb
    exact hname hq
  | qssaGate a ins outs =>
    simp only [bodyOf, bind_eq_ok_iff] at h
    obtain ⟨⟨qubits, types⟩, hins, hb⟩ := h
    cases hb
    exact printable_of_operandsOf hchars hins
  | qssaMeasure q out outQubit =>
    simp only [bodyOf, bind_eq_ok_iff] at h
    obtain ⟨q', hq, hb⟩ := h
    cases hb
    exact hname hq

theorem printable_of_toProgram {p : Program} (h : c.toProgram namePrefix = .ok p) :
    p.Printable := by
  obtain ⟨harguments, hstatements⟩ := toProgram_eq_ok_iff.1 h
  rw [← mapM_eq_ok_iff] at harguments
  have hlines := mapM_eq_ok_iff.2 hstatements
  refine ⟨?_, ?_, ?_, ?_⟩
  · intro a ha
    obtain ⟨v, -, hv⟩ := exists_of_mem_mapM harguments ha
    exact validName_of_nameOf hchars (argumentOf_eq_ok_iff.1 hv).1
  · intro s hs
    obtain ⟨i, -, hi⟩ := exists_of_mem_mapM hlines hs
    exact validName_of_namesOf hchars (statementOf_eq_ok_iff.1 hi).2.1
  · intro s hs
    obtain ⟨i, -, hi⟩ := exists_of_mem_mapM hlines hs
    exact printable_of_bodyOf hchars (statementOf_eq_ok_iff.1 hi).1
  · have hline : List.Forall₂ (fun s l => s.line = l) p.statements
        ((c.instructions.toList.zipIdx 2).map Prod.snd) := by
      rw [List.forall₂_map_right_iff]
      exact hstatements.flip.imp fun s i hi => (statementOf_eq_ok_iff.1 hi).2.2
    rw [List.zipIdx_map_snd, ← List.forall₂_map_left_iff (f := Statement.line),
      List.forall₂_eq_eq_eq] at hline
    have hlength := hstatements.length_eq
    rw [List.length_zipIdx] at hlength
    rw [← hlength]
    exact hline

end Printable

/-! ## Canonical names -/

/-- If no name is printed twice, then values are numbered in definition order. -/
theorem names_of_toProgram {p : Program} (h : c.toProgram namePrefix = .ok p)
    (hnodup : p.names.Nodup) :
    p.names = (List.range c.definitions.length).map fun n => namePrefix ++ n.repr := by
  have hnames : c.definitions.map (c.nameOf namePrefix) = p.names.map Except.ok := by
    rw [← List.forall₂_eq_eq_eq, List.forall₂_map_left_iff, List.forall₂_map_right_iff]
    exact forall₂_names_of_toProgram h
  have hdistinct : c.definitions.Nodup := by
    have hok := hnodup.map (f := Except.ok (ε := CircuitError)) fun _ _ => Except.ok.inj
    rw [← hnames] at hok
    exact hok.of_map _
  have hlength : p.names.length = c.definitions.length := by
    simpa using (congrArg List.length hnames).symm
  apply List.ext_getElem (by simp [hlength])
  intro k hk hk'
  have hkc : k < c.definitions.length := hlength ▸ hk
  have hname := (forall₂_names_of_toProgram h).get hkc hk
  rw [nameOf, lastIndex?_eq_idxOf hdistinct (List.get_mem ..), List.get_eq_getElem,
    hdistinct.idxOf_getElem k hkc] at hname
  simpa using (Except.ok.inj hname).symm

end Circuit

/-! ## Annotations that are read back -/

namespace Text.Program

variable {p : Program} {s : Statement}

/-- Types stay. -/
theorem typeOf?_push (hlength : p.entries.length = p.names.length) {n : String} {t : Ty}
    (h : p.typeOf? n = some t) : (p.push s).typeOf? n = some t := by
  have hn := mem_names_of_typeOf? hlength h
  have hlt : p.names.idxOf n < p.entries.length := hlength ▸ List.idxOf_lt_length_of_mem hn
  rw [typeOf?, names_push, List.idxOf_append_of_mem hn, entries_push, List.getElem?_append_left hlt]
  exact h

/-- New names have the types of the results. -/
theorem typeOf?_results (hlength : p.entries.length = p.names.length) (hs : p.Admits s) :
    List.Forall₂ (fun n t => (p.push s).typeOf? n = some t) s.results s.body.resultTypes := by
  have hcount : s.results.length = s.body.resultTypes.length := by
    rw [hs.counted, Body.length_resultTypes]
  rw [List.forall₂_iff_get]
  refine ⟨hcount, fun k hk hk' => ?_⟩
  have hidx := hs.distinct.idxOf_getElem k hk
  have hfresh := hs.fresh _ (List.getElem_mem hk)
  simp [typeOf?, names_push, entries_push, List.idxOf_append_of_notMem hfresh, hidx, hlength, hk']

theorem typeOf?_argument {as : List Argument} (hdistinct : (as.map Argument.name).Nodup) :
    ∀ a ∈ as, (⟨as, []⟩ : Program).typeOf? a.name = some a.ty := by
  intro a ha
  obtain ⟨k, hk, rfl⟩ := List.getElem_of_mem ha
  have hidx := hdistinct.idxOf_getElem k (by simpa using hk)
  rw [List.getElem_map] at hidx
  simp [typeOf?, names_arguments, entries_arguments, hidx, hk]

/-- Every annotation of a statement is the type of what it stands at. -/
structure Annotated (p : Program) (s : Statement) : Prop where
  counted : s.body.MatchesTypes
  operands : ∀ a ∈ s.body.annotations, p.typeOf? a.1 = some a.2
  results : List.Forall₂ (fun n t => p.typeOf? n = some t) s.results s.body.resultTypes

theorem Annotated.push (hlength : p.entries.length = p.names.length) {t : Statement}
    (h : p.Annotated t) : (p.push s).Annotated t where
  counted := h.counted
  operands := fun a ha => typeOf?_push hlength (h.operands a ha)
  results := h.results.imp fun _ _ ht => typeOf?_push hlength ht

theorem WellScoped.nodup_names (h : p.WellScoped) : p.names.Nodup := by
  induction p using push_induction with
  | arguments as =>
    rw [names_arguments]
    exact h.arguments
  | push p s ih =>
    obtain ⟨hp, hs⟩ := wellScoped_push_iff.1 h
    exact (nodup_names_push_iff (ih hp)).2 ⟨hs.distinct, hs.fresh⟩

theorem WellScoped.length_entries (h : p.WellScoped) : p.entries.length = p.names.length := by
  induction p using push_induction with
  | arguments as => simp [names_arguments, entries_arguments]
  | push p s ih =>
    obtain ⟨hp, hs⟩ := wellScoped_push_iff.1 h
    exact length_entries_push (ih hp) hs.counted

/-- **Annotations are types.** -/
theorem WellScoped.annotated (h : p.WellScoped) :
    (∀ a ∈ p.arguments, p.typeOf? a.name = some a.ty) ∧ ∀ s ∈ p.statements, p.Annotated s := by
  induction p using push_induction with
  | arguments as => exact ⟨typeOf?_argument h.arguments, by simp⟩
  | push p s ih =>
    obtain ⟨hp, hs⟩ := wellScoped_push_iff.1 h
    have hlength := hp.length_entries
    obtain ⟨harguments, hstatements⟩ := ih hp
    refine ⟨fun a ha => typeOf?_push hlength (harguments a ha), fun t ht => ?_⟩
    rcases List.mem_append.1 ht with ht | ht
    · exact (hstatements t ht).push hlength
    · obtain rfl := List.mem_singleton.1 ht
      exact ⟨hs.accepts.counted, fun a ha => typeOf?_push hlength (hs.accepts.annotated a ha),
        typeOf?_results hlength hs⟩

/-! ## Printing what was read -/

section Printing

variable {sc : Text.Scope} {namePrefix : String} (h : p.Models sc)

include h

theorem Models.tyOf_position {n : String} {t : Ty} (ht : p.typeOf? n = some t) :
    sc.circuit.tyOf (p.position n) = t :=
  ((h.hasType_position_iff (h.mem_of_typeOf? ht)).2 ht).tyOf_eq

theorem Models.map_tyOf_position {ns : List String} {ts : List Ty} (hlength : ts.length = ns.length)
    (hann : ∀ a ∈ ns.zip ts, p.typeOf? a.1 = some a.2) :
    (ns.map p.position).map sc.circuit.tyOf = ts := by
  rw [List.map_map, ← List.forall₂_eq_eq_eq, List.forall₂_map_left_iff, List.forall₂_iff_zip]
  exact ⟨hlength.symm, fun ha => h.tyOf_position (hann _ ha)⟩

/-- Canonical names are the ones that the circuit is printed with. -/
theorem Models.nameIn_position (hwf : sc.circuit.WellFormed) (horder : sc.circuit.InOrder)
    (hnames : p.names = (List.range p.names.length).map fun n => namePrefix ++ n.repr)
    {n : String} (hn : n ∈ p.names) : sc.circuit.nameIn namePrefix (p.position n) = n := by
  have hdef := hwf.mem_definitions_iff.2 (h.knows_position hn)
  have hsize : sc.circuit.table.size ≤ UInt32.size := h.size_table.trans_le h.size
  have hidx := hwf.index_renamed hsize hdef
  rw [horder.renamed_eq hdef, h.index_position hn] at hidx
  have hk := List.idxOf_lt_length_of_mem hn
  have hname : p.names[p.names.idxOf n]? = some n := by
    rw [List.getElem?_eq_getElem hk, List.getElem_idxOf]
  rw [hnames, List.getElem?_map, ← hnames, List.getElem?_range hk] at hname
  rw [Circuit.nameIn, ← hidx]
  exact Option.some.inj hname

/-- The circuit is printed with the names of the program. -/
def PrintsNames (p : Program) (c : Circuit) (namePrefix : String) : Prop :=
  ∀ n ∈ p.names, c.nameIn namePrefix (p.position n) = n

variable (hprints : p.PrintsNames sc.circuit namePrefix)

include hprints

omit h in
theorem PrintsNames.map_position {ns : List String} (hns : ∀ n ∈ ns, n ∈ p.names) :
    (ns.map p.position).map (sc.circuit.nameIn namePrefix) = ns := by
  rw [List.map_map]
  exact (List.map_congr_left fun n hn => hprints n (hns n hn)).trans (List.map_id _)

theorem Models.bodyFor_of_resolves {i : Instruction} (hr : p.Resolves s i) (ha : p.Annotated s)
    (hdefined : ∀ n ∈ s.body.operands, n ∈ p.names) :
    sc.circuit.bodyFor namePrefix i = s.body := by
  obtain ⟨results, b, line⟩ := s
  obtain ⟨hname, hattribute, hoperands, hresults⟩ := hr
  obtain ⟨hcounted, hann, hty⟩ := ha
  have hnames := hprints.map_position hdefined
  rw [← hoperands] at hnames
  cases b with
  | constant g =>
    cases i with
    | constant g' out =>
      have hg : g' = g := by simpa [Instruction.attribute?, Body.attribute?] using hattribute
      rw [Circuit.bodyFor, hg]
    | _ => simp [Instruction.name, Body.name] at hname
  | quaternion t real i' j k =>
    cases i with
    | quaternion real' i'' j' k' out =>
      have hreal : real' = p.position real := (List.cons.inj hoperands).1
      have ht := h.tyOf_position (hann (real, t) (by simp [Body.annotations]))
      simp only [Instruction.operands, Body.operands, List.map_cons, List.cons.injEq] at hnames
      rw [Circuit.bodyFor, hnames.1, hnames.2.1, hnames.2.2.1, hnames.2.2.2.1, hreal, ht]
    | _ => simp [Instruction.name, Body.name] at hname
  | compose lhs rhs t =>
    cases i with
    | compose lhs' rhs' out =>
      obtain ⟨n, ns, hn, -, rfl⟩ := List.forall₂_cons_right_iff.1 hty
      have hout : out = p.position n := (List.cons.inj hresults).1
      simp only [Instruction.operands, Body.operands, List.map_cons, List.cons.injEq] at hnames
      rw [Circuit.bodyFor, hnames.1, hnames.2.1, hout, h.tyOf_position hn]
    | _ => simp [Instruction.name, Body.name] at hname
  | xzs x z phase =>
    cases i with
    | xzs x' z' phase' out =>
      simpa [Circuit.bodyFor, Instruction.operands, Body.operands] using hnames
    | _ => simp [Instruction.name, Body.name] at hname
  | qrefGate a qubits types =>
    cases i with
    | qrefGate a' ins =>
      have ha : a' = a := by simpa [Instruction.attribute?, Body.attribute?] using hattribute
      have hins : ins = qubits.map p.position := hoperands
      have htypes := h.map_tyOf_position hcounted hann
      simp only [Instruction.operands, Body.operands] at hnames
      rw [Circuit.bodyFor, ha, hnames, hins, htypes]
    | _ => simp [Instruction.name, Body.name] at hname
  | qrefDynGate g qubits types =>
    cases i with
    | qrefDynGate ins g' =>
      simp only [Instruction.operands, Body.operands, List.map_append, List.map_cons,
        List.map_nil] at hoperands hnames
      obtain ⟨hins, -⟩ := List.append_inj' hoperands rfl
      obtain ⟨hqubits, hg⟩ := List.append_inj' hnames rfl
      rw [Circuit.bodyFor, hqubits, (List.cons.inj hg).1, hins, h.map_tyOf_position hcounted hann]
    | _ => simp [Instruction.name, Body.name] at hname
  | qrefMeasure q =>
    cases i with
    | qrefMeasure q' out =>
      simpa [Circuit.bodyFor, Instruction.operands, Body.operands] using hnames
    | _ => simp [Instruction.name, Body.name] at hname
  | qssaGate a qubits types =>
    cases i with
    | qssaGate a' ins outs =>
      have ha : a' = a := by simpa [Instruction.attribute?, Body.attribute?] using hattribute
      have hins : ins = qubits.map p.position := hoperands
      have htypes := h.map_tyOf_position hcounted hann
      simp only [Instruction.operands, Body.operands] at hnames
      rw [Circuit.bodyFor, ha, hnames, hins, htypes]
    | _ => simp [Instruction.name, Body.name] at hname
  | qssaMeasure q =>
    cases i with
    | qssaMeasure q' out outQubit =>
      simpa [Circuit.bodyFor, Instruction.operands, Body.operands] using hnames
    | _ => simp [Instruction.name, Body.name] at hname

theorem Models.statementFor_of_resolves {i : Instruction} (hs : s ∈ p.statements)
    (hr : p.Resolves s i) (ha : p.Annotated s) :
    sc.circuit.statementFor namePrefix i s.line = s := by
  have hbody := h.bodyFor_of_resolves hprints hr ha (h.defined s hs)
  have hresults := hprints.map_position fun n hn => mem_names_of_mem_results hs hn
  rw [Circuit.statementFor, hbody, hr.results, hresults]

/-- **The circuit is printed as the program**, when names and lines are canonical. -/
theorem Models.programFor_eq (hscoped : p.WellScoped)
    (hlines : p.statements.map (·.line) = List.range' 2 p.statements.length) :
    sc.circuit.programFor namePrefix = p := by
  obtain ⟨harguments, hstatements⟩ := hscoped.annotated
  have hleft : (sc.circuit.programFor namePrefix).arguments = p.arguments := by
    rw [Circuit.programFor, h.denotes.arguments, List.map_map]
    refine (List.map_congr_left fun a ha => ?_).trans (List.map_id _)
    simp only [Function.comp_apply, id_eq]
    rw [hprints a.name (mem_names_of_mem_arguments ha), h.tyOf_position (harguments a ha)]
  have hright : (sc.circuit.programFor namePrefix).statements = p.statements := by
    have hresolves := h.denotes.instructions
    have hlength := hresolves.length_eq
    apply List.ext_getElem (by simp [Circuit.programFor, hlength])
    intro k _ hk
    have hki : k < sc.circuit.instructions.toList.length := hlength ▸ hk
    have hline : p.statements[k].line = 2 + k := by
      have hget := congrArg (·[k]?) hlines
      simpa [hk] using hget
    have hmem := List.getElem_mem hk
    have hs := h.statementFor_of_resolves hprints hmem (hresolves.get hk hki) (hstatements _ hmem)
    rw [hline] at hs
    simpa [Circuit.programFor] using hs
  exact congrArg₂ Program.mk hleft hright

end Printing

end Text.Program

/-! ## The fixed point -/

namespace Circuit

variable {c d : Circuit}

/-- **Printed text is a fixed point.** However inconsistent a circuit is, if its text reads back
then the circuit that was read has the same text. -/
theorem text_canonical {config : PrintConfig}
    (hchars : ∀ ch ∈ config.valuePrefix.toList, Token.continuesWord ch)
    (hsize : c.definitions.length ≤ UInt32.size) {text : String}
    (htext : c.text config = .ok text) (hparse : Circuit.parse text = .ok d) :
    d.text config = .ok text := by
  cases hp : c.toProgram config.valuePrefix with
  | error e =>
    rw [Circuit.text, hp] at htext
    cases htext
  | ok p =>
    rw [Circuit.text, hp] at htext
    cases htext
    have hprintable := printable_of_toProgram hchars hp
    rw [Circuit.parse, Text.Parser.parse_text hprintable] at hparse
    have hcircuit : p.toCircuit = .ok d := hparse
    have hlength := (forall₂_names_of_toProgram hp).length_eq
    have hnamesSize : p.names.length ≤ UInt32.size := hlength ▸ hsize
    have hscoped := Text.Program.wellScoped_of_toCircuit hnamesSize hcircuit
    obtain ⟨sc, hrun, hmodels⟩ := hscoped.run_program hnamesSize
    obtain rfl : sc.circuit = d := by
      rw [Program.toCircuit, hrun] at hcircuit
      exact Except.ok.inj hcircuit
    have hresolved := Text.Program.resolved_of_toCircuit hcircuit
    have htable : sc.circuit.table.size ≤ UInt32.size := hmodels.size_table.trans_le hnamesSize
    have hwf := hresolved.wellFormed htable
    have hnames := names_of_toProgram hp hscoped.nodup_names
    rw [hlength] at hnames
    have hprints : p.PrintsNames sc.circuit config.valuePrefix := fun n hn =>
      hmodels.nameIn_position hwf (hresolved.inOrder htable) hnames hn
    rw [text_eq hwf, hmodels.programFor_eq hprints hscoped hprintable.lines]

/-- Handles out of order, an outcome that the table calls an index, and sites that do not exist. -/
def misfiled : Circuit where
  arguments := #[.ofIndex 2, .ofIndex 0]
  table := #[⟨.qubit, .result 7 1⟩, ⟨.index, .argument 5⟩, ⟨.int 8, .argument 5⟩]
  instructions := #[.qrefMeasure (.ofIndex 0) (.ofIndex 1)]

theorem text_canonical_misfiled :
    misfiled.definitions.length ≤ UInt32.size ∧
      ∃ text d, misfiled.text {} = .ok text ∧ Circuit.parse text = .ok d ∧ d ≠ misfiled ∧
        d.text {} = .ok text := by
  have hsize : misfiled.definitions.length ≤ UInt32.size := by decide
  have htext : misfiled.text {} =
      .ok "circuit(%0 : i8, %1 : !qubit) \x7b\n  %2 = qref.measure %1\n\x7d\n" := by
    decide +kernel
  have hparse : Circuit.parse "circuit(%0 : i8, %1 : !qubit) \x7b\n  %2 = qref.measure %1\n\x7d\n" =
      .ok (built [.argument (.int 8), .argument .qubit, .qrefMeasure (.ofIndex 1)]) := by
    decide +kernel
  exact ⟨hsize, _, _, htext, hparse, by decide, text_canonical (by simp) hsize htext hparse⟩

end Circuit

end GateIR

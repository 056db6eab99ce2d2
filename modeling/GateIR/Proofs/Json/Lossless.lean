import GateIR.Proofs.Angle
import GateIR.Proofs.Json.Form

/-!
# The JSON codec loses nothing

**Lossless (`Codec.Lossless`).** Decoding undoes encoding, and what is decoded is just the data that
has the form of a value. The forms are those of the protocol, and no others are decoded; what a
reader that is derived from the types does beyond them is said with the forms.

**Theorem (`codec_lossless`).** This holds of circuits, instructions, attributes, bindings, programs
and printer settings, whatever they are. Encoding what was decoded and decoding it again changes
nothing.

There is one instance for each type. A list goes by its items, and a field of a record by the type of
its contents (`field?_eq_some_iff`), so that the instance of a type only has to compare its own
labels and names with those of its form.

A position or a count that does not fit into 64 bits is encoded, but not decoded; what is decoded
always fits. An angle is reduced each time it is decoded, and a coefficient that is reduced already
stays as it is.
-/

namespace GateIR

open Text (Argument Body Program Statement)

/-- Values that fit are read back from what they are written as, and what is read is just the data of
the form. -/
class Codec.Lossless (α : Type) [Codec α] (fits : outParam (α → Prop))
    (form : outParam (Json → α → Prop)) : Prop where
  decode_encode : ∀ a, fits a → decode (encode a) = some a
  decode_iff : ∀ j a, decode j = some a ↔ form j a
  fits_of_decode : ∀ j a, decode j = some a → fits a

theorem mapM_eq_some_iff {α β : Type} {f : α → Option β} {as : List α} {bs : List β} :
    as.mapM f = some bs ↔ List.Forall₂ (fun a b => f a = some b) as bs := by
  induction as generalizing bs with
  | nil => simp [eq_comm]
  | cons a as ih =>
    simp only [List.mapM_cons, Option.bind_eq_bind, Option.bind_eq_some_iff, ih,
      List.forall₂_cons_left_iff]
    constructor
    · intro h
      rcases h with ⟨b, hb, bs', hbs, h⟩
      cases h
      exact ⟨b, bs', hb, hbs, rfl⟩
    · intro h
      rcases h with ⟨b, bs', hb, hbs, rfl⟩
      exact ⟨b, hb, bs', hbs, rfl⟩

namespace Codec

variable {α : Type} [Codec α] {fits : α → Prop} {form : Json → α → Prop}

theorem Lossless.of_form (hencode : ∀ a, fits a → form (encode a) a)
    (hdecode : ∀ j a, decode j = some a ↔ form j a) (hfits : ∀ j a, form j a → fits a) :
    Lossless α fits form where
  decode_encode a ha := (hdecode (encode a) a).2 (hencode a ha)
  decode_iff := hdecode
  fits_of_decode j a hj := hfits j a ((hdecode j a).1 hj)

variable {j : Json} {name : String} {a : α}

theorem decode_eq_some_iff [Lossless α fits form] : decode j = some a ↔ form j a :=
  Lossless.decode_iff j a

theorem form_encode [Lossless α fits form] (ha : fits a) : form (encode a) a :=
  decode_eq_some_iff.1 (Lossless.decode_encode a ha)

theorem fits_of_form [Lossless α fits form] (ha : form j a) : fits a :=
  Lossless.fits_of_decode j a (decode_eq_some_iff.2 ha)

/-- What was decoded stays as it is. -/
theorem decode_again [Lossless α fits form] (hj : decode j = some a) :
    decode (encode a) = some a :=
  Lossless.decode_encode a (Lossless.fits_of_decode j a hj)

theorem field?_eq_some_iff [Lossless α fits form] :
    j.field? name = some a ↔ j.Field name form a := by
  simp only [Json.field?, Json.Field, Option.bind_eq_some_iff, decode_eq_some_iff]

theorem fits_of_field [Lossless α fits form] (ha : j.Field name form a) : fits a := by
  obtain ⟨contents, -, hform⟩ := ha
  exact fits_of_form hform

theorem fieldOr?_eq_some_iff [Lossless α fits form] {usual : α} :
    j.fieldOr? name usual = some a ↔ j.FieldOr name usual form a := by
  unfold Json.fieldOr? Json.FieldOr Json.Field
  cases j.get? name with
  | some contents => simp [decode_eq_some_iff]
  | none => simp [eq_comm]

instance [Lossless α fits form] :
    Lossless (List α) (fun as => ∀ a ∈ as, fits a) (ListForm form) where
  decode_encode as has := by
    apply mapM_eq_some_iff.2
    rw [List.forall₂_map_left_iff, List.forall₂_same]
    exact fun a ha => Lossless.decode_encode a (has a ha)
  decode_iff j as := by
    constructor
    · intro hj
      cases j with
      | arr items => exact .arr ((mapM_eq_some_iff.1 hj).imp fun _ _ => decode_eq_some_iff.1)
      | _ => cases hj
    · intro hj
      obtain ⟨hall⟩ := hj
      exact mapM_eq_some_iff.2 (hall.imp fun _ _ => decode_eq_some_iff.2)
  fits_of_decode j as hj := by
    cases j with
    | arr items =>
      have hall := (mapM_eq_some_iff.1 hj).flip.imp fun a item hitem =>
        (⟨Lossless.fits_of_decode item a hitem, hitem⟩ : fits a ∧ decode item = some a)
      exact ((List.forall₂_and_left _ _).1 hall).1
    | _ => cases hj

instance [Lossless α fits form] :
    Lossless (Array α) (fun as => ∀ a ∈ as, fits a) (ArrayForm form) where
  decode_encode as has := by
    have hlist := Lossless.decode_encode as.toList (by simpa using has)
    exact congrArg (Option.map List.toArray) hlist
  decode_iff j as := by
    have hlist : (decode j : Option (List α)) = some as.toList ↔ ListForm form j as.toList :=
      decode_eq_some_iff
    change (decode j : Option (List α)).map List.toArray = some as ↔ _
    rw [ArrayForm, ← hlist, Option.map_eq_some_iff]
    constructor
    · rintro ⟨items, hitems, rfl⟩
      exact hitems
    · exact fun hj => ⟨as.toList, hj, rfl⟩
  fits_of_decode j as hj := by
    obtain ⟨items, hitems, rfl⟩ := Option.map_eq_some_iff.1 hj
    simpa using Lossless.fits_of_decode j items hitems

end Codec

/-! ## Records and variants -/

namespace Json

variable {α : Type} {form : Json → α → Prop} {a : α} {name : String}

@[simp]
theorem field_cons_self {contents : Json} {fields : List (String × Json)} :
    (obj ((name, contents) :: fields)).Field name form a ↔ form contents a := by
  simp [Field, get?]

@[simp]
theorem field_cons_of_ne {name' : String} {contents : Json} {fields : List (String × Json)}
    (hne : name ≠ name') :
    (obj ((name', contents) :: fields)).Field name form a ↔ (obj fields).Field name form a := by
  simp [Field, get?, List.lookup_cons, beq_eq_false_iff_ne.2 hne]

@[simp]
theorem variant?_variant {contents : Json} :
    (variant name contents).variant? = some (name, some contents) := rfl

theorem variant?_eq_bare_iff {j : Json} : j.variant? = some (name, none) ↔ j = .str name := by
  unfold variant?
  split <;> simp_all

theorem variant?_eq_full_iff {j contents : Json} :
    j.variant? = some (name, some contents) ↔ j = .variant name contents := by
  unfold variant? variant
  split <;> simp_all

end Json

/-! ## Scalars -/

open Codec (Lossless form_encode fits_of_form fits_of_field decode_eq_some_iff field?_eq_some_iff
  fieldOr?_eq_some_iff)

theorem Json.intIn?_eq_some_iff {j : Json} {low high n : Int} :
    j.intIn? low high = some n ↔ j = .int n ∧ low ≤ n ∧ n ≤ high := by
  cases j with
  | int k =>
    simp only [intIn?, Option.ite_none_right_eq_some, Option.some.injEq, int.injEq]
    constructor
    · rintro ⟨hrange, rfl⟩
      exact ⟨rfl, hrange⟩
    · rintro ⟨rfl, hrange⟩
      exact ⟨hrange, rfl⟩
  | _ => simp [intIn?]

instance : Lossless String (fun _ => True) StringForm where
  decode_encode _ _ := rfl
  decode_iff j s := by
    constructor
    · intro h
      cases j with
      | str s' =>
        cases h
        exact .str s
      | _ => cases h
    · rintro ⟨⟩
      rfl
  fits_of_decode _ _ _ := trivial

instance : Lossless UInt32 (fun _ => True) WordForm := by
  refine .of_form (fun n _ => .int n) (fun j n => ?_) fun _ _ _ => trivial
  unfold decode instCodecUInt32
  simp only [Option.map_eq_some_iff, Json.intIn?_eq_some_iff]
  constructor
  · rintro ⟨k, ⟨rfl, hlow, hhigh⟩, rfl⟩
    have hform := WordForm.int (.ofNat k.toNat)
    rwa [UInt32.toNat_ofNat_of_lt' (by omega), Int.toNat_of_nonneg hlow] at hform
  · rintro ⟨⟩
    have hlt := n.toNat_lt_size
    exact ⟨n.toNat, ⟨rfl, by omega, by omega⟩, by simp⟩

instance : Lossless Int64 (fun _ => True) Int64Form := by
  refine .of_form (fun n _ => .int n) (fun j n => ?_) fun _ _ _ => trivial
  unfold decode instCodecInt64
  simp only [Option.map_eq_some_iff, Json.intIn?_eq_some_iff]
  constructor
  · rintro ⟨k, ⟨rfl, hlow, hhigh⟩, rfl⟩
    have hform := Int64Form.int (.ofInt k)
    rwa [Int64.toInt_ofInt_of_le hlow (Int.lt_of_le_sub_one hhigh)] at hform
  · rintro ⟨⟩
    exact ⟨n.toInt, ⟨rfl, n.minValue_le_toInt, n.toInt_le⟩, by simp⟩

instance : Lossless Nat (· < UInt64.size) CountForm := by
  refine .of_form (fun n hn => .int hn) (fun j n => ?_) ?_
  · unfold decode instCodecNat
    simp only [Option.map_eq_some_iff, Json.intIn?_eq_some_iff]
    constructor
    · rintro ⟨k, ⟨rfl, hlow, hhigh⟩, rfl⟩
      have hform := CountForm.int (n := k.toNat) (by omega)
      rwa [Int.toNat_of_nonneg hlow] at hform
    · rintro ⟨hn⟩
      exact ⟨n, ⟨rfl, by omega, by omega⟩, by simp⟩
  · rintro j n ⟨hn⟩
    exact hn

/-- A coefficient that is reduced already is not changed by reading it. -/
instance : Lossless Angle (fun _ => True) AngleForm where
  decode_encode a _ := congrArg some a.reduce_coefficient
  decode_iff j a := by
    constructor
    · intro h
      cases j with
      | real x =>
        cases h
        exact .real x
      | int n =>
        cases h
        exact .int n
      | _ => cases h
    · intro h
      cases h <;> rfl
  fits_of_decode _ _ _ := trivial

/-- The angle `3π` is read as `π`. -/
example : (decode (.int 3) : Option Angle) = some .pi := by decide +kernel

/-! ## Attributes and types -/

/-- The labels are read as the gates beside them. -/
theorem decode_gateLabels : ∀ p ∈ gateLabels, (decode (.str p.1) : Option Gate) = some p.2 := by
  decide +kernel

theorem mem_gateLabels_of_mem_allFixed : ∀ g ∈ Gate.allFixed, (g.label, g) ∈ gateLabels := by
  decide +kernel

instance : Lossless Gate (fun _ => True) GateForm := by
  refine .of_form (fun g _ => ?_) (fun j g => ?_) fun _ _ _ => trivial
  · cases g with
    | rz a => exact .rz (form_encode trivial)
    | _ => exact .fixed (by decide)
  · constructor
    · intro h
      obtain ⟨v, hv, hg⟩ := Option.bind_eq_some_iff.1 h
      split at hg
      · obtain ⟨a, ha, hg⟩ := Option.bind_eq_some_iff.1 hg
        rw [Json.variant?_eq_full_iff] at hv
        cases hv
        cases hg
        exact .rz (decode_eq_some_iff.1 ha)
      · rw [Json.variant?_eq_bare_iff] at hv
        cases hv
        have hlabel := List.find?_some hg
        rw [decide_eq_true_eq] at hlabel
        rw [← hlabel]
        exact .fixed (mem_gateLabels_of_mem_allFixed g (List.mem_of_find?_eq_some hg))
      · cases hg
    · intro h
      cases h with
      | fixed hg => exact decode_gateLabels _ hg
      | rz ha =>
        unfold decode instCodecGate
        simpa [Option.bind_eq_some_iff, decode_eq_some_iff] using ha

theorem decode_widthLabels :
    ∀ p ∈ widthLabels, (decode (.str p.1) : Option FloatWidth) = some p.2 := by
  decide +kernel

instance : Lossless FloatWidth (fun _ => True) FloatWidthForm := by
  refine .of_form (fun w _ => ?_) (fun j w => ?_) fun _ _ _ => trivial
  · cases w <;> exact .mk (by decide)
  · constructor
    · intro h
      unfold decode instCodecFloatWidth at h
      dsimp only at h
      split at h <;> cases h <;> exact .mk (by decide)
    · rintro ⟨hw⟩
      exact decode_widthLabels _ hw

instance : Lossless Ty (fun _ => True) TyForm := by
  refine .of_form (fun t _ => ?_) (fun j t => ?_) fun _ _ _ => trivial
  · cases t with
    | qubit => exact .qubit
    | int w => exact .int (form_encode trivial)
    | float w => exact .float (form_encode trivial)
    | index => exact .index
    | gate n => exact .gate (by simp [form_encode])
  · constructor
    · intro h
      obtain ⟨v, hv, ht⟩ := Option.bind_eq_some_iff.1 h
      split at ht <;> simp only [Option.bind_eq_bind, Option.bind_eq_some_iff, Option.pure_def,
        Option.some.injEq, reduceCtorEq, Json.variant?_eq_bare_iff, Json.variant?_eq_full_iff,
        decode_eq_some_iff, field?_eq_some_iff] at ht hv <;> subst hv
      · obtain rfl := ht
        exact .qubit
      · obtain ⟨w, hw, rfl⟩ := ht
        exact .int hw
      · obtain ⟨w, hw, rfl⟩ := ht
        exact .float hw
      · obtain rfl := ht
        exact .index
      · obtain ⟨n, hn, rfl⟩ := ht
        exact .gate hn
    · intro h
      unfold decode instCodecTy
      cases h with
      | qubit => rfl
      | int hw => simpa [Option.bind_eq_some_iff, decode_eq_some_iff] using hw
      | float hw => simpa [Option.bind_eq_some_iff, decode_eq_some_iff] using hw
      | index => rfl
      | gate hn => simpa [Option.bind_eq_some_iff, field?_eq_some_iff] using hn

instance : Lossless Attribute (fun _ => True) AttributeForm := by
  refine .of_form (fun a _ => ?_) (fun j a => ?_) fun _ _ _ => trivial
  · cases a with
    | gate g => exact .gate (form_encode trivial)
    | angle a => exact .angle (form_encode trivial)
    | ty t => exact .ty (form_encode trivial)
    | int n => exact .int (form_encode trivial)
  · constructor
    · intro h
      obtain ⟨v, hv, ha⟩ := Option.bind_eq_some_iff.1 h
      split at ha <;> simp only [Option.bind_eq_bind, Option.bind_eq_some_iff, Option.pure_def,
        Option.some.injEq, reduceCtorEq, Json.variant?_eq_full_iff, decode_eq_some_iff]
        at ha hv <;> subst hv
      · obtain ⟨g, hg, rfl⟩ := ha
        exact .gate hg
      · obtain ⟨a, ha, rfl⟩ := ha
        exact .angle ha
      · obtain ⟨t, ht, rfl⟩ := ha
        exact .ty ht
      · obtain ⟨n, hn, rfl⟩ := ha
        exact .int hn
    · intro h
      unfold decode instCodecAttribute
      cases h with
      | gate hg => simpa [Option.bind_eq_some_iff, decode_eq_some_iff] using hg
      | angle ha => simpa [Option.bind_eq_some_iff, decode_eq_some_iff] using ha
      | ty ht => simpa [Option.bind_eq_some_iff, decode_eq_some_iff] using ht
      | int hn => simpa [Option.bind_eq_some_iff, decode_eq_some_iff] using hn

instance : Lossless Binding (fun _ => True) BindingForm := by
  refine .of_form (fun b _ => ?_) (fun j b => ?_) fun _ _ _ => trivial
  · cases b with
    | type t => exact .type (form_encode trivial)
    | range ts => exact .range (form_encode (by simp))
    | qubits n => exact .qubits (form_encode trivial)
  · constructor
    · intro h
      obtain ⟨v, hv, hb⟩ := Option.bind_eq_some_iff.1 h
      split at hb <;> simp only [Option.bind_eq_bind, Option.bind_eq_some_iff, Option.pure_def,
        Option.some.injEq, reduceCtorEq, Json.variant?_eq_full_iff, decode_eq_some_iff]
        at hb hv <;> subst hv
      · obtain ⟨t, ht, rfl⟩ := hb
        exact .type ht
      · obtain ⟨ts, hts, rfl⟩ := hb
        exact .range hts
      · obtain ⟨n, hn, rfl⟩ := hb
        exact .qubits hn
    · intro h
      unfold decode instCodecBinding
      cases h with
      | type ht => simpa [Option.bind_eq_some_iff, decode_eq_some_iff] using ht
      | range hts => simpa [Option.bind_eq_some_iff, decode_eq_some_iff] using hts
      | qubits hn => simpa [Option.bind_eq_some_iff, decode_eq_some_iff] using hn

/-! ## Circuits -/

instance : Lossless Value (fun _ => True) ValueForm := by
  refine .of_form (fun v _ => .mk (form_encode trivial)) (fun j v => ?_) fun _ _ _ => trivial
  unfold decode instCodecValue
  simp only [Option.map_eq_some_iff, decode_eq_some_iff]
  constructor
  · rintro ⟨n, hn, rfl⟩
    exact .mk hn
  · rintro ⟨hn⟩
    exact ⟨_, hn, rfl⟩

/-- The positions of a site have 64 bits. -/
def Site.Fits : Site → Prop
  | .argument k => k < UInt64.size
  | .result k n => k < UInt64.size ∧ n < UInt64.size

instance : Lossless Site Site.Fits SiteForm := by
  refine .of_form (fun s hs => ?_) (fun j s => ?_) fun j s hs => ?_
  · cases s with
    | argument k => exact .argument (form_encode hs)
    | result k n =>
      have hk : CountForm (encode k) k := form_encode hs.1
      have hn : CountForm (encode n) n := form_encode hs.2
      exact .result (by simpa using hk) (by simpa using hn)
  · constructor
    · intro h
      obtain ⟨v, hv, hs⟩ := Option.bind_eq_some_iff.1 h
      split at hs <;> simp only [Option.bind_eq_bind, Option.bind_eq_some_iff, Option.pure_def,
        Option.some.injEq, reduceCtorEq, Json.variant?_eq_full_iff, decode_eq_some_iff,
        field?_eq_some_iff] at hs hv <;> subst hv
      · obtain ⟨k, hk, rfl⟩ := hs
        exact .argument hk
      · obtain ⟨k, hk, n, hn, rfl⟩ := hs
        exact .result hk hn
    · intro h
      unfold decode instCodecSite
      cases h with
      | argument hk => simpa [Option.bind_eq_some_iff, decode_eq_some_iff] using hk
      | result hk hn => simpa [Option.bind_eq_some_iff, field?_eq_some_iff] using ⟨hk, hn⟩
  · cases hs with
    | argument hk => exact (fits_of_form hk :)
    | result hk hn => exact ⟨(fits_of_field hk :), (fits_of_field hn :)⟩

/-- The positions of where a value is defined have 64 bits. -/
def Entry.Fits (e : Entry) : Prop := e.site.Fits

instance : Lossless Entry Entry.Fits EntryForm := by
  refine .of_form (fun e he => ?_) (fun j e => ?_) ?_
  · have hsite : SiteForm (encode e.site) e.site := form_encode he
    unfold encode instCodecEntry
    exact .mk (by simp [form_encode]) (by simpa using hsite)
  · unfold decode instCodecEntry
    simp only [Option.bind_eq_bind, Option.bind_eq_some_iff, Option.pure_def, Option.some.injEq,
      field?_eq_some_iff]
    constructor
    · rintro ⟨t, ht, s, hs, rfl⟩
      exact .mk ht hs
    · rintro ⟨ht, hs⟩
      exact ⟨_, ht, _, hs, rfl⟩
  · rintro j e ⟨-, hs⟩
    exact (fits_of_field hs :)

theorem Instruction.ofRecord?_eq_some_iff {dialect name : String} {r : Json} {i : Instruction} :
    ofRecord? dialect name r = some i ↔ InstructionForm (.variant dialect (.variant name r)) i := by
  constructor
  · intro h
    unfold ofRecord? at h
    split at h <;> simp only [Option.bind_eq_bind, Option.bind_eq_some_iff, Option.pure_def,
      Option.some.injEq, reduceCtorEq, field?_eq_some_iff] at h
    · obtain ⟨g, hg, out, hout, rfl⟩ := h
      exact .constant hg hout
    · obtain ⟨real, hreal, i, hi, j, hj, k, hk, out, hout, rfl⟩ := h
      exact .quaternion hreal hi hj hk hout
    · obtain ⟨lhs, hl, rhs, hr, out, hout, rfl⟩ := h
      exact .compose hl hr hout
    · obtain ⟨x, hx, z, hz, phase, hp, out, hout, rfl⟩ := h
      exact .xzs hx hz hp hout
    · obtain ⟨a, ha, ins, hins, rfl⟩ := h
      exact .qrefGate ha hins
    · obtain ⟨ins, hins, g, hg, rfl⟩ := h
      exact .qrefDynGate hins hg
    · obtain ⟨q, hq, out, hout, rfl⟩ := h
      exact .qrefMeasure hq hout
    · obtain ⟨a, ha, ins, hins, outs, houts, rfl⟩ := h
      exact .qssaGate ha hins houts
    · obtain ⟨q, hq, out, hout, out', hout', rfl⟩ := h
      exact .qssaMeasure hq hout hout'
  · intro h
    cases h <;> simp [ofRecord?, Option.bind_eq_some_iff, field?_eq_some_iff, *]

instance : Lossless Instruction (fun _ => True) InstructionForm := by
  refine .of_form (fun i _ => ?_) (fun j i => ?_) fun _ _ _ => trivial
  · cases i <;> constructor <;> simp [form_encode]
  · constructor
    · intro h
      obtain ⟨v, hv, hi⟩ := Option.bind_eq_some_iff.1 h
      split at hi
      · next dialect contents =>
        obtain ⟨v', hv', hi⟩ := Option.bind_eq_some_iff.1 hi
        split at hi
        · rw [Json.variant?_eq_full_iff] at hv hv'
          subst hv hv'
          exact Instruction.ofRecord?_eq_some_iff.1 hi
        · cases hi
      · cases hi
    · intro h
      -- Each form is a variant in a variant, and only these names tell the forms apart.
      have hvariants : ∃ dialect name r, j = .variant dialect (.variant name r) := by
        cases h <;> exact ⟨_, _, _, rfl⟩
      obtain ⟨dialect, name, r, rfl⟩ := hvariants
      exact Instruction.ofRecord?_eq_some_iff.2 h

/-- The positions of a circuit have 64 bits; that it is consistent is not asked. -/
def Circuit.Fits (c : Circuit) : Prop := ∀ e ∈ c.table, e.Fits

instance : Lossless Circuit Circuit.Fits CircuitForm := by
  refine .of_form (fun c hc => ?_) (fun j c => ?_) ?_
  · have htable : ArrayForm EntryForm (encode c.table) c.table := form_encode hc
    unfold encode instCodecCircuit
    exact .mk (by simp [form_encode]) (by simpa using htable) (by simp [form_encode])
  · unfold decode instCodecCircuit
    simp only [Option.bind_eq_bind, Option.bind_eq_some_iff, Option.pure_def, Option.some.injEq,
      field?_eq_some_iff]
    constructor
    · rintro ⟨arguments, ha, table, ht, instructions, hi, rfl⟩
      exact .mk ha ht hi
    · rintro ⟨ha, ht, hi⟩
      exact ⟨_, ha, _, ht, _, hi, rfl⟩
  · rintro j c ⟨-, ht, -⟩
    exact (fits_of_field ht :)

/-! ## Programs and printer settings -/

instance : Lossless Argument (fun _ => True) ArgumentForm := by
  refine .of_form (fun a _ => ?_) (fun j a => ?_) fun _ _ _ => trivial
  · unfold encode Text.instCodecArgument
    exact .mk (by simp [form_encode]) (by simp [form_encode])
  · unfold decode Text.instCodecArgument
    simp only [Option.bind_eq_bind, Option.bind_eq_some_iff, Option.pure_def, Option.some.injEq,
      field?_eq_some_iff]
    constructor
    · rintro ⟨name, hname, t, ht, rfl⟩
      exact .mk hname ht
    · rintro ⟨hname, ht⟩
      exact ⟨_, hname, _, ht, rfl⟩

theorem Text.Body.ofRecord?_eq_some_iff {name : String} {r : Json} {b : Body} :
    ofRecord? name r = some b ↔ BodyForm (.variant name r) b := by
  constructor
  · intro h
    unfold ofRecord? at h
    split at h <;> simp only [Option.bind_eq_bind, Option.bind_eq_some_iff, Option.pure_def,
      Option.some.injEq, reduceCtorEq, field?_eq_some_iff] at h
    · obtain ⟨g, hg, rfl⟩ := h
      exact .constant hg
    · obtain ⟨t, ht, real, hreal, i, hi, j, hj, k, hk, rfl⟩ := h
      exact .quaternion ht hreal hi hj hk
    · obtain ⟨lhs, hl, rhs, hr, t, ht, rfl⟩ := h
      exact .compose hl hr ht
    · obtain ⟨x, hx, z, hz, phase, hp, rfl⟩ := h
      exact .xzs hx hz hp
    · obtain ⟨a, ha, qubits, hqs, types, hts, rfl⟩ := h
      exact .qrefGate ha hqs hts
    · obtain ⟨g, hg, qubits, hqs, types, hts, rfl⟩ := h
      exact .qrefDynGate hg hqs hts
    · obtain ⟨q, hq, rfl⟩ := h
      exact .qrefMeasure hq
    · obtain ⟨a, ha, qubits, hqs, types, hts, rfl⟩ := h
      exact .qssaGate ha hqs hts
    · obtain ⟨q, hq, rfl⟩ := h
      exact .qssaMeasure hq
  · intro h
    cases h <;> simp [ofRecord?, Option.bind_eq_some_iff, field?_eq_some_iff, *]

instance : Lossless Body (fun _ => True) BodyForm := by
  refine .of_form (fun b _ => ?_) (fun j b => ?_) fun _ _ _ => trivial
  · cases b <;> constructor <;> simp [form_encode]
  · constructor
    · intro h
      obtain ⟨v, hv, hb⟩ := Option.bind_eq_some_iff.1 h
      split at hb
      · rw [Json.variant?_eq_full_iff] at hv
        subst hv
        exact Body.ofRecord?_eq_some_iff.1 hb
      · cases hb
    · intro h
      have hvariant : ∃ name r, j = .variant name r := by cases h <;> exact ⟨_, _, rfl⟩
      obtain ⟨name, r, rfl⟩ := hvariant
      exact Body.ofRecord?_eq_some_iff.2 h

/-- The number of the line has 64 bits. -/
def Text.Statement.Fits (s : Statement) : Prop := s.line < UInt64.size

instance : Lossless Statement Statement.Fits StatementForm := by
  refine .of_form (fun s hs => ?_) (fun j s => ?_) ?_
  · have hline : CountForm (encode s.line) s.line := form_encode hs
    unfold encode Text.instCodecStatement
    exact .mk (by simp [form_encode]) (by simp [form_encode]) (by simpa using hline)
  · unfold decode Text.instCodecStatement
    simp only [Option.bind_eq_bind, Option.bind_eq_some_iff, Option.pure_def, Option.some.injEq,
      field?_eq_some_iff]
    constructor
    · rintro ⟨results, hr, b, hb, line, hl, rfl⟩
      exact .mk hr hb hl
    · rintro ⟨hr, hb, hl⟩
      exact ⟨_, hr, _, hb, _, hl, rfl⟩
  · rintro j s ⟨-, -, hl⟩
    exact (fits_of_field hl :)

/-- The line numbers of a program have 64 bits. -/
def Text.Program.Fits (p : Program) : Prop := ∀ s ∈ p.statements, s.Fits

instance : Lossless Program Program.Fits ProgramForm := by
  refine .of_form (fun p hp => ?_) (fun j p => ?_) ?_
  · have hstatements : ListForm StatementForm (encode p.statements) p.statements := form_encode hp
    unfold encode Text.instCodecProgram
    exact .mk (by simp [form_encode]) (by simpa using hstatements)
  · unfold decode Text.instCodecProgram
    simp only [Option.bind_eq_bind, Option.bind_eq_some_iff, Option.pure_def, Option.some.injEq,
      field?_eq_some_iff]
    constructor
    · rintro ⟨arguments, ha, statements, hs, rfl⟩
      exact .mk ha hs
    · rintro ⟨ha, hs⟩
      exact ⟨_, ha, _, hs, rfl⟩
  · rintro j p ⟨-, hs⟩
    exact (fits_of_field hs :)

/-- The indentation has 64 bits. -/
def PrintConfig.Fits (c : PrintConfig) : Prop := c.indent < UInt64.size

instance : Lossless PrintConfig PrintConfig.Fits PrintConfigForm := by
  refine .of_form (fun c hc => ?_) (fun j c => ?_) ?_
  · have hindent : CountForm (encode c.indent) c.indent := form_encode hc
    unfold encode instCodecPrintConfig
    exact .mk (.inl (by simpa using hindent)) (.inl (by simp [form_encode]))
  · unfold decode instCodecPrintConfig
    constructor
    · intro h
      cases j with
      | obj fields =>
        simp only [Option.bind_eq_bind, Option.bind_eq_some_iff, Option.pure_def, Option.some.injEq,
          fieldOr?_eq_some_iff] at h
        obtain ⟨indent, hindent, namePrefix, hprefix, rfl⟩ := h
        exact .mk hindent hprefix
      | _ => cases h
    · rintro ⟨hindent, hprefix⟩
      simp only [Option.bind_eq_bind, Option.bind_eq_some_iff, Option.pure_def, Option.some.injEq,
        fieldOr?_eq_some_iff]
      exact ⟨_, hindent, _, hprefix, rfl⟩
  · rintro j c ⟨hindent | ⟨-, rfl⟩, -⟩
    · exact (fits_of_field hindent :)
    · show 2 < UInt64.size
      decide

/-! ## The codec -/

/-- **The JSON codec loses nothing**, and reads an angle as its reduced coefficient. What it reads is
data in the forms of the protocol, which are the forms that it writes. -/
theorem codec_lossless :
    Lossless Circuit Circuit.Fits CircuitForm ∧
      Lossless Instruction (fun _ => True) InstructionForm ∧
      Lossless Attribute (fun _ => True) AttributeForm ∧
      Lossless Binding (fun _ => True) BindingForm ∧
      Lossless Program Program.Fits ProgramForm ∧
      Lossless PrintConfig PrintConfig.Fits PrintConfigForm ∧
      (∀ (j : Json) (c : Circuit), decode j = some c → decode (encode c) = some c) ∧
      ∀ x : Binary64, x.bits < Binary64.two.bits → (Angle.reduce x).coefficient = x :=
  ⟨inferInstance, inferInstance, inferInstance, inferInstance, inferInstance, inferInstance,
    fun _ _ => Codec.decode_again,
    fun x hx => congrArg Angle.coefficient (Angle.reduce_coefficient ⟨x, hx⟩)⟩

/-- A circuit whose only value is not in its table, with the angle `3π` in its data. -/
theorem codec_lossless_undefined :
    let c : Circuit := ⟨#[], #[], #[.constant (.rz (.reduce (.ofInt 3))) ⟨7⟩]⟩
    let record := Json.obj [("gate", .variant "Rz" (.int 3)), ("out", .int 7)]
    let j := Json.obj [("arguments", .arr []), ("values", .arr []),
      ("ops", .arr [.variant "Gate" (.variant "Constant" record)])]
    decode j = some c ∧ decode (encode c) = some c := by
  intro c record j
  have hrecord : InstructionForm (.variant "Gate" (.variant "Constant" record)) _ :=
    .constant (by simpa [record] using .rz (.int 3)) (by simpa [record] using .mk (.int 7))
  have hj : CircuitForm j c := by
    refine .mk (by simpa [j] using .arr .nil) (by simpa [j] using .arr .nil) ?_
    simpa [j] using .arr (.cons hrecord .nil)
  have hdecode := (codec_lossless.1.decode_iff j c).2 hj
  exact ⟨hdecode, codec_lossless.2.2.2.2.2.2.1 j c hdecode⟩

end GateIR

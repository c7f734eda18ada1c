import Introspect.Document.Decode
import Introspect.Proofs.Json.Tree
import Mathlib.Data.List.Forall2

/-!
# Accepted records

For each decoder, when it succeeds and with which value, said without the order in which things are
looked at. Errors do depend on that order; success does not.

* `decodeItems_eq_ok`, `decodeList_eq_ok`, `decodeOption_eq_ok` — lists and optional values;
* `Schema.Admits` — members whose names can be read, of which none is for a field that another one
  is for, and of which those for no field can be skipped;
* `Schema.Filled` — a record whose fields are decoded from the parts given for them, and blank where
  nothing is given;
* `Schema.ofMembers_eq_ok`, `Schema.ofItems_eq_ok` — objects and arrays that hold a record;
* `Schema.decode_eq_ok` — the same for both forms at once, a draft giving its `Schema.Parts`.
-/

namespace Introspect

/-! ### Values of a shape -/

section Shapes

variable {α : Type}

/-- Items are decoded when each of them is, one after the other. -/
theorem decodeItems_eq_ok {decode : Draft → Decoded α} {ds : List Draft} {xs : List α} :
    decodeItems decode ds = .ok xs ↔ List.Forall₂ (fun d x => decode d = .ok x) ds xs := by
  induction ds generalizing xs with
  | nil => simp [decodeItems, eq_comm]
  | cons d ds ih =>
    simp only [decodeItems, Decoded.bind_eq_ok, ih, List.forall₂_cons_left_iff, Decoded.pure_eq_ok,
      Except.ok.injEq]
    refine ⟨?_, ?_⟩
    · rintro ⟨x, hx, xs', hxs, rfl⟩
      exact ⟨x, xs', hx, hxs, rfl⟩
    · rintro ⟨x, xs', hx, hxs, rfl⟩
      exact ⟨x, hx, xs', hxs, rfl⟩

/-- What holds of all that the items can be decoded to holds of what they are decoded to. -/
theorem forall_of_forall₂ {decode : Draft → Decoded α} {p : α → Prop} {ds : List Draft}
    {xs : List α} (h : List.Forall₂ (fun d x => decode d = .ok x) ds xs)
    (hp : ∀ d ∈ ds, ∀ x, decode d = .ok x → p x) : ∀ x ∈ xs, p x := by
  induction h with
  | nil => exact fun x hx => absurd hx List.not_mem_nil
  | cons hx _ ih =>
    obtain ⟨hd, hds⟩ := List.forall_mem_cons.mp hp
    exact List.forall_mem_cons.mpr ⟨hd _ hx, ih hds⟩

/-- Each of the items is decoded to something. -/
theorem exists_of_forall₂ {decode : Draft → Decoded α} {ds : List Draft} {xs : List α}
    (h : List.Forall₂ (fun d x => decode d = .ok x) ds xs) : ∀ d ∈ ds, ∃ x, decode d = .ok x := by
  induction h with
  | nil => exact fun d hd => absurd hd List.not_mem_nil
  | cons hx _ ih => exact List.forall_mem_cons.mpr ⟨⟨_, hx⟩, ih⟩

/-- A scalar where a sequence or a record is wanted is never accepted. -/
theorem decodeScalar_refuse_ne_ok {wanted : Wanted} {d : Draft} {a : α} :
    d.decodeScalar wanted (Scalar.refuse wanted) ≠ .ok a := by
  cases d with
  | leaf x => cases x <;> simp [Draft.decodeScalar, Lexeme.read, Scalar.refuse]
  | array items ending => simp [Draft.decodeScalar]
  | object members ending => simp [Draft.decodeScalar]

/-- **A list is decoded** from an array that is closed and may be entered, when its items are. -/
theorem decodeList_eq_ok {decode : Place → Draft → Decoded α} {place : Place} {d : Draft}
    {xs : List α} :
    decodeList decode place d = .ok xs ↔
      ∃ items inside, d = .array items none ∧ place.enter = .ok inside ∧
        List.Forall₂ (fun e x => decode inside e = .ok x) items xs := by
  cases d with
  -- only an array can be a list
  | leaf x => simp [decodeList, decodeScalar_refuse_ne_ok]
  | object members ending => simp [decodeList, decodeScalar_refuse_ne_ok]
  | array items ending =>
    simp only [decodeList, Decoded.bind_eq_ok, decodeItems_eq_ok, Decoded.ofFault_eq_ok,
      Decoded.pure_eq_ok, Except.ok.injEq, Draft.array.injEq]
    refine ⟨?_, ?_⟩
    · rintro ⟨inside, hinside, xs, hxs, ⟨⟩, hending, rfl⟩
      exact ⟨items, inside, ⟨rfl, Draft.ending_eq_ok.mp hending⟩, hinside, hxs⟩
    · rintro ⟨items, inside, ⟨rfl, rfl⟩, hinside, hxs⟩
      exact ⟨inside, hinside, xs, hxs, (), rfl, rfl⟩

/-- **An optional value is decoded** from null, or from what the value is decoded from. -/
theorem decodeOption_eq_ok {decode : Draft → Decoded α} {d : Draft} {o : Option α} :
    decodeOption decode d = .ok o ↔
      (d = .leaf (.sound .null) ∧ o = none) ∨
        (d ≠ .leaf (.sound .null) ∧ ∃ x, decode d = .ok x ∧ o = some x) := by
  unfold decodeOption
  split
  · simp [eq_comm]
  · rename_i hnull
    have hnull : d ≠ .leaf (.sound .null) := hnull
    rw [Decoded.bind_eq_ok]
    simp [hnull, eq_comm]

end Shapes

/-! ### Records -/

namespace Schema

variable {α : Type} (S : Schema α) (ref : RefDecoder)

/-- The field that a member is for, if its name can be read and is the name of one. -/
def fieldOf? : Lexeme String → Option S.Field
  | .sound name => S.field? name
  | .faulty _ _ => none

/-- The fields that members are for. -/
def present (ms : List (Lexeme String × Draft)) : List S.Field :=
  ms.filterMap fun m => S.fieldOf? m.1

/-- **Members among which no field is given twice**, with names that can be read, and of which those
for no field can be skipped. -/
structure Admits (ms : List (Lexeme String × Draft)) : Prop where
  named : ∀ m ∈ ms, ∃ name, m.1 = .sound name
  skipped : ∀ m ∈ ms, S.fieldOf? m.1 = none → m.2.skip = .ok ()
  once : (S.present ms).Nodup

/-- The parts of an object: each member for the field that has its name. -/
def MemberPart (ms : List (Lexeme String × Draft)) (f : S.Field) (d : Draft) : Prop :=
  ∃ k, (k, d) ∈ ms ∧ S.fieldOf? k = some f

/-- The parts of an array: each item for the field at its position. -/
def ItemPart (ds : List Draft) (f : S.Field) (d : Draft) : Prop :=
  (f, d) ∈ S.fields.zip ds

/-- **A record whose fields are decoded from the parts given for them**, and blank where nothing is
given, which a required field does not suffer. -/
structure Filled (place : Place) (part : S.Field → Draft → Prop) (a : α) : Prop where
  given : ∀ f d, part f d → (S.shape f).decode ref place d = .ok (S.get a f)
  absent : ∀ f, (∀ d, ¬part f d) → S.isRequired f = false ∧ S.get a f = (S.shape f).blank

variable {S ref}

/-- **The slots of a finished record** hold its fields, except for those that may be missing and are
blank. -/
theorem finish_eq_ok {slots : S.Slots} {a : α} :
    S.finish slots = .ok a ↔
      ∀ f, slots f = some (S.get a f) ∨
        (slots f = none ∧ S.isRequired f = false ∧ S.get a f = (S.shape f).blank) := by
  -- the record of the slots has, at each field, the value of the slot or the blank one
  have hrecord : slots.record = a ↔ ∀ f, (slots f).getD (S.shape f).blank = S.get a f := by
    unfold Slots.record
    refine ⟨?_, ?_⟩
    · -- the fields of a record that is built are those it was built from
      rintro rfl f
      rw [S.get_build]
    · -- a record is determined by its fields
      intro h
      rw [funext h, S.build_get]
  unfold finish
  cases hmissing : slots.missing? with
  | some f =>
    -- a required field without a value is neither filled nor allowed to be blank
    have hf : S.isRequired f = true ∧ slots f = none := by simpa using List.find?_some hmissing
    simp only [reduceCtorEq, false_iff]
    intro h
    have := h f
    simp [hf] at this
  | none =>
    have hnone : ∀ f, S.isRequired f = true → slots f ≠ none := by
      intro f hf
      simpa [hf] using List.find?_eq_none.mp hmissing f (S.mem_fields f)
    simp only [Except.ok.injEq, hrecord]
    -- no required field is missing, so empty slots may be blank
    refine forall_congr' fun f => ?_
    cases hslot : slots f with
    | some v => simp
    | none =>
      have hrequired : S.isRequired f = false := by
        simpa using fun hf => hnone f hf hslot
      simp [hrequired, eq_comm]

/-- **A record is filled by parts** when it is finished from slots that hold what the parts are
decoded to. -/
theorem filled_iff_exists_slots {place : Place} {part : S.Field → Draft → Prop} {a : α} :
    S.Filled ref place part a ↔
      ∃ slots : S.Slots,
        (∀ f d, part f d → ∃ v, (S.shape f).decode ref place d = .ok v ∧ slots f = some v) ∧
          (∀ f, (∀ d, ¬part f d) → slots f = none) ∧ S.finish slots = .ok a := by
  refine ⟨?_, ?_⟩
  · rintro ⟨hgiven, habsent⟩
    classical
    -- the fields of the record, where a part is given for them
    let slots : S.Slots := fun f => if ∃ d, part f d then some (S.get a f) else none
    have hsome (f : S.Field) (d : Draft) (hd : part f d) : slots f = some (S.get a f) :=
      if_pos ⟨d, hd⟩
    have hnone (f : S.Field) (hf : ∀ d, ¬part f d) : slots f = none :=
      if_neg fun ⟨d, hd⟩ => hf d hd
    refine ⟨slots, fun f d hd => ⟨S.get a f, hgiven f d hd, hsome f d hd⟩, hnone, ?_⟩
    refine finish_eq_ok.mpr fun f => ?_
    by_cases hf : ∃ d, part f d
    · obtain ⟨d, hd⟩ := hf
      exact .inl (hsome f d hd)
    · have hf : ∀ d, ¬part f d := fun d hd => hf ⟨d, hd⟩
      exact .inr ⟨hnone f hf, habsent f hf⟩
  · -- the slots say field by field what the record is
    rintro ⟨slots, hgiven, hnone, hfinish⟩
    have hfields := finish_eq_ok.mp hfinish
    refine ⟨?_, ?_⟩
    · intro f d hd
      obtain ⟨v, hv, hslot⟩ := hgiven f d hd
      -- a slot with a value holds the field
      obtain hfield | ⟨hnone, -⟩ := hfields f
      · obtain rfl : v = S.get a f := by simpa [hslot] using hfield
        exact hv
      · simp [hslot] at hnone
    · intro f hf
      -- an empty slot stands for a blank field
      obtain hfield | ⟨-, hblank⟩ := hfields f
      · simp [hnone f hf] at hfield
      · exact hblank

/-! ### Objects -/

/-- One member: for no field, and skipped; or for a field that has no value yet. -/
theorem decodeMembers_cons_eq_ok {place : Place} {slots slots' : S.Slots} {k : Lexeme String}
    {d : Draft} {ms : List (Lexeme String × Draft)} :
    S.decodeMembers ref place slots ((k, d) :: ms) = .ok slots' ↔
      ∃ name, k = .sound name ∧
        ((S.field? name = none ∧ d.skip = .ok () ∧
            S.decodeMembers ref place slots ms = .ok slots') ∨
          ∃ f v, S.field? name = some f ∧ slots f = none ∧
            (S.shape f).decode ref place d = .ok v ∧
            S.decodeMembers ref place (slots.put f v) ms = .ok slots') := by
  cases k with
  -- a name that cannot be read is an error, whatever the value
  | faulty onRead onSkip => simp [decodeMembers, Lexeme.read]
  | sound name =>
    cases hf : S.field? name with
    | none => simp [decodeMembers, hf, Decoded.unit_bind_eq_ok]
    | some f =>
      -- a slot that holds a value already makes the member a repeated one
      cases hslot : slots f <;>
        simp [decodeMembers, hf, hslot, Decoded.bind_eq_ok]

/-- A member for no field is not present. -/
theorem present_cons_none {m : Lexeme String × Draft} {ms : List (Lexeme String × Draft)}
    (h : S.fieldOf? m.1 = none) : S.present (m :: ms) = S.present ms :=
  List.filterMap_cons_none h

/-- A member for a field makes the field present. -/
theorem present_cons_some {m : Lexeme String × Draft} {ms : List (Lexeme String × Draft)}
    {f : S.Field} (h : S.fieldOf? m.1 = some f) : S.present (m :: ms) = f :: S.present ms :=
  List.filterMap_cons_some h

/-- The fields that are present are those that some member is for. -/
theorem mem_present {ms : List (Lexeme String × Draft)} {f : S.Field} :
    f ∈ S.present ms ↔ ∃ m ∈ ms, S.fieldOf? m.1 = some f :=
  List.mem_filterMap

/-- Admission, one member at a time: a field must not be present among the later members too. -/
theorem admits_cons {m : Lexeme String × Draft} {ms : List (Lexeme String × Draft)} :
    S.Admits (m :: ms) ↔
      (∃ name, m.1 = .sound name) ∧ (S.fieldOf? m.1 = none → m.2.skip = .ok ()) ∧
        (∀ f, S.fieldOf? m.1 = some f → f ∉ S.present ms) ∧ S.Admits ms := by
  have honce : (S.present (m :: ms)).Nodup ↔
      (∀ f, S.fieldOf? m.1 = some f → f ∉ S.present ms) ∧ (S.present ms).Nodup := by
    cases hm : S.fieldOf? m.1 with
    | none => simp [present_cons_none hm]
    | some f => simp [present_cons_some hm, List.nodup_cons]
  refine ⟨?_, ?_⟩
  · rintro ⟨hnamed, hskipped, h⟩
    obtain ⟨hname, hnamed⟩ := List.forall_mem_cons.mp hnamed
    obtain ⟨hskip, hskipped⟩ := List.forall_mem_cons.mp hskipped
    exact ⟨hname, hskip, (honce.mp h).1, hnamed, hskipped, (honce.mp h).2⟩
  · rintro ⟨hname, hskip, hnew, hnamed, hskipped, h⟩
    exact ⟨List.forall_mem_cons.mpr ⟨hname, hnamed⟩, List.forall_mem_cons.mpr ⟨hskip, hskipped⟩,
      honce.mpr ⟨hnew, h⟩⟩

variable (ref) in
/-- **The slots after some members**: the members are for fields that had no value, and have put the
values decoded from them there; nothing else has changed. -/
structure Puts (place : Place) (slots : S.Slots) (ms : List (Lexeme String × Draft))
    (slots' : S.Slots) : Prop where
  free : ∀ f ∈ S.present ms, slots f = none
  given : ∀ m ∈ ms, ∀ f, S.fieldOf? m.1 = some f →
    ∃ v, (S.shape f).decode ref place m.2 = .ok v ∧ slots' f = some v
  rest : ∀ f, f ∉ S.present ms → slots' f = slots f

/-- No members change nothing. -/
theorem puts_nil {place : Place} {slots slots' : S.Slots} :
    Puts ref place slots [] slots' ↔ slots = slots' := by
  refine ⟨?_, ?_⟩
  · rintro ⟨-, -, hrest⟩
    exact funext fun f => (hrest f List.not_mem_nil).symm
  · rintro rfl
    exact ⟨fun f hf => absurd hf List.not_mem_nil, fun m hm => absurd hm List.not_mem_nil,
      fun f _ => rfl⟩

/-- A member for no field changes nothing. -/
theorem puts_cons_none {place : Place} {slots slots' : S.Slots} {m : Lexeme String × Draft}
    {ms : List (Lexeme String × Draft)} (hm : S.fieldOf? m.1 = none) :
    Puts ref place slots (m :: ms) slots' ↔ Puts ref place slots ms slots' := by
  have hpresent : S.present (m :: ms) = S.present ms := present_cons_none hm
  refine ⟨?_, ?_⟩
  · rintro ⟨hfree, hgiven, hrest⟩
    exact ⟨hpresent ▸ hfree, (List.forall_mem_cons.mp hgiven).2, hpresent ▸ hrest⟩
  · rintro ⟨hfree, hgiven, hrest⟩
    refine ⟨hpresent ▸ hfree, List.forall_mem_cons.mpr ⟨fun f hf => ?_, hgiven⟩, hpresent ▸ hrest⟩
    simp [hm] at hf

/-- **A member for a field fills its slot**, which was free, and leaves the others to later members.
-/
theorem puts_cons_some {place : Place} {slots slots' : S.Slots} {m : Lexeme String × Draft}
    {ms : List (Lexeme String × Draft)} {f : S.Field} (hm : S.fieldOf? m.1 = some f)
    (hnew : f ∉ S.present ms) :
    Puts ref place slots (m :: ms) slots' ↔
      slots f = none ∧ ∃ v, (S.shape f).decode ref place m.2 = .ok v ∧
        Puts ref place (slots.put f v) ms slots' := by
  have hpresent : S.present (m :: ms) = f :: S.present ms := present_cons_some hm
  have hother {g : S.Field} (hg : g ∈ S.present ms) : f ≠ g := fun h => hnew (h ▸ hg)
  refine ⟨?_, ?_⟩
  · rintro ⟨hfree, hgiven, hrest⟩
    rw [hpresent] at hfree hrest
    obtain ⟨hslot, hfree⟩ := List.forall_mem_cons.mp hfree
    obtain ⟨hvalue, hgiven⟩ := List.forall_mem_cons.mp hgiven
    obtain ⟨v, hv, hslot'⟩ := hvalue f hm
    refine ⟨hslot, v, hv, ?_, hgiven, ?_⟩
    · -- the fields of later members are still free
      intro g hg
      rw [Slots.put_of_ne slots (hother hg), hfree g hg]
    · -- of the fields of no later member only `f` has changed
      intro g hg
      by_cases hne : f = g
      · subst hne
        rw [hslot', Slots.put_self]
      · rw [Slots.put_of_ne slots hne, hrest g fun h => ?_]
        exact (List.mem_cons.mp h).elim (hne ∘ Eq.symm) hg
  · rintro ⟨hslot, v, hv, hfree, hgiven, hrest⟩
    refine ⟨?_, List.forall_mem_cons.mpr ⟨fun g hg => ?_, hgiven⟩, ?_⟩
    · rw [hpresent]
      refine List.forall_mem_cons.mpr ⟨hslot, fun g hg => ?_⟩
      rw [← slots.put_of_ne (hother hg) v, hfree g hg]
    · obtain rfl : f = g := by simpa [hm] using hg
      exact ⟨v, hv, by rw [hrest f hnew, Slots.put_self]⟩
    · rw [hpresent]
      intro g hg
      obtain ⟨hne, hg⟩ := not_or.mp (mt List.mem_cons.mpr hg)
      rw [hrest g hg, Slots.put_of_ne slots (Ne.symm hne)]

/-- **The members of an object**, one after the other, put values where they are for. -/
theorem decodeMembers_eq_ok {place : Place} {slots slots' : S.Slots}
    {ms : List (Lexeme String × Draft)} :
    S.decodeMembers ref place slots ms = .ok slots' ↔
      S.Admits ms ∧ Puts ref place slots ms slots' := by
  -- induction on the members, for all slots: each member changes them for those behind it
  induction ms generalizing slots with
  | nil =>
    rw [decodeMembers, puts_nil, Except.ok.injEq]
    exact ⟨fun h => ⟨⟨by simp, by simp, List.nodup_nil⟩, h⟩, fun h => h.2⟩
  | cons m ms ih =>
    obtain ⟨k, d⟩ := m
    rw [decodeMembers_cons_eq_ok, admits_cons]
    refine ⟨?_, ?_⟩
    · rintro ⟨name, rfl, ⟨hf, hskip, h⟩ | ⟨f, v, hf, hslot, hv, h⟩⟩
      · -- a member for no field leaves the slots as they are
        obtain ⟨hadmits, hputs⟩ := ih.mp h
        have hnone : S.fieldOf? (.sound name) = none := hf
        exact ⟨⟨⟨name, rfl⟩, fun _ => hskip, by simp [hnone], hadmits⟩,
          (puts_cons_none hnone).mpr hputs⟩
      · obtain ⟨hadmits, hputs⟩ := ih.mp h
        have hsome : S.fieldOf? (.sound name) = some f := hf
        -- the field has its value now, so no later member can be for it
        have hnew : f ∉ S.present ms := fun hmem => by
          simpa using hputs.free f hmem
        refine ⟨⟨⟨name, rfl⟩, by simp [hsome], ?_, hadmits⟩,
          (puts_cons_some hsome hnew).mpr ⟨hslot, v, hv, hputs⟩⟩
        intro g hg
        obtain rfl : f = g := by simpa [hsome] using hg
        exact hnew
    · rintro ⟨⟨⟨name, hk⟩, hskip, hnew, hadmits⟩, hputs⟩
      obtain rfl : k = .sound name := hk
      refine ⟨name, rfl, ?_⟩
      cases hf : S.field? name with
      | none =>
        have hnone : S.fieldOf? (.sound name) = none := hf
        exact .inl ⟨rfl, hskip hnone, ih.mpr ⟨hadmits, (puts_cons_none hnone).mp hputs⟩⟩
      | some f =>
        have hsome : S.fieldOf? (.sound name) = some f := hf
        obtain ⟨hslot, v, hv, hputs⟩ := (puts_cons_some hsome (hnew f hsome)).mp hputs
        exact .inr ⟨f, v, rfl, hslot, hv, ih.mpr ⟨hadmits, hputs⟩⟩

/-- **An object holds a record** when its members are admitted and fill it. -/
theorem ofMembers_eq_ok {place : Place} {ms : List (Lexeme String × Draft)}
    {ending : Option Fault} {a : α} :
    S.ofMembers ref place ms ending = .ok a ↔
      ending = none ∧ S.Admits ms ∧
        S.Filled ref place (S.MemberPart ms) a := by
  -- putting into empty slots is being given the parts: what is not put stays empty
  have hputs {slots : S.Slots} : Puts ref place .empty ms slots ↔
      (∀ f d, S.MemberPart ms f d →
        ∃ v, (S.shape f).decode ref place d = .ok v ∧ slots f = some v) ∧
      ∀ f, (∀ d, ¬S.MemberPart ms f d) → slots f = none := by
    refine ⟨?_, ?_⟩
    · rintro ⟨-, hgiven, hrest⟩
      refine ⟨fun f d ⟨k, hm, hf⟩ => hgiven (k, d) hm f hf, fun f hf => hrest f fun hmem => ?_⟩
      obtain ⟨m, hm, hmf⟩ := mem_present.mp hmem
      exact hf m.2 ⟨m.1, hm, hmf⟩
    · rintro ⟨hgiven, hrest⟩
      refine ⟨fun _ _ => rfl, fun m hm f hf => hgiven f m.2 ⟨m.1, hm, hf⟩, fun f hf => ?_⟩
      exact hrest f fun d ⟨k, hm, hkf⟩ => hf (mem_present.mpr ⟨(k, d), hm, hkf⟩)
  rw [ofMembers, Decoded.bind_eq_ok, filled_iff_exists_slots]
  simp only [Decoded.unit_bind_eq_ok, Decoded.ofFault_eq_ok, Draft.ending_eq_ok,
    decodeMembers_eq_ok, hputs]
  refine ⟨?_, ?_⟩
  · rintro ⟨slots, ⟨hadmits, hgiven, hrest⟩, hending, hfinish⟩
    exact ⟨hending, hadmits, slots, hgiven, hrest, hfinish⟩
  · rintro ⟨hending, hadmits, slots, hgiven, hrest, hfinish⟩
    exact ⟨slots, ⟨hadmits, hgiven, hrest⟩, hending, hfinish⟩

/-! ### Arrays -/

/-- Fields without an item left keep their slots, and none of them may be required. -/
theorem decodeFields_nil {place : Place} {ending : Option Fault} {fs : List S.Field} {index : Nat}
    {slots slots' : S.Slots} {rest : List Draft} :
    S.decodeFields ref place ending fs index slots [] = .ok (slots', rest) ↔
      rest = [] ∧ slots' = slots ∧ (fs ≠ [] → ending = none) ∧
        ∀ f ∈ fs, S.isRequired f = false := by
  induction fs generalizing index with
  | nil =>
    simp only [decodeFields, Except.ok.injEq, Prod.mk.injEq]
    exact ⟨fun ⟨hslots, hrest⟩ => ⟨hrest.symm, hslots.symm, by simp, by simp⟩,
      fun ⟨hrest, hslots, _⟩ => ⟨hslots.symm, hrest.symm⟩⟩
  | cons f fs ih =>
    cases ending with
    | some fault => simp [decodeFields, Draft.ending]
    | none =>
      cases hf : S.isRequired f with
      | true => simp [decodeFields, hf]
      | false => simp [decodeFields, hf, ih]

/-- **The items of an array**, one after the other, put values into the fields beside them. -/
theorem decodeFields_eq_ok {place : Place} {ending : Option Fault} {fs : List S.Field}
    (hfs : fs.Nodup) {index : Nat} {slots slots' : S.Slots} {ds rest : List Draft} :
    S.decodeFields ref place ending fs index slots ds = .ok (slots', rest) ↔
      rest = ds.drop fs.length ∧ (ds.length < fs.length → ending = none) ∧
        (∀ f ∈ fs, (∀ d, (f, d) ∉ fs.zip ds) → S.isRequired f = false) ∧
        (∀ f d, (f, d) ∈ fs.zip ds →
          ∃ v, (S.shape f).decode ref place d = .ok v ∧ slots' f = some v) ∧
        ∀ f, (∀ d, (f, d) ∉ fs.zip ds) → slots' f = slots f := by
  -- induction on the fields, which take the items one by one; `index` only serves the errors
  induction fs generalizing index slots ds with
  | nil =>
    simp only [decodeFields, List.length_nil, List.drop_zero, Except.ok.injEq, Prod.mk.injEq]
    refine ⟨?_, ?_⟩
    · rintro ⟨rfl, rfl⟩
      simp
    · rintro ⟨rfl, -, -, -, h⟩
      exact ⟨funext fun f => (h f (by simp)).symm, rfl⟩
  | cons f fs ih =>
    -- a field is not met again, so that its slot keeps the value that it is given now
    obtain ⟨hnew, hfs⟩ := List.nodup_cons.mp hfs
    cases ds with
    | nil =>
      rw [decodeFields_nil]
      simp only [List.zip_nil_right, List.not_mem_nil, not_false_eq_true, implies_true,
        true_imp_iff, false_imp_iff, List.drop_nil, true_and, ne_eq, reduceCtorEq,
        List.length_nil, List.length_cons, Nat.zero_lt_succ]
      refine ⟨?_, ?_⟩
      · rintro ⟨rfl, rfl, hending, hfields⟩
        exact ⟨rfl, hending, hfields, fun _ => rfl⟩
      · rintro ⟨rfl, hending, hfields, hslots⟩
        exact ⟨rfl, funext hslots, hending, hfields⟩
    | cons d ds =>
      -- none of the later items is for the field at hand
      have hself : ∀ e, (f, e) ∉ fs.zip ds := fun e he => hnew (List.of_mem_zip he).1
      have hmem {g : S.Field} {e : Draft} :
          (g, e) ∈ (f :: fs).zip (d :: ds) ↔ (g = f ∧ e = d) ∨ (g, e) ∈ fs.zip ds := by
        rw [List.zip_cons_cons, List.mem_cons, Prod.mk.injEq]
      simp only [decodeFields, Decoded.bind_eq_ok, ih hfs, List.length_cons, List.drop_succ_cons,
        Nat.add_lt_add_iff_right]
      refine ⟨?_, ?_⟩
      · rintro ⟨v, hv, hrest, hending, hmissing, hgiven, hother⟩
        refine ⟨hrest, hending, ?_, ?_, ?_⟩
        · -- the field at hand has an item, so it is not among those that lack one
          intro g hg hnone
          obtain rfl | hg := List.mem_cons.mp hg
          · exact absurd (hmem.mpr (.inl ⟨rfl, rfl⟩)) (hnone d)
          · exact hmissing g hg fun e he => hnone e (hmem.mpr (.inr he))
        · -- the value of the field at hand is not touched by the later ones
          intro g e hge
          obtain ⟨rfl, rfl⟩ | hge := hmem.mp hge
          · exact ⟨v, hv, by rw [hother g hself, Slots.put_self]⟩
          · exact hgiven g e hge
        · -- a field without any item is none of them
          intro g hnone
          have hne : f ≠ g := fun h => hnone d (hmem.mpr (.inl ⟨h.symm, rfl⟩))
          rw [hother g fun e he => hnone e (hmem.mpr (.inr he)), Slots.put_of_ne slots hne]
      · rintro ⟨hrest, hending, hmissing, hgiven, hother⟩
        obtain ⟨v, hv, hslot⟩ := hgiven f d (hmem.mpr (.inl ⟨rfl, rfl⟩))
        refine ⟨v, hv, hrest, hending, ?_, ?_, ?_⟩
        · intro g hg hnone
          refine hmissing g (List.mem_cons_of_mem f hg) fun e he => ?_
          obtain ⟨rfl, -⟩ | he := hmem.mp he
          · exact hnew hg
          · exact hnone e he
        · exact fun g e hge => hgiven g e (hmem.mpr (.inr hge))
        · intro g hnone
          by_cases hne : f = g
          · subst hne
            rw [hslot, Slots.put_self]
          · rw [Slots.put_of_ne slots hne]
            refine hother g fun e he => ?_
            obtain ⟨rfl, -⟩ | he := hmem.mp he
            · -- the field at hand does have an item
              exact hne rfl
            · exact hnone e he

/-- **An array holds a record** when it has no more items than there are fields and they fill it. -/
theorem ofItems_eq_ok {place : Place} {ds : List Draft} {ending : Option Fault} {a : α} :
    S.ofItems ref place ds ending = .ok a ↔
      ending = none ∧ ds.length ≤ S.size ∧
        S.Filled ref place (S.ItemPart ds) a := by
  have hrest : ds.drop S.fields.length = [] ↔ ds.length ≤ S.size := List.drop_eq_nil_iff
  rw [ofItems, Decoded.bind_eq_ok]
  refine ⟨?_, ?_⟩
  · rintro ⟨⟨slots, rest⟩, hslots, h⟩
    obtain ⟨rfl, -, -, hgiven, hother⟩ := (decodeFields_eq_ok S.nodup_fields).mp hslots
    cases hdrop : ds.drop S.fields.length with
    | cons d ds =>
      -- an item too many
      simp [hdrop] at h
    | nil =>
      simp only [hdrop, Decoded.unit_bind_eq_ok, Decoded.ofFault_eq_ok, Draft.ending_eq_ok] at h
      exact ⟨h.1, hrest.mp hdrop, filled_iff_exists_slots.mpr ⟨slots, hgiven, hother, h.2⟩⟩
  · rintro ⟨rfl, hlength, hfilled⟩
    obtain ⟨slots, hgiven, hnone, hfinish⟩ := filled_iff_exists_slots.mp hfilled
    -- all items have a field, and fields without an item are not required
    have hfields : S.decodeFields ref place none S.fields 0 .empty ds = .ok (slots, []) := by
      refine (decodeFields_eq_ok S.nodup_fields).mpr ⟨?_, fun _ => rfl, ?_, hgiven, hnone⟩
      · exact (hrest.mpr hlength).symm
      · exact fun f _ hf => (hfilled.absent f hf).1
    exact ⟨(slots, []), hfields, hfinish⟩

/-! ### Either form -/

variable (S) in
/-- **The parts that a draft gives for the fields of a record**, as an object or as an array. -/
inductive Parts : Draft → (S.Field → Draft → Prop) → Prop
  | object {ms : List (Lexeme String × Draft)} (hadmits : S.Admits ms) :
      Parts (.object ms none) (S.MemberPart ms)
  | array {ds : List Draft} (hlength : ds.length ≤ S.size) :
      Parts (.array ds none) (S.ItemPart ds)

/-- **A draft holds a record** when it may be entered and its parts fill the record. -/
theorem decode_eq_ok {place : Place} {d : Draft} {a : α} :
    S.decode ref place d = .ok a ↔
      ∃ inside part, place.enter = .ok inside ∧ S.Parts d part ∧ S.Filled ref inside part a := by
  refine ⟨?_, ?_⟩
  · intro h
    cases d with
    | leaf x =>
      have h : (Draft.leaf x).decodeScalar (.record S.title) (Scalar.refuse _) = .ok a := h
      exact absurd h decodeScalar_refuse_ne_ok
    | object ms ending =>
      obtain ⟨inside, hinside, h⟩ := Decoded.bind_eq_ok.mp h
      obtain ⟨rfl, hadmits, hfilled⟩ := ofMembers_eq_ok.mp h
      exact ⟨inside, _, hinside, .object hadmits, hfilled⟩
    | array ds ending =>
      obtain ⟨inside, hinside, h⟩ := Decoded.bind_eq_ok.mp h
      obtain ⟨rfl, hlength, hfilled⟩ := ofItems_eq_ok.mp h
      exact ⟨inside, _, hinside, .array hlength, hfilled⟩
  · rintro ⟨inside, part, hinside, hparts, hfilled⟩
    cases hparts with
    | object hadmits =>
      exact Decoded.bind_eq_ok.mpr ⟨inside, hinside, ofMembers_eq_ok.mpr ⟨rfl, hadmits, hfilled⟩⟩
    | array hlength =>
      exact Decoded.bind_eq_ok.mpr ⟨inside, hinside, ofItems_eq_ok.mpr ⟨rfl, hlength, hfilled⟩⟩

/-- Of an array with no more items than there are fields every item is a part. -/
theorem exists_itemPart {ds : List Draft} (h : ds.length ≤ S.size) {e : Draft} (he : e ∈ ds) :
    ∃ f, S.ItemPart ds f e := by
  -- the item at a position is for the field at that position
  obtain ⟨i, hi, rfl⟩ := List.getElem_of_mem he
  have hfield : i < S.fields.length := Nat.lt_of_lt_of_le hi h
  refine ⟨S.fields[i], List.mem_iff_getElem.mpr ⟨i, ?_, List.getElem_zip⟩⟩
  rw [List.length_zip]
  exact Nat.lt_min.mpr ⟨hfield, hi⟩

/-- The part for a field is less deep than the whole. -/
theorem Parts.depth_lt {d e : Draft} {part : S.Field → Draft → Prop} {f : S.Field}
    (hparts : S.Parts d part) (he : part f e) : e.depth < d.depth := by
  cases hparts with
  | object _ =>
    obtain ⟨k, hm, -⟩ := he
    exact Draft.depth_lt_of_mem_members hm
  | array _ => exact Draft.depth_lt_of_mem_items (List.of_mem_zip he).2

/-! ### The order of members -/

/-- Admission does not depend on the order of the members. -/
theorem Admits.perm {ms ms' : List (Lexeme String × Draft)} (h : S.Admits ms)
    (hperm : ms.Perm ms') : S.Admits ms' where
  named m hm := h.named m (hperm.mem_iff.mpr hm)
  skipped m hm := h.skipped m (hperm.mem_iff.mpr hm)
  once := (hperm.filterMap _).nodup_iff.mp h.once

/-- The parts of an object do not depend on the order of its members. -/
theorem memberPart_perm {ms ms' : List (Lexeme String × Draft)} (hperm : ms.Perm ms') :
    S.MemberPart ms = S.MemberPart ms' := by
  funext f d
  simp only [MemberPart, hperm.mem_iff]

end Schema

end Introspect

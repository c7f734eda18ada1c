import Introspect.Proofs.Document.Order

/-!
# The layout of a record

A record can be given as an object or as an array. Which of its parts is for which field is a matter
of the **layout** alone: the fields in their order, each with its name, its shape, and whether it
has to be there. A reference has the origin in front of the fields of its information, and so has a
layout like any record.

* `Kind.nodup_names` — no layout repeats a name;
* `Layout.fieldNames`, `Schema.nodup_fieldNames_iff` — the names of fields among members;
* `Json.given` — the members of an object, or those that an array stands for;
  `Json.eq_of_mem_given` — there is one under each name;
* `Schema.filled_treeMember_iff` — members that fill a record;
* `Schema.treeParts_iff`, `TypeRef.treeParts_iff` — the parts of either form are its given members;
* `Schema.decode_ofJson_eq_ok`, `TypeRef.decode_ofJson_eq_ok` — when a tree is accepted as a record
  or a reference, in terms of these members;
* `Entry.IsBlank`, `Shape.decode_blankTree` — a field that is written with its blank value;
* `Role` — what a value is decoded as, on its own or inside something else; `Role.record_cases` —
  if it has fields, it is a reference or a record; `Role.decode_array_ne_ok` — no record has more
  items than its layout has entries.
-/

namespace Introspect

/-! ### Layouts -/

/-- **A field as it is seen from outside.** -/
structure Entry where
  name : String
  shape : Shape
  required : Bool
  deriving DecidableEq

/-- **The fields of a record**, in the order of declaration. -/
abbrev Layout := List Entry

/-- The names of the fields. -/
def Layout.names (layout : Layout) : List String :=
  layout.map Entry.name

@[simp] theorem Layout.length_names (layout : Layout) : layout.names.length = layout.length :=
  List.length_map _

/-- The layout of a schema. -/
def Schema.layout {α : Type} (S : Schema α) : Layout :=
  S.fields.map fun f => ⟨S.key f, S.shape f, S.isRequired f⟩

/-- The layout of a reference, its origin first. -/
def TypeRef.layout : Layout :=
  ⟨originKey, .text, true⟩ :: TypeInfo.schema.layout

/-- The layout of a descriptor; a set of modifiers has none. -/
def Kind.layout? : Kind → Option Layout
  | typeRef => some TypeRef.layout
  | typeInfo => some TypeInfo.schema.layout
  | hostMethod => some HostMethod.schema.layout
  | scriptMethod => some ScriptMethod.schema.layout
  | hostField => some HostField.schema.layout
  | scriptVariable => some ScriptVariable.schema.layout
  | modifiers => none

namespace Schema

variable {α : Type} (S : Schema α)

/-- The names of a layout are the keys of the fields. -/
theorem names_layout : S.layout.names = S.fields.map S.key :=
  List.map_map

/-- A layout has an entry for each field. -/
theorem length_layout : S.layout.length = S.size :=
  List.length_map _

/-- The layout of a schema repeats no name, since keys belong to one field each. -/
theorem nodup_names : S.layout.names.Nodup := by
  rw [names_layout]
  exact S.nodup_fields.map S.key_injective

/-- Each field has its entry in the layout. -/
theorem mem_layout (f : S.Field) : ⟨S.key f, S.shape f, S.isRequired f⟩ ∈ S.layout :=
  List.mem_map.mpr ⟨f, S.mem_fields f, rfl⟩

end Schema

theorem TypeRef.nodup_names : layout.names.Nodup := by
  -- among the fields of the information there is none with the name of the origin
  refine List.nodup_cons.mpr ⟨?_, TypeInfo.schema.nodup_names⟩
  decide

/-- **No layout repeats a name.** -/
theorem Kind.nodup_names {k : Kind} {layout : Layout} (hk : k.layout? = some layout) :
    layout.names.Nodup := by
  cases k with
  | typeRef => cases hk; exact TypeRef.nodup_names
  | modifiers => cases hk
  | _ => cases hk; exact Schema.nodup_names _

/-! ### The names of fields among members -/

namespace Layout

/-- **The names of fields that members have**, each as often as members have it. -/
def fieldNames (layout : Layout) (ms : List (Lexeme String × Draft)) : List String :=
  ms.filterMap fun m => m.1.read.toOption.filter (· ∈ layout.names)

/-- The names of fields among members that stand behind one another. -/
theorem fieldNames_append {layout : Layout} (ms ns : List (Lexeme String × Draft)) :
    layout.fieldNames (ms ++ ns) = layout.fieldNames ms ++ layout.fieldNames ns :=
  List.filterMap_append

/-- Members in another order have the same names of fields, in another order. -/
theorem fieldNames_perm {layout : Layout} {ms ns : List (Lexeme String × Draft)}
    (h : ms.Perm ns) : (layout.fieldNames ms).Perm (layout.fieldNames ns) :=
  h.filterMap _

/-- Only names of fields are counted. -/
theorem mem_names_of_mem_fieldNames {layout : Layout} {ms : List (Lexeme String × Draft)}
    {name : String} (h : name ∈ layout.fieldNames ms) : name ∈ layout.names := by
  obtain ⟨m, -, hm⟩ := List.mem_filterMap.mp h
  obtain ⟨-, hname⟩ := Option.filter_eq_some_iff.mp hm
  exact of_decide_eq_true hname

end Layout

namespace Schema

variable {α : Type} {S : Schema α}

/-- The names of a layout are those of its fields. -/
theorem mem_names_iff {name : String} : name ∈ S.layout.names ↔ ∃ f, S.key f = name := by
  rw [names_layout, List.mem_map]
  exact exists_congr fun f => and_iff_right (S.mem_fields f)

/-- The entries of a layout are those of its fields. -/
theorem mem_layout_iff {e : Entry} :
    e ∈ S.layout ↔ ∃ f, e = ⟨S.key f, S.shape f, S.isRequired f⟩ := by
  rw [layout, List.mem_map]
  refine exists_congr fun f => ?_
  rw [and_iff_right (S.mem_fields f), eq_comm]

/-- The entry at a position is that of the field at this position. -/
theorem getElem?_layout_eq_some_iff {i : Nat} {e : Entry} :
    S.layout[i]? = some e ↔
      ∃ f, S.fields[i]? = some f ∧ ⟨S.key f, S.shape f, S.isRequired f⟩ = e := by
  rw [layout, List.getElem?_map, Option.map_eq_some_iff]

/-- The names of fields are the names of the fields that members are for. -/
theorem map_key_present (ms : List (Lexeme String × Draft)) :
    (S.present ms).map S.key = S.layout.fieldNames ms := by
  rw [present, List.map_filterMap, Layout.fieldNames]
  refine congrArg (List.filterMap · ms) (funext fun m => ?_)
  obtain ⟨k, d⟩ := m
  -- a name that cannot be read is for no field, and is no name of the layout
  cases k with
  | faulty onRead onSkip => rfl
  | sound name =>
    show (S.field? name).map S.key = (some name).filter (· ∈ S.layout.names)
    cases hf : S.field? name with
    | none =>
      have hname : name ∉ S.layout.names := by
        rintro hname
        obtain ⟨f, rfl⟩ := mem_names_iff.mp hname
        simp [S.field?_key] at hf
      exact (if_neg (by simpa using hname)).symm
    | some f =>
      obtain rfl := S.field?_eq_some_iff.mp hf
      have hname : S.key f ∈ S.layout.names := mem_names_iff.mpr ⟨f, rfl⟩
      exact (if_pos (by simpa using hname)).symm

/-- A field is present when its name is among the members. -/
theorem mem_fieldNames_iff {ms : List (Lexeme String × Draft)} {f : S.Field} :
    S.key f ∈ S.layout.fieldNames ms ↔ f ∈ S.present ms := by
  rw [← map_key_present, List.mem_map]
  refine ⟨?_, fun hf => ⟨f, hf, rfl⟩⟩
  rintro ⟨g, hg, hkey⟩
  exact S.key_injective g f hkey ▸ hg

/-- No field is present twice when no name of a field is repeated. -/
theorem nodup_fieldNames_iff {ms : List (Lexeme String × Draft)} :
    (S.layout.fieldNames ms).Nodup ↔ (S.present ms).Nodup := by
  rw [← map_key_present]
  exact List.nodup_map_iff S.key_injective

end Schema

/-! ### Given members -/

namespace Json

/-- **The members of a record**: those of an object, or the items of an array under the names of the
fields at their positions. -/
def given (names : List String) : Json → List (String × Json)
  | .object members => members
  | .array items => names.zip items
  | .scalar _ => []

/-- **An object, or an array with no more items than there are names.** -/
def IsRecord (names : List String) : Json → Prop
  | .object _ => True
  | .array items => items.length ≤ names.length
  | .scalar _ => False

/-- Given members are less deep. -/
theorem depth_lt_of_mem_given {names : List String} {j : Json} {m : String × Json}
    (hm : m ∈ j.given names) : m.2.depth < j.depth := by
  cases j with
  | scalar s => cases hm
  | array js => exact depth_lt_of_mem_items (List.of_mem_zip (b := m.2) hm).2
  | object ms => exact depth_lt_of_mem_members hm

section Names

variable {names : List String} {js : List Json}

/-- The names under which the items of an array stand are the first ones, in order. -/
theorem map_fst_zip_sublist : ((names.zip js).map Prod.fst).Sublist names := by
  induction names generalizing js with
  | nil => exact List.nil_sublist []
  | cons name names ih =>
    cases js with
    | nil => exact List.nil_sublist _
    | cons j js => exact ih.cons_cons name

/-- The items of an array stand under different names. -/
theorem nodup_fst_zip (hnames : names.Nodup) : ((names.zip js).map Prod.fst).Nodup :=
  hnames.sublist map_fst_zip_sublist

/-- **Under one name there is one given member.** -/
theorem eq_of_mem_given (hnames : names.Nodup) {j : Json} (hkeys : j.HasUniqueKeys) {name : String}
    {i i' : Json} (hi : (name, i) ∈ j.given names) (hi' : (name, i') ∈ j.given names) : i = i' := by
  have hfst : ((j.given names).map Prod.fst).Nodup := by
    -- the names of an object are those of its members, those of an array come from the layout
    cases j with
    | scalar s => exact List.nodup_nil
    | array js => exact nodup_fst_zip hnames
    | object ms => exact (hasUniqueKeys_object_iff.mp hkeys).1
  exact (Prod.mk.inj (List.inj_on_of_nodup_map hfst hi hi' rfl)).2

end Names

/-- **A tree that can be read at a place**: no name is repeated, and there is room. -/
structure ReadableAt (place : Place) (j : Json) : Prop where
  unique : j.HasUniqueKeys
  fits : place.Fits j.depth

/-- What is less deep fits inside. -/
theorem ReadableAt.inside {place : Place} {j i : Json} (h : j.ReadableAt place)
    (hi : i.HasUniqueKeys) (hdepth : i.depth < j.depth) : i.ReadableAt place.inside :=
  ⟨hi, (Place.enter_of_fits h.fits (Nat.zero_lt_of_lt hdepth)).2 _ hdepth⟩

/-- The items of a readable array are readable inside it. -/
theorem ReadableAt.item {place : Place} {js : List Json} {i : Json}
    (h : (array js).ReadableAt place) (hi : i ∈ js) : i.ReadableAt place.inside :=
  h.inside (hasUniqueKeys_array_iff.mp h.unique i hi) (depth_lt_of_mem_items hi)

/-- The members of a readable tree are readable inside it. -/
theorem ReadableAt.given {place : Place} {names : List String} {j : Json} {m : String × Json}
    (h : j.ReadableAt place) (hm : m ∈ j.given names) : m.2.ReadableAt place.inside := by
  refine h.inside ?_ (depth_lt_of_mem_given hm)
  cases j with
  | scalar s => cases hm
  | array js => exact hasUniqueKeys_array_iff.mp h.unique _ (List.of_mem_zip (b := m.2) hm).2
  | object ms => exact (hasUniqueKeys_object_iff.mp h.unique).2 _ hm

/-- What is collected need only be without repeated names. -/
theorem ReadableAt.collected {place : Place} {j : Json} (h : j.ReadableAt place) :
    j.ReadableAt .collected :=
  ⟨h.unique, trivial⟩

end Json

/-! ### Records -/

namespace Schema

variable {α : Type} {S : Schema α} {ref : RefDecoder} {place : Place} {j : Json}

/-- A member is for a field when it has the name of the field. -/
theorem treeMember_iff {ms : List (String × Json)} {f : S.Field} {i : Json} :
    S.TreeMember ms f i ↔ (S.key f, i) ∈ ms := by
  simp only [TreeMember, S.field?_eq_some_iff, exists_eq_right']

/-- A record is filled by members when each that is for a field is decoded as its value, and the
other fields are blank and need not be there. -/
theorem filled_treeMember_iff {ms : List (String × Json)} {a : α} :
    S.Filled ref place (draftsOf id (S.TreeMember ms)) a ↔
      (∀ f i, (S.key f, i) ∈ ms →
        (S.shape f).decode ref place (Draft.ofJson i) = .ok (S.get a f)) ∧
      ∀ f, (∀ i, (S.key f, i) ∉ ms) → S.isRequired f = false ∧ S.get a f = (S.shape f).blank := by
  constructor
  · -- what is said of drafts holds of trees, as these are the drafts of trees
    rintro ⟨hgiven, habsent⟩
    refine ⟨fun f i hi => hgiven f _ ⟨i, treeMember_iff.mpr hi, rfl⟩, fun f hf => habsent f ?_⟩
    rintro d ⟨i, hi, -⟩
    exact hf i (treeMember_iff.mp hi)
  · rintro ⟨hgiven, habsent⟩
    refine ⟨?_, fun f hf => habsent f fun i hi => hf _ ⟨i, treeMember_iff.mpr hi, rfl⟩⟩
    rintro f d ⟨i, hi, rfl⟩
    exact hgiven f i (treeMember_iff.mp hi)

/-- The parts of an object do not depend on the order of its members. -/
theorem treeMember_perm {ms ms' : List (String × Json)} (h : ms.Perm ms') :
    S.TreeMember ms = S.TreeMember ms' := by
  funext f i
  simp only [treeMember_iff, h.mem_iff]

/-- The items of an array are members under the names of their fields. -/
theorem treeItem_eq_treeMember (js : List Json) :
    S.TreeItem js = S.TreeMember (S.layout.names.zip js) := by
  funext f i
  rw [treeMember_iff, names_layout, List.zip_map_left, List.mem_map, TreeItem]
  refine propext ⟨fun h => ⟨(f, i), h, rfl⟩, ?_⟩
  rintro ⟨⟨g, i'⟩, hmem, h⟩
  -- a name belongs to one field
  obtain ⟨hkey, rfl⟩ : S.key g = S.key f ∧ i' = i := by simpa using h
  rwa [← S.key_injective g f hkey]

/-- **The parts of a tree are its given members**, in either form. -/
theorem treeParts_iff {part : S.Field → Json → Prop} :
    S.TreeParts j part ↔
      j.IsRecord S.layout.names ∧ part = S.TreeMember (j.given S.layout.names) := by
  have hlength {js : List Json} :
      (Json.array js).IsRecord S.layout.names ↔ js.length ≤ S.size := by
    rw [Json.IsRecord, Layout.length_names, length_layout]
  refine ⟨?_, ?_⟩
  -- an object is always a record; an array when it is not too long
  · rintro (ms | hjs)
    · exact ⟨trivial, rfl⟩
    · exact ⟨hlength.mpr hjs, treeItem_eq_treeMember _⟩
  · rintro ⟨hrecord, rfl⟩
    cases j with
    | scalar s => cases hrecord
    | object ms => exact .object ms
    | array js =>
      -- its items are given under the names at their positions
      show S.TreeParts (.array js) (S.TreeMember (S.layout.names.zip js))
      rw [← treeItem_eq_treeMember]
      exact .array (hlength.mp hrecord)

/-- **A tree holds a record** when its given members fill the record. -/
theorem decode_ofJson_eq_ok (hj : j.ReadableAt place) {a : α} :
    S.decode ref place (Draft.ofJson j) = .ok a ↔
      j.IsRecord S.layout.names ∧
        S.Filled ref place.inside (draftsOf id (S.TreeMember (j.given S.layout.names))) a := by
  rw [decode_rearranged_eq_ok hj.unique (Json.rearranged_self j) fun hpos =>
    (Place.enter_of_fits hj.fits hpos).1]
  simp only [treeParts_iff, and_assoc, exists_and_left, exists_eq_left]

end Schema

/-! ### References to types -/

namespace TypeRef

variable {place : Place} {j : Json}

/-- The origin is no field of the information. -/
theorem treeMember_cons_originKey (o : Json) (ms : List (String × Json)) :
    TypeInfo.schema.TreeMember ((originKey, o) :: ms) = TypeInfo.schema.TreeMember ms := by
  funext f i
  simp [Schema.treeMember_iff, key_ne_originKey f]

/-- **The parts of a tree are its given members**, of which one is the origin. -/
theorem treeParts_iff {o : Json} {part : TypeInfo.schema.Field → Json → Prop} :
    TreeParts j o part ↔
      j.IsRecord layout.names ∧ (originKey, o) ∈ j.given layout.names ∧
        part = TypeInfo.schema.TreeMember (j.given layout.names) := by
  have hlength {o' : Json} {js : List Json} :
      (Json.array (o' :: js)).IsRecord layout.names ↔ js.length ≤ TypeInfo.schema.size := by
    rw [Json.IsRecord, Layout.length_names, layout, List.length_cons, List.length_cons,
      Schema.length_layout, Nat.add_le_add_iff_right]
  have hitems (o' : Json) (js : List Json) : TypeInfo.schema.TreeItem js =
      TypeInfo.schema.TreeMember ((Json.array (o' :: js)).given layout.names) := by
    rw [Schema.treeItem_eq_treeMember]
    exact (treeMember_cons_originKey o' _).symm
  refine ⟨?_, ?_⟩
  · rintro (hperm | hjs)
    · -- the members without the origin fill the same fields, in the order they were found
      refine ⟨trivial, hperm.mem_iff.mpr (List.mem_cons_self ..), ?_⟩
      rw [← treeMember_cons_originKey o]
      exact Schema.treeMember_perm hperm.symm
    · -- the first item stands under the name of the origin
      exact ⟨hlength.mpr hjs, List.mem_cons_self .., hitems ..⟩
  · rintro ⟨hrecord, horigin, rfl⟩
    cases j with
    | scalar s => cases hrecord
    | object ms =>
      obtain ⟨before, behind, rfl⟩ := List.append_of_mem horigin
      have hperm : (before ++ (originKey, o) :: behind).Perm
          ((originKey, o) :: (before ++ behind)) := List.perm_middle
      show TreeParts _ o (TypeInfo.schema.TreeMember (before ++ (originKey, o) :: behind))
      rw [Schema.treeMember_perm hperm, treeMember_cons_originKey]
      exact .object hperm
    | array js =>
      cases js with
      -- without an origin there is no reference
      | nil => cases horigin
      | cons o' js =>
        -- the origin stands at the first position only
        obtain rfl : o = o' := by
          obtain h | h := List.mem_cons.mp horigin
          · exact (Prod.mk.inj h).2
          · exact absurd (List.of_mem_zip h).1 (by decide)
        rw [← hitems]
        exact .array (hlength.mp hrecord)

/-- **A tree holds a reference** when one of its given members is the origin and the others fill the
information. -/
theorem decode_ofJson_eq_ok (hj : j.ReadableAt place) {t : TypeRef} :
    decode place (Draft.ofJson j) = .ok t ↔
      j.IsRecord layout.names ∧
        (∃ o, (originKey, o) ∈ j.given layout.names ∧
          Origin.decode place.inside (Draft.ofJson o) = .ok t.origin) ∧
        TypeInfo.schema.Filled decode .collected
          (draftsOf id (TypeInfo.schema.TreeMember (j.given layout.names))) t.info := by
  -- every part that is less deep than the tree can be kept inside
  have hkeep : ∀ i : Json, i.depth < j.depth →
      place.inside.keep (Draft.ofJson (id i)) = .ok () := by
    intro i hi
    have hinside := (Place.enter_of_fits hj.fits (Nat.zero_lt_of_lt hi)).2
    exact Place.keep_ofJson_eq_ok.mpr (hinside i.depth hi)
  rw [decode_rearranged_eq_ok hj.unique (Json.rearranged_self j)
    (fun hpos => (Place.enter_of_fits hj.fits hpos).1) hkeep]
  simp only [treeParts_iff, id_eq]
  refine ⟨?_, ?_⟩
  · rintro ⟨o, P, ⟨hrecord, ho, rfl⟩, horigin, hfilled⟩
    exact ⟨hrecord, ⟨o, ho, horigin⟩, hfilled⟩
  · rintro ⟨hrecord, ⟨o, ho, horigin⟩, hfilled⟩
    exact ⟨o, _, ⟨hrecord, ho, rfl⟩, horigin, hfilled⟩

end TypeRef

/-! ### Blank fields -/

/-- **How the blank value of a shape is written.** A reference has no blank value. -/
def Shape.blankTree? : Shape → Option Json
  | text => some (.string "")
  | flag => some (.bool false)
  | word => some (.nat 0)
  | modifiers => some (.string "")
  | typeRef => none
  | optional _ => some .null
  | list _ => some (.array [])

/-- **A field that need not be there, written with its blank value.** -/
def Entry.IsBlank (e : Entry) (j : Json) : Prop :=
  e.required = false ∧ e.shape.blankTree? = some j

/-- What is written for a blank value is decoded as that value. -/
theorem Shape.decode_blankTree {s : Shape} {ref : RefDecoder} {place : Place} {j : Json}
    (h : s.blankTree? = some j) (hfits : place.Fits j.depth) :
    s.decode ref place (Draft.ofJson j) = .ok s.blank := by
  -- a list of no items is written as an array, for which there has to be room
  cases s with
  | typeRef => cases h
  | list s =>
    cases h
    exact decodeList_eq_ok.mpr ⟨[], place.inside, rfl, Place.enter_eq_ok.mpr ⟨hfits, rfl⟩, .nil⟩
  | _ => cases h; rfl

/-! ### Roles -/

/-- **What a value is decoded as**: the value of a field, or a descriptor on its own. -/
inductive Role where
  | value (s : Shape)
  | descriptor (k : Kind)

namespace Role

/-- What is decoded. -/
@[reducible] def Value : Role → Type
  | value s => s.Value
  | descriptor k => k.Value

/-- Decoding a value in its role. -/
def decode : (r : Role) → Place → Draft → Decoded r.Value
  | value s => s.decode TypeRef.decode
  | descriptor k => k.decode

/-- The layout of what is decoded, if that is a record or a reference. -/
def layout? : Role → Option Layout
  | value .typeRef => some TypeRef.layout
  | value _ => none
  | descriptor k => k.layout?

/-- **What has a layout is a reference or a record.** So what holds of these two decoders holds of
every role with a layout. -/
theorem record_cases {p : {α : Type} → (Place → Draft → Decoded α) → Layout → Prop}
    (reference : p TypeRef.decode TypeRef.layout)
    (record : ∀ {α : Type} (S : Schema α), p (S.decode TypeRef.decode) S.layout) {r : Role}
    {layout : Layout} (hr : r.layout? = some layout) : p r.decode layout := by
  -- a value of a field that has fields itself is a reference
  cases r with
  | value s =>
    cases s with
    | typeRef => cases hr; exact reference
    | _ => cases hr
  | descriptor k =>
    cases k with
    | typeRef => cases hr; exact reference
    | modifiers => cases hr
    | _ => cases hr; exact record _

end Role

/-- An array with more items than fields holds no record. -/
theorem Schema.decode_array_ne_ok {α : Type} {S : Schema α} {ref : RefDecoder} {place : Place}
    {ds : List Draft} {ending : Option Fault} (h : S.layout.length < ds.length) (a : α) :
    S.decode ref place (.array ds ending) ≠ .ok a := by
  intro hdecode
  obtain ⟨_, _, -, hparts, -⟩ := decode_eq_ok.mp hdecode
  cases hparts with
  | array hlength => exact absurd (S.length_layout ▸ h) (Nat.not_lt.mpr hlength)

/-- An array with more items than fields and the origin holds no reference. -/
theorem TypeRef.decode_array_ne_ok {place : Place} {ds : List Draft} {ending : Option Fault}
    (h : layout.length < ds.length) (t : TypeRef) : decode place (.array ds ending) ≠ .ok t := by
  intro hdecode
  rw [decode_eq] at hdecode
  obtain ⟨_, _, _, -, hparts, -, -⟩ := decodeWith_eq_ok.mp hdecode
  cases hparts with
  | array _ hlength =>
    have h := Nat.lt_of_succ_lt_succ h
    exact absurd (Schema.length_layout _ ▸ h) (Nat.not_lt.mpr hlength)

/-- **An array with more items than the layout has entries is never accepted**, wherever it
stands. -/
theorem Role.decode_array_ne_ok {r : Role} {layout : Layout} (hr : r.layout? = some layout)
    {place : Place} {ds : List Draft} {ending : Option Fault} (h : layout.length < ds.length)
    (v : r.Value) : r.decode place (.array ds ending) ≠ .ok v := by
  revert h v
  exact record_cases
    (p := fun decode layout =>
      layout.length < ds.length → ∀ v, decode place (.array ds ending) ≠ .ok v)
    (fun h t => TypeRef.decode_array_ne_ok h t) (fun _ h a => Schema.decode_array_ne_ok h a) hr

end Introspect

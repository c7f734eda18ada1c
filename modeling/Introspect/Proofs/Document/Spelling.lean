import Introspect.Proofs.Document.Meaning

/-!
# Arrays and objects

A record is written as an object, but it may also be given as an array of its fields in their order.
Such an array means what the object with the same values under the names of the first fields means:
a field behind the end of the array is one that the object leaves out. So the form of a record can
be changed wherever records and references stand inside one another.

* `Respelled` — records and references have another form, at any number of places;
* `Respelled.meansSame` — then the trees mean the same;
* `Respelled.array_object` — an array and its object;
* `Kind.forms_readAlike` — the forms are read alike, and arrays that are too long are never read.
-/

namespace Introspect

/-- **A tree in which records and references may have another form**, on the outside or anywhere
inside. -/
inductive Respelled : Role → Json → Json → Prop
  | refl (r : Role) (j : Json) : Respelled r j j
  | optional {s : Shape} {i j : Json} (h : Respelled (.value s) i j) :
      Respelled (.value (.optional s)) i j
  | list {s : Shape} {is js : List Json} (hlength : is.length = js.length)
      (hitems : ∀ p ∈ is.zip js, Respelled (.value s) p.1 p.2) :
      Respelled (.value (.list s)) (.array is) (.array js)
  /-- Each of the trees is an array or an object. They give the same names in the same order, and
  the values of the fields are respelled in turn. -/
  | record {r : Role} {layout : Layout} {i j : Json} (hr : r.layout? = some layout)
      (hi : i.IsRecord layout.names) (hj : j.IsRecord layout.names)
      (hnames : (i.given layout.names).map Prod.fst = (j.given layout.names).map Prod.fst)
      (hvalues : ∀ e ∈ layout, ∀ i' j', (e.name, i') ∈ i.given layout.names →
        (e.name, j') ∈ j.given layout.names → Respelled (.value e.shape) i' j') :
      Respelled r i j
  /-- An array with more items than fields has no other form, but its items may. -/
  | tooLong {r : Role} {layout : Layout} {is js : List Json} (hr : r.layout? = some layout)
      (his : layout.length < is.length) (hlength : is.length = js.length) :
      Respelled r (.array is) (.array js)

/-- **Another form means the same.** -/
theorem Respelled.meansSame {r : Role} {i j : Json} (h : Respelled r i j) : MeansSame r i j := by
  induction h with
  | refl r j => exact .refl r j
  | optional _ ih => exact .optional ih
  | list hlength _ ih => exact .list hlength ih
  | @record r layout i j hr hi hj hnames _ ih =>
    -- the names are the same, so no field is given on one side only
    have hgiven {name : String} {ms ns : List (String × Json)} {x : Json}
        (hfst : ms.map Prod.fst = ns.map Prod.fst) (hx : (name, x) ∈ ms) :
        ¬∀ y, (name, y) ∉ ns := by
      intro hnone
      have hmem : name ∈ ns.map Prod.fst := hfst ▸ List.mem_map.mpr ⟨_, hx, rfl⟩
      obtain ⟨⟨_, y⟩, hy, rfl⟩ := List.mem_map.mp hmem
      exact hnone y hy
    refine .record hr hi hj ih ?_ ?_
    · exact fun e _ x hx hnone => absurd hnone (hgiven hnames hx)
    · exact fun e _ y hy hnone => absurd hnone (hgiven hnames.symm hy)
  | tooLong hr his hlength => exact .tooLong hr his (hlength ▸ his)

/-! ### An array and its object -/

namespace Json

variable {names : List String} {js : List Json}

/-- An array and its object have the same depth. -/
theorem depth_object_zip (hlength : js.length ≤ names.length) :
    (object (names.zip js)).depth = (array js).depth := by
  rw [depth, depth, Nat.add_right_cancel_iff]
  -- the names come from the layout, of which there are enough for all items
  induction js generalizing names with
  | nil => rw [List.zip_nil_right, depthMembers, depthItems]
  | cons j js ih =>
    cases names with
    | nil => cases hlength
    | cons name names =>
      rw [List.zip_cons_cons, depthMembers, depthItems, ih (Nat.le_of_succ_le_succ hlength)]

/-- The object of an array repeats no name, if its items do not. -/
theorem hasUniqueKeys_object_zip (hnames : names.Nodup) (hjs : ∀ j ∈ js, j.HasUniqueKeys) :
    (object (names.zip js)).HasUniqueKeys := by
  refine hasUniqueKeys_object_iff.mpr ⟨nodup_fst_zip hnames, fun m hm => ?_⟩
  exact hjs m.2 (List.of_mem_zip (b := m.2) hm).2

end Json

/-- **An array has its object for another form.** -/
theorem Respelled.array_object {r : Role} {layout : Layout} (hr : r.layout? = some layout)
    (hnames : layout.names.Nodup) {js : List Json} (hlength : js.length ≤ layout.length) :
    Respelled r (.array js) (.object (layout.names.zip js)) := by
  have harray : (Json.array js).IsRecord layout.names := by
    rwa [Json.IsRecord, Layout.length_names]
  refine .record hr harray trivial rfl fun e _ i j hi hj => ?_
  -- under one name there is one value
  have hfst : ((layout.names.zip js).map Prod.fst).Nodup := Json.nodup_fst_zip hnames
  obtain rfl : i = j := (Prod.mk.inj (List.inj_on_of_nodup_map hfst hi hj rfl)).2
  exact .refl _ i

/-! ### Documents -/

namespace Kind

/-- **Arrays and objects are read alike.** For every descriptor with fields:

* an array of values for its first fields is read like the object that has these values under their
  names, and is just as deep;
* so are any two trees in which records and references have different forms, on the outside or
  anywhere inside;
* an array with more items than there are fields is never read. -/
theorem forms_readAlike {k : Kind} {layout : Layout} (hk : k.layout? = some layout) :
    (∀ js : List Json, js.length ≤ layout.length → (∀ j ∈ js, j.HasUniqueKeys) →
      (Json.object (layout.names.zip js)).depth = (Json.array js).depth ∧
        k.ReadAlike (.array js) (.object (layout.names.zip js))) ∧
    (∀ i j : Json, i.HasUniqueKeys → j.HasUniqueKeys → Respelled (.descriptor k) i j →
      k.ReadAlike i j) ∧
    ∀ js : List Json, layout.length < js.length → ∀ x,
      (∀ place, k.decode place (Draft.ofJson (.array js)) ≠ .ok x) ∧
        k.ofTree (.array js) ≠ .ok x ∧
          ∀ text, Json.Denoted text (.array js) → k.read text ≠ .ok x := by
  -- forms are what they mean, so that the general statement on meaning applies
  have hrespelled {i j : Json} (hi : i.HasUniqueKeys) (hj : j.HasUniqueKeys)
      (h : Respelled (.descriptor k) i j) : k.ReadAlike i j :=
    readAlike_of_meansSame hi hj h.meansSame
  refine ⟨fun js hlength hjs => ⟨?_, ?_⟩, fun i j hi hj h => hrespelled hi hj h,
    fun js hlength x => ?_⟩
  · -- first, the array and its object are equally deep
    exact Json.depth_object_zip (by rwa [Layout.length_names])
  · -- and they are other forms of each other
    have hnames := nodup_names hk
    have harray : (Json.array js).HasUniqueKeys := Json.hasUniqueKeys_array_iff.mpr hjs
    have hobject : (Json.object (layout.names.zip js)).HasUniqueKeys :=
      Json.hasUniqueKeys_object_zip hnames hjs
    exact hrespelled harray hobject (.array_object (r := .descriptor k) hk hnames hlength)
  · -- sorting leaves the number of items
    have hdecode (place : Place) {is : List Json} (his : is.length = js.length) :
        k.decode place (Draft.ofJson (.array is)) ≠ .ok x := by
      refine Role.decode_array_ne_ok (r := .descriptor k) hk ?_ x
      rwa [Draft.length_ofItems, his]
    refine ⟨fun place => hdecode place rfl, ?_, fun text htext => ?_⟩
    · rw [ofTree, Json.sorted, Json.sortedItems_eq_map]
      exact hdecode .tree (List.length_map _)
    · rw [read_of_denoted k htext]
      exact hdecode (.stream nestingLimit) rfl

/-- A field of the host as an array, as an object with its type still an array, as an object all
through, and as an array with an item too many; as trees and as texts. -/
theorem forms_readAlike_hostField :
    ∃ (layout : Layout) (js : List Json) (j : Json) (x : HostField),
      hostField.layout? = some layout ∧ js.length ≤ layout.length ∧
      (∀ i ∈ js, i.HasUniqueKeys) ∧ j.HasUniqueKeys ∧
      Respelled (.descriptor .hostField) (.array js) j ∧
      layout.length < (js ++ [Json.null]).length ∧
      hostField.ofTree (.array js) = .ok x ∧
      hostField.ofTree (.object (layout.names.zip js)) = .ok x ∧ hostField.ofTree j = .ok x ∧
      hostField.read (Json.array js).text = .ok x ∧
      hostField.read (Json.object (layout.names.zip js)).text = .ok x ∧
      hostField.read j.text = .ok x ∧
      ∀ y, hostField.ofTree (.array (js ++ [Json.null])) ≠ .ok y ∧
        hostField.read (Json.array (js ++ [Json.null])).text ≠ .ok y := by
  let t : List Json := [.string "native", .string "A"]
  let js : List Json := [.string "f", .nat 1, .array t]
  let u : Json := .object [("origin", .string "native"), ("name", .string "A")]
  let j : Json := .object [("name", .string "f"), ("access_flags", .nat 1), ("field_type", u)]
  -- the forms differ at the type and at the field around it
  have htype : Respelled (.value .typeRef) (.array t) u :=
    .array_object (r := .value .typeRef) rfl TypeRef.nodup_names (by decide)
  have hj : Respelled (.descriptor .hostField) (.array js) j := by
    have hname : Respelled (.value .text) (.string "f") (.string "f") := .refl ..
    have hflags : Respelled (.value .word) (.nat 1) (.nat 1) := .refl ..
    refine .record rfl (Nat.le_refl 3) trivial rfl ?_
    simpa [Schema.layout, Layout.names, HostField.schema, js, j, Json.given]
      using ⟨hname, hflags, htype⟩
  have hkeys : ∀ i ∈ js, i.HasUniqueKeys := by
    simp [js, t, Json.HasUniqueKeys, Json.ItemsHaveUniqueKeys]
  have hkeysj : j.HasUniqueKeys := by
    simp [j, u, Json.HasUniqueKeys, Json.MembersHaveUniqueKeys]
  have htree : hostField.ofTree (.array js) =
      .ok ⟨"f", 1, ⟨.native, ⟨"A", none, false, ∅, none, []⟩⟩⟩ :=
    Decoded.eq_ok_of_toOption (by decide +kernel)
  have hread : hostField.read (Json.array js).text =
      .ok ⟨"f", 1, ⟨.native, ⟨"A", none, false, ∅, none, []⟩⟩⟩ :=
    Decoded.eq_ok_of_toOption (by decide +kernel)
  obtain ⟨harrays, hforms, htooLong⟩ :=
    @forms_readAlike hostField HostField.schema.layout rfl
  obtain ⟨-, harray⟩ := harrays js (by decide) hkeys
  have hform := hforms _ j (Json.hasUniqueKeys_array_iff.mpr hkeys) hkeysj hj
  -- the one number among them is a natural that a text can show
  have hone : ∃ n < UInt64.size, (1 : Int) = n := ⟨1, by decide, rfl⟩
  have htextjs : Json.Denoted (Json.array js).text (.array js) :=
    Json.denoted_text (by simp [js, t, Json.HasNaturals, Json.ItemsHaveNaturals, hone])
  have htextzip := Json.denoted_text (j := .object (HostField.schema.layout.names.zip js)) (by
    simp [Schema.layout, Layout.names, HostField.schema, js, t, Json.HasNaturals,
      Json.MembersHaveNaturals, Json.ItemsHaveNaturals, hone])
  have htextj : Json.Denoted j.text j :=
    Json.denoted_text (by simp [j, u, Json.HasNaturals, Json.MembersHaveNaturals, hone])
  have htextlong :
      Json.Denoted (Json.array (js ++ [Json.null])).text (.array (js ++ [Json.null])) :=
    Json.denoted_text (by simp [js, t, Json.HasNaturals, Json.ItemsHaveNaturals, hone])
  refine ⟨_, js, j, _, rfl, by decide, hkeys, hkeysj, hj, by decide, htree,
    (harray.tree _).mp htree, (hform.tree _).mp htree, hread, ?_, ?_, fun y => ?_⟩
  · exact (harray.text _ _ htextjs htextzip (by decide) (by decide) _).mp hread
  · exact (hform.text _ _ htextjs htextj (by decide) (by decide) _).mp hread
  · obtain ⟨-, htreeLong, htextLong⟩ := htooLong (js ++ [Json.null]) (by decide) y
    exact ⟨htreeLong, htextLong _ htextlong⟩

end Kind

end Introspect

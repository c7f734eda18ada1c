import Introspect.Proofs.Document.Layout
import Mathlib.Data.List.Zip

/-!
# Documents that mean the same

Many trees stand for one descriptor. A record may have its members in any order, and among them
members that are for no field; a field that need not be there may be left out or be written with its
blank value; and a record may be an array instead of an object. All this can happen at every record
and reference inside a document, so it is a relation between trees, one for every role.

* `MeansSame` — two trees mean the same;
* `Schema.filled_of_agree` — given members that agree on the fields of a record fill the same
  records;
* `MeansSame.decode_eq_ok` — what is accepted in one spelling is accepted in the other, and as the
  same value, by induction on how they mean the same;
* `Kind.readAlike_of_meansSame` — hence documents that mean the same are read alike, as texts and as
  trees; `Kind.read_iff_of_meansSame` says so of texts.
-/

namespace Introspect

/-- **Two trees mean the same** in a role.

Of a record or a reference nothing but the fields counts, so the order of its members is free, and
so is whatever stands under other names. -/
inductive MeansSame : Role → Json → Json → Prop
  | refl (r : Role) (j : Json) : MeansSame r j j
  | optional {s : Shape} {i j : Json} (h : MeansSame (.value s) i j) :
      MeansSame (.value (.optional s)) i j
  | list {s : Shape} {is js : List Json} (hlength : is.length = js.length)
      (hitems : ∀ p ∈ is.zip js, MeansSame (.value s) p.1 p.2) :
      MeansSame (.value (.list s)) (.array is) (.array js)
  /-- A field that is given in both trees has values that mean the same; one that is given in one of
  them only need not be there, and has its blank value. -/
  | record {r : Role} {layout : Layout} {i j : Json} (hr : r.layout? = some layout)
      (hi : i.IsRecord layout.names) (hj : j.IsRecord layout.names)
      (hboth : ∀ e ∈ layout, ∀ i' j', (e.name, i') ∈ i.given layout.names →
        (e.name, j') ∈ j.given layout.names → MeansSame (.value e.shape) i' j')
      (hleft : ∀ e ∈ layout, ∀ i', (e.name, i') ∈ i.given layout.names →
        (∀ j', (e.name, j') ∉ j.given layout.names) → e.IsBlank i')
      (hright : ∀ e ∈ layout, ∀ j', (e.name, j') ∈ j.given layout.names →
        (∀ i', (e.name, i') ∉ i.given layout.names) → e.IsBlank j') :
      MeansSame r i j
  /-- Arrays with more items than fields are all alike: none of them means anything. -/
  | tooLong {r : Role} {layout : Layout} {is js : List Json} (hr : r.layout? = some layout)
      (his : layout.length < is.length) (hjs : layout.length < js.length) :
      MeansSame r (.array is) (.array js)

/-! ### Members that agree -/

/-- **Members agree on the fields of a layout**: values on both sides are related, and a value on
one side is blank. -/
structure Layout.Agree (layout : Layout) (R : Shape → Json → Json → Prop)
    (ms ns : List (String × Json)) : Prop where
  both : ∀ e ∈ layout, ∀ i j, (e.name, i) ∈ ms → (e.name, j) ∈ ns → R e.shape i j
  left : ∀ e ∈ layout, ∀ i, (e.name, i) ∈ ms → (∀ j, (e.name, j) ∉ ns) → e.IsBlank i
  right : ∀ e ∈ layout, ∀ j, (e.name, j) ∈ ns → (∀ i, (e.name, i) ∉ ms) → e.IsBlank j

/-- Agreement is kept by fewer fields. -/
theorem Layout.Agree.tail {e : Entry} {layout : Layout} {R : Shape → Json → Json → Prop}
    {ms ns : List (String × Json)} (h : Layout.Agree (e :: layout) R ms ns) :
    layout.Agree R ms ns where
  both e he := h.both e (List.mem_cons_of_mem _ he)
  left e he := h.left e (List.mem_cons_of_mem _ he)
  right e he := h.right e (List.mem_cons_of_mem _ he)

/-- **The second tree is accepted wherever the first one is**, and as the same value. -/
def AcceptedToo (s : Shape) (i j : Json) : Prop :=
  ∀ place, i.ReadableAt place → j.ReadableAt place → ∀ v,
    s.decode TypeRef.decode place (Draft.ofJson i) = .ok v →
      s.decode TypeRef.decode place (Draft.ofJson j) = .ok v

/-- **Members that agree fill the same records.** -/
theorem Schema.filled_of_agree {α : Type} {S : Schema α} {place : Place}
    {ms ns : List (String × Json)} {a : α} (h : S.layout.Agree AcceptedToo ms ns)
    (hms : ∀ m ∈ ms, m.2.ReadableAt place) (hns : ∀ n ∈ ns, n.2.ReadableAt place)
    (hfilled : S.Filled TypeRef.decode place (draftsOf id (S.TreeMember ms)) a) :
    S.Filled TypeRef.decode place (draftsOf id (S.TreeMember ns)) a := by
  obtain ⟨hgiven, habsent⟩ := filled_treeMember_iff.mp hfilled
  have hblank {f : S.Field} {i : Json} (hi : (S.shape f).blankTree? = some i)
      (hreadable : i.ReadableAt place) :
      (S.shape f).decode TypeRef.decode place (Draft.ofJson i) = .ok (S.shape f).blank :=
    Shape.decode_blankTree hi hreadable.fits
  refine filled_treeMember_iff.mpr ⟨fun f j hj => ?_, fun f hf => ?_⟩
  · by_cases hf : ∃ i, (S.key f, i) ∈ ms
    · -- given on both sides
      obtain ⟨i, hi⟩ := hf
      exact h.both _ (S.mem_layout f) i j hi hj place (hms _ hi) (hns _ hj) _ (hgiven f i hi)
    · -- left out before, and now written with its blank value
      have hf : ∀ i, (S.key f, i) ∉ ms := fun i hi => hf ⟨i, hi⟩
      obtain ⟨-, htree⟩ := h.right _ (S.mem_layout f) j hj hf
      rw [(habsent f hf).2]
      exact hblank htree (hns _ hj)
  · by_cases hf' : ∃ i, (S.key f, i) ∈ ms
    · -- written with its blank value before, and now left out
      obtain ⟨i, hi⟩ := hf'
      obtain ⟨hrequired, htree⟩ := h.left _ (S.mem_layout f) i hi hf
      have hvalue := (hgiven f i hi).symm.trans (hblank htree (hms _ hi))
      exact ⟨hrequired, Except.ok.inj hvalue⟩
    · -- left out on both sides
      exact habsent f fun i hi => hf' ⟨i, hi⟩

/-! ### Records and references -/

/-- Trees whose members agree hold the same records. -/
theorem Schema.decode_of_agree {α : Type} {S : Schema α} {place : Place} {i j : Json} {a : α}
    (hi : i.ReadableAt place) (hj : j.ReadableAt place) (hrecord : j.IsRecord S.layout.names)
    (hagree : S.layout.Agree AcceptedToo (i.given S.layout.names) (j.given S.layout.names))
    (h : S.decode TypeRef.decode place (Draft.ofJson i) = .ok a) :
    S.decode TypeRef.decode place (Draft.ofJson j) = .ok a := by
  obtain ⟨-, hfilled⟩ := (decode_ofJson_eq_ok hi).mp h
  have hfilled := filled_of_agree hagree (fun _ => hi.given) (fun _ => hj.given) hfilled
  exact (decode_ofJson_eq_ok hj).mpr ⟨hrecord, hfilled⟩

/-- Trees with one origin whose other members agree hold the same references. -/
theorem TypeRef.decode_of_agree {place : Place} {i j : Json} {t : TypeRef}
    (hi : i.ReadableAt place) (hj : j.ReadableAt place) (hrecord : j.IsRecord layout.names)
    (horigin : ∀ o, (originKey, o) ∈ i.given layout.names → (originKey, o) ∈ j.given layout.names)
    (hagree : TypeInfo.schema.layout.Agree AcceptedToo (i.given layout.names)
      (j.given layout.names)) (h : decode place (Draft.ofJson i) = .ok t) :
    decode place (Draft.ofJson j) = .ok t := by
  obtain ⟨-, ⟨o, ho, hdecode⟩, hfilled⟩ := (decode_ofJson_eq_ok hi).mp h
  have hfilled := Schema.filled_of_agree hagree (fun _ hm => (hi.given hm).collected)
    (fun _ hm => (hj.given hm).collected) hfilled
  exact (decode_ofJson_eq_ok hj).mpr ⟨hrecord, ⟨o, horigin o ho, hdecode⟩, hfilled⟩

/-! ### Trees that mean the same -/

/-- A list is related to what another list is related to, item by item. -/
theorem forall₂_of_zip {α β : Type} {R R' : α → β → Prop} {is js : List α} {xs : List β}
    (hlength : is.length = js.length) (h : ∀ p ∈ is.zip js, ∀ x, R p.1 x → R' p.2 x)
    (hxs : List.Forall₂ R is xs) : List.Forall₂ R' js xs := by
  induction hxs generalizing js with
  | nil =>
    obtain rfl := List.eq_nil_of_length_eq_zero hlength.symm
    exact .nil
  | cons hx _ ih =>
    cases js with
    | nil => cases hlength
    | cons j js =>
      obtain ⟨hhead, htail⟩ := List.forall_mem_cons.mp h
      exact .cons (hhead _ hx) (ih (Nat.succ.inj hlength) htail)

namespace MeansSame

theorem symm {r : Role} {i j : Json} (h : MeansSame r i j) : MeansSame r j i := by
  induction h with
  | refl r j => exact .refl r j
  | optional _ ih => exact .optional ih
  -- the items are paired the other way round
  | @list s is js hlength _ ih =>
    refine .list hlength.symm fun p hp => ih p.swap ?_
    rw [← List.zip_swap]
    exact List.mem_map.mpr ⟨p, hp, rfl⟩
  | record hr hi hj _ hleft hright ih =>
    -- the conditions on the two sides change places
    exact .record hr hj hi (fun e he j' i' hj' hi' => ih e he i' j' hi' hj') hright hleft
  | tooLong hr his hjs => exact .tooLong hr hjs his

/-- Texts have one spelling. -/
theorem eq_of_text {i j : Json} (h : MeansSame (.value .text) i j) : i = j := by
  cases h with
  | refl => rfl
  | record hr => cases hr
  | tooLong hr => cases hr

/-- Nothing but `null` means the same as `null`. -/
theorem eq_null {r : Role} {i j : Json} (h : MeansSame r i j) (hi : i = .null) : j = .null := by
  induction h with
  | refl => exact hi
  | optional _ ih => exact ih hi
  | list => cases hi
  | record _ hrecord => subst hi; cases hrecord
  | tooLong => cases hi

theorem eq_null_iff {r : Role} {i j : Json} (h : MeansSame r i j) : i = .null ↔ j = .null :=
  ⟨h.eq_null, h.symm.eq_null⟩

/-- Members that agree have the same origin, which has to be there. -/
theorem mem_originKey {ms ns : List (String × Json)} {o : Json}
    (h : TypeRef.layout.Agree (fun s => MeansSame (.value s)) ms ns)
    (ho : (TypeRef.originKey, o) ∈ ms) : (TypeRef.originKey, o) ∈ ns := by
  have hentry : ⟨TypeRef.originKey, .text, true⟩ ∈ TypeRef.layout := List.mem_cons_self ..
  by_cases hns : ∃ o', (TypeRef.originKey, o') ∈ ns
  · -- the origins on both sides are texts, which have one spelling
    obtain ⟨o', ho'⟩ := hns
    have hsame : o = o' := (h.both _ hentry o o' ho ho').eq_of_text
    rwa [hsame]
  · -- an origin on one side only would have to be blank
    obtain ⟨hrequired, -⟩ := h.left _ hentry o ho fun o' ho' => hns ⟨o', ho'⟩
    cases hrequired

/-- **A tree is accepted when one is that means the same**, and as the same value. -/
theorem decode_eq_ok {r : Role} {i j : Json} (h : MeansSame r i j) {place : Place}
    (hi : i.ReadableAt place) (hj : j.ReadableAt place) {v : r.Value}
    (hv : r.decode place (Draft.ofJson i) = .ok v) : r.decode place (Draft.ofJson j) = .ok v := by
  induction h generalizing place with
  | refl => exact hv
  | @optional s i j hsame ih =>
    refine decodeOption_ofJson_eq_ok.mpr ?_
    obtain ⟨hi', rfl⟩ | ⟨hi', x, hx, rfl⟩ := decodeOption_ofJson_eq_ok.mp hv
    · exact .inl ⟨hsame.eq_null_iff.mp hi', rfl⟩
    · exact .inr ⟨mt hsame.eq_null_iff.mpr hi', x, ih hi hj hx, rfl⟩
  | @list s is js hlength _ ih =>
    obtain ⟨_, ⟨⟩, hxs⟩ := (decodeList_ofJson_eq_ok hi.fits).mp hv
    refine (decodeList_ofJson_eq_ok hj.fits).mpr ⟨js, rfl, ?_⟩
    refine forall₂_of_zip hlength (fun p hp x hx => ?_) hxs
    obtain ⟨hpi, hpj⟩ := List.of_mem_zip (a := p.1) (b := p.2) hp
    exact ih p hp (hi.item hpi) (hj.item hpj) hx
  -- the members that mean the same agree, and by the hypotheses agreement is being accepted too
  | @record r layout i j hr _ hrecord hboth hleft hright ih =>
    have hsame : layout.Agree (fun s => MeansSame (.value s)) (i.given layout.names)
        (j.given layout.names) := ⟨hboth, hleft, hright⟩
    have hagree : layout.Agree AcceptedToo (i.given layout.names) (j.given layout.names) := by
      refine ⟨fun e he i' j' hi' hj' place hi hj v hv => ?_, hleft, hright⟩
      exact ih e he i' j' hi' hj' hi hj hv
    have href (hlayout : TypeRef.layout = layout) {t : TypeRef}
        (ht : TypeRef.decode place (Draft.ofJson i) = .ok t) :
        TypeRef.decode place (Draft.ofJson j) = .ok t := by
      subst hlayout
      exact TypeRef.decode_of_agree hi hj hrecord (fun _ => mem_originKey hsame) hagree.tail ht
    -- the layout is that of a reference or that of a schema
    cases r with
    | value s =>
      cases s with
      | typeRef => exact href (Option.some.inj hr) hv
      | _ => cases hr
    | descriptor k =>
      cases k with
      | typeRef => exact href (Option.some.inj hr) hv
      | modifiers => cases hr
      | _ => cases hr; exact Schema.decode_of_agree hi hj hrecord hagree hv
  -- on neither side are there arrays that hold a record
  | tooLong hr his _ =>
    exact absurd hv (Role.decode_array_ne_ok hr (by rwa [Draft.length_ofItems]) _)

end MeansSame

/-! ### Documents -/

namespace Kind

/-- **Two trees are read alike**: on their own, and where texts denote them that nest no deeper than
a text may. -/
structure ReadAlike (k : Kind) (i j : Json) : Prop where
  tree : ∀ x, k.ofTree i = .ok x ↔ k.ofTree j = .ok x
  text : ∀ text text', Json.Denoted text i → Json.Denoted text' j → i.depth ≤ nestingLimit →
    j.depth ≤ nestingLimit → ∀ x, k.read text = .ok x ↔ k.read text' = .ok x

/-- A tree is read as it is decoded where nothing is in order yet. -/
theorem ofTree_eq_ok {k : Kind} {j : Json} (hkeys : j.HasUniqueKeys) {x : k.Value} :
    k.ofTree j = .ok x ↔ k.decode .tree (Draft.ofJson j) = .ok x :=
  (k.unordered j.depth j (Nat.le_refl _) hkeys .tree trivial x).symm

/-- **Trees that mean the same are read alike.** -/
theorem readAlike_of_meansSame {k : Kind} {i j : Json} (hi : i.HasUniqueKeys)
    (hj : j.HasUniqueKeys) (h : MeansSame (.descriptor k) i j) : k.ReadAlike i j := by
  -- where both trees fit, each is accepted as what the other is
  have hdecode (place : Place) (hdi : place.Fits i.depth) (hdj : place.Fits j.depth)
      (x : k.Value) :
      k.decode place (Draft.ofJson i) = .ok x ↔ k.decode place (Draft.ofJson j) = .ok x :=
    ⟨h.decode_eq_ok ⟨hi, hdi⟩ ⟨hj, hdj⟩, h.symm.decode_eq_ok ⟨hj, hdj⟩ ⟨hi, hdi⟩⟩
  refine ⟨fun x => ?_, fun text text' htext htext' hdi hdj x => ?_⟩
  · rw [ofTree_eq_ok hi, ofTree_eq_ok hj]
    exact hdecode .tree trivial trivial x
  · rw [read_of_denoted k htext, read_of_denoted k htext']
    exact hdecode (.stream nestingLimit) hdi hdj x

/-- **Documents that mean the same are read alike.** Two texts that repeat no name and nest at most
127 deep, whose trees differ in the order of members, in members for no field, and in blank fields
that are written or left out, are both read as one descriptor or both refused. -/
theorem read_iff_of_meansSame {k : Kind} {text text' : String} {i j : Json}
    (htext : Json.Denoted text i) (htext' : Json.Denoted text' j) (hi : i.HasUniqueKeys)
    (hj : j.HasUniqueKeys) (hdi : i.depth ≤ nestingLimit) (hdj : j.depth ≤ nestingLimit)
    (h : MeansSame (.descriptor k) i j) (x : k.Value) :
    k.read text = .ok x ↔ k.read text' = .ok x :=
  (readAlike_of_meansSame hi hj h).text text text' htext htext' hdi hdj x

/-- A variable whose type has its members in another order, with members for no field and with blank
fields written. -/
theorem read_iff_of_meansSame_scriptVariable :
    ∃ i j : Json, ∃ x,
      i.text = "\x7b\"name\":\"v\",\"type\":\x7b\"origin\":\"native\",\"name\":\"A\"\x7d\x7d" ∧
      j.text = "\x7b\"hash\":[null],\"type\":\x7b\"interfaces\":[],\"name\":\"A\"," ++
        "\"hash\":\x7b\x7d,\"origin\":\"native\"\x7d,\"modifiers\":\"\",\"name\":\"v\"\x7d" ∧
      Json.Denoted i.text i ∧ Json.Denoted j.text j ∧ i.HasUniqueKeys ∧ j.HasUniqueKeys ∧
      i.depth ≤ nestingLimit ∧ j.depth ≤ nestingLimit ∧
      MeansSame (.descriptor .scriptVariable) i j ∧
      scriptVariable.read i.text = .ok x ∧ scriptVariable.read j.text = .ok x := by
  let a : Json := .object [("origin", .string "native"), ("name", .string "A")]
  let b : Json := .object [("interfaces", .array []), ("name", .string "A"), ("hash", .object []),
    ("origin", .string "native")]
  -- in one of the trees the interfaces are left out, in the other they are blank
  have hab : MeansSame (.value (.optional .typeRef)) a b := by
    have horigin : MeansSame (.value .text) (.string "native") (.string "native") := .refl ..
    have hname : MeansSame (.value .text) (.string "A") (.string "A") := .refl ..
    refine .optional (.record rfl trivial trivial ?_ ?_ ?_)
    · simpa [TypeRef.layout, Schema.layout, TypeInfo.schema, a, b, Json.given, TypeRef.originKey]
        using ⟨horigin, hname⟩
    · simp [TypeRef.layout, Schema.layout, TypeInfo.schema, a, b, Json.given, TypeRef.originKey]
    · simp [TypeRef.layout, Schema.layout, TypeInfo.schema, a, b, Json.given, TypeRef.originKey,
        Entry.IsBlank, Shape.blankTree?, Schema.isRequired]
  let i : Json := .object [("name", .string "v"), ("type", a)]
  let j : Json := .object [("hash", .array [.null]), ("type", b), ("modifiers", .string ""),
    ("name", .string "v")]
  -- the same for the modifiers of the variable, beside a member for no field
  have hij : MeansSame (.descriptor .scriptVariable) i j := by
    have hname : MeansSame (.value .text) (.string "v") (.string "v") := .refl ..
    refine .record rfl trivial trivial ?_ ?_ ?_
    · simpa [Schema.layout, ScriptVariable.schema, i, j, Json.given] using ⟨hname, hab⟩
    · simp [Schema.layout, ScriptVariable.schema, i, j, Json.given]
    · simp [Schema.layout, ScriptVariable.schema, i, j, Json.given, Entry.IsBlank,
        Shape.blankTree?, Schema.isRequired]
  have hdenotedi : Json.Denoted i.text i := by
    refine Json.denoted_text ?_
    simp [i, a, Json.HasNaturals, Json.MembersHaveNaturals]
  have hdenotedj : Json.Denoted j.text j := by
    refine Json.denoted_text ?_
    simp [j, b, Json.HasNaturals, Json.MembersHaveNaturals, Json.ItemsHaveNaturals]
  have hi : i.HasUniqueKeys := by
    simp [i, a, Json.HasUniqueKeys, Json.MembersHaveUniqueKeys]
  have hj : j.HasUniqueKeys := by
    simp [j, b, Json.HasUniqueKeys, Json.MembersHaveUniqueKeys, Json.ItemsHaveUniqueKeys]
  have hread : scriptVariable.read i.text =
      .ok ⟨"v", ∅, some ⟨.native, ⟨"A", none, false, ∅, none, []⟩⟩⟩ :=
    Decoded.eq_ok_of_toOption (by decide +kernel)
  refine ⟨i, j, _, by decide +kernel, by decide +kernel, hdenotedi, hdenotedj, hi, hj, by decide,
    by decide, hij, hread, ?_⟩
  exact (read_iff_of_meansSame hdenotedi hdenotedj hi hj (by decide) (by decide) hij _).mp hread

end Kind

end Introspect

import Introspect.Proofs.Document.Accepted.Reference
import Introspect.Proofs.Document.Nesting
import Introspect.Proofs.Document.Place
import Introspect.Proofs.Json.Sorted
import Mathlib.Data.List.Nodup

/-!
# Accepted trees

The draft of a finished tree has nothing in it that could not be read, so of what a draft needs to
be accepted little is left: which parts of the tree are given for which fields. That is a matter of
the tree alone, and the same for its sorted form.

* `Schema.TreeParts`, `TypeRef.TreeParts` — the parts that a tree gives;
* `Schema.parts_ofJson_iff`, `TypeRef.TreeParts.parts` — the draft of a tree has the drafts of these
  parts, and that of a rearrangement has the drafts of what they were changed to;
* `Schema.decode_rearranged_eq_ok`, `TypeRef.decode_rearranged_eq_ok` — when a tree is accepted, and
  as what, in terms of its parts.
-/

namespace Introspect

/-- The drafts of trees that are parts, each tree changed by `g` before. -/
def draftsOf {F : Type} (g : Json → Json) (part : F → Json → Prop) (f : F) (d : Draft) : Prop :=
  ∃ j, part f j ∧ d = Draft.ofJson (g j)

namespace Schema

variable {α : Type} {S : Schema α}

variable (S) in
/-- The parts of an object: each member for the field that has its name. -/
def TreeMember (ms : List (String × Json)) (f : S.Field) (j : Json) : Prop :=
  ∃ name, (name, j) ∈ ms ∧ S.field? name = some f

variable (S) in
/-- The parts of an array: each item for the field at its position. -/
def TreeItem (js : List Json) (f : S.Field) (j : Json) : Prop :=
  (f, j) ∈ S.fields.zip js

/-- The drafts of the members of a tree are the parts of the draft, in any order. -/
theorem memberPart_ofMembers {g : Json → Json} {ms ms' : List (String × Json)}
    (hperm : ms'.Perm (ms.map fun m => (m.1, g m.2))) :
    S.MemberPart (Draft.ofMembers ms') = draftsOf g (S.TreeMember ms) := by
  -- a member of the draft is a member of the tree, with its value changed and made a draft
  have hmem {k : Lexeme String} {d : Draft} : (k, d) ∈ Draft.ofMembers ms' ↔
      ∃ m ∈ ms, Lexeme.sound m.1 = k ∧ Draft.ofJson (g m.2) = d := by
    rw [Draft.ofMembers_eq_map, (hperm.map _).mem_iff]
    simp
  funext f d
  refine propext ⟨?_, ?_⟩
  · rintro ⟨k, hk, hf⟩
    obtain ⟨m, hm, rfl, rfl⟩ := hmem.mp hk
    exact ⟨m.2, ⟨m.1, hm, hf⟩, rfl⟩
  · rintro ⟨j, ⟨name, hm, hf⟩, rfl⟩
    exact ⟨.sound name, hmem.mpr ⟨(name, j), hm, rfl, rfl⟩, hf⟩

/-- The drafts of the items of a tree are the parts of the draft. -/
theorem itemPart_ofItems (g : Json → Json) (js : List Json) :
    S.ItemPart (Draft.ofItems (js.map g)) = draftsOf g (S.TreeItem js) := by
  funext f d
  rw [ItemPart, Draft.ofItems_eq_map, List.map_map, List.zip_map_right, List.mem_map]
  refine propext ⟨?_, ?_⟩
  · rintro ⟨⟨f', j⟩, hj, h⟩
    obtain ⟨rfl, rfl⟩ := Prod.mk.inj h
    exact ⟨j, hj, rfl⟩
  · rintro ⟨j, hj, rfl⟩
    exact ⟨(f, j), hj, rfl⟩

/-- Members of a finished object are admitted where no name is repeated. -/
theorem admits_ofMembers {ms : List (String × Json)} (h : (ms.map Prod.fst).Nodup) :
    S.Admits (Draft.ofMembers ms) := by
  have hpresent : S.present (Draft.ofMembers ms) = (ms.map Prod.fst).filterMap S.field? := by
    rw [present, Draft.ofMembers_eq_map, List.filterMap_map, List.filterMap_map]
    rfl
  have hmem {m : Lexeme String × Draft} (hm : m ∈ Draft.ofMembers ms) :
      ∃ name j, m = (.sound name, Draft.ofJson j) := by
    rw [Draft.ofMembers_eq_map] at hm
    obtain ⟨n, -, rfl⟩ := List.mem_map.mp hm
    exact ⟨n.1, n.2, rfl⟩
  refine ⟨?_, ?_, ?_⟩
  · intro m hm
    obtain ⟨name, j, rfl⟩ := hmem hm
    exact ⟨name, rfl⟩
  · intro m hm _
    obtain ⟨name, j, rfl⟩ := hmem hm
    exact Draft.skip_ofJson j
  · -- a field has one name, so different names are for different fields
    rw [hpresent]
    have hinjective {name name' : String} {f : S.Field} (hf : S.field? name = some f)
        (hf' : S.field? name' = some f) : name = name' :=
      (S.field?_eq_some_iff.mp hf).symm.trans (S.field?_eq_some_iff.mp hf')
    exact List.Nodup.filterMap (fun _ _ _ => hinjective) h

variable (S) in
/-- **The parts that a tree gives for the fields of a record.** -/
inductive TreeParts : Json → (S.Field → Json → Prop) → Prop
  | object (ms : List (String × Json)) : TreeParts (.object ms) (S.TreeMember ms)
  | array {js : List Json} (hlength : js.length ≤ S.size) : TreeParts (.array js) (S.TreeItem js)

/-- What has parts has a level. -/
theorem TreeParts.depth_pos {j : Json} {part : S.Field → Json → Prop}
    (hparts : S.TreeParts j part) : 0 < j.depth := by
  cases hparts <;> exact Nat.succ_pos _

/-- The parts of a tree are less deep. -/
theorem TreeParts.depth_lt {j i : Json} {part : S.Field → Json → Prop} {f : S.Field}
    (hparts : S.TreeParts j part) (hi : part f i) : i.depth < j.depth := by
  cases hparts with
  | object ms =>
    obtain ⟨name, hm, -⟩ := hi
    exact Json.depth_lt_of_mem_members hm
  | array _ => exact Json.depth_lt_of_mem_items (List.of_mem_zip hi).2

/-- No key is repeated in a part of a tree in which none is. -/
theorem TreeParts.hasUniqueKeys {j i : Json} {part : S.Field → Json → Prop} {f : S.Field}
    (hparts : S.TreeParts j part) (hj : j.HasUniqueKeys) (hi : part f i) : i.HasUniqueKeys := by
  cases hparts with
  | object ms =>
    obtain ⟨name, hm, -⟩ := hi
    exact (Json.hasUniqueKeys_object_iff.mp hj).2 _ hm
  | array _ => exact Json.hasUniqueKeys_array_iff.mp hj i (List.of_mem_zip hi).2

/-- **The parts of the draft of a tree** are the drafts of its parts. -/
theorem parts_ofJson_iff {g : Json → Json} {j i : Json} (hj : j.HasUniqueKeys)
    (hi : Json.Rearranged g j i) {part : S.Field → Draft → Prop} :
    S.Parts (Draft.ofJson i) part ↔ ∃ P, S.TreeParts j P ∧ part = draftsOf g P := by
  refine ⟨?_, ?_⟩
  · intro h
    -- the draft of a scalar has no parts, and that of an array or object has those of its form
    cases hi with
    | scalar s => cases h
    | array js =>
      cases h with
      | array hlength =>
        rw [Draft.length_ofItems, List.length_map] at hlength
        exact ⟨_, .array hlength, itemPart_ofItems g js⟩
    | object hperm =>
      cases h with
      | object _ => exact ⟨_, .object _, memberPart_ofMembers hperm⟩
  · rintro ⟨P, hparts, rfl⟩
    cases hparts with
    | object ms =>
      cases hi with
      | object hperm =>
        rw [← memberPart_ofMembers hperm]
        -- no name is repeated in the other order either
        refine .object (admits_ofMembers ((hperm.map Prod.fst).nodup_iff.mpr ?_))
        rw [List.map_map]
        exact (Json.hasUniqueKeys_object_iff.mp hj).1
    | array hlength =>
      cases hi with
      | array js =>
        rw [← itemPart_ofItems]
        exact .array (by rwa [Draft.length_ofItems, List.length_map])

/-- **A tree holds a record**, rearranged or not, when its parts fill the record where it stands. -/
theorem decode_rearranged_eq_ok {ref : RefDecoder} {g : Json → Json} {place : Place} {j i : Json}
    (hj : j.HasUniqueKeys) (hi : Json.Rearranged g j i)
    (henter : 0 < j.depth → place.enter = .ok place.inside) {a : α} :
    S.decode ref place (Draft.ofJson i) = .ok a ↔
      ∃ P, S.TreeParts j P ∧ S.Filled ref place.inside (draftsOf g P) a := by
  rw [decode_eq_ok]
  refine ⟨?_, ?_⟩
  · rintro ⟨inside, part, hinside, hparts, hfilled⟩
    -- there is one place inside, and the parts are those of the tree
    obtain ⟨-, rfl⟩ := Place.enter_eq_ok.mp hinside
    obtain ⟨P, htree, rfl⟩ := (parts_ofJson_iff hj hi).mp hparts
    exact ⟨P, htree, hfilled⟩
  · rintro ⟨P, htree, hfilled⟩
    exact ⟨_, _, henter htree.depth_pos, (parts_ofJson_iff hj hi).mpr ⟨P, htree, rfl⟩, hfilled⟩

end Schema

/-! ### References to types -/

/-- A list that is, but for its order, the image of another one has its first element from there. -/
theorem exists_perm_cons_of_map_perm {α β : Type} {f : α → β} {as : List α} {b : β} {bs : List β}
    (h : (as.map f).Perm (b :: bs)) : ∃ a rest, as.Perm (a :: rest) ∧ f a = b ∧
      bs.Perm (rest.map f) := by
  obtain ⟨a, ha, rfl⟩ := List.mem_map.mp (h.mem_iff.mpr (List.mem_cons_self ..))
  obtain ⟨before, behind, rfl⟩ := List.append_of_mem ha
  have hperm : (before ++ a :: behind).Perm (a :: (before ++ behind)) := List.perm_middle
  refine ⟨a, before ++ behind, hperm, rfl, ?_⟩
  exact ((List.perm_cons (f a)).mp ((hperm.map f).symm.trans h)).symm

namespace TypeRef

/-- **The parts that a tree gives for a reference**: one for the origin, and those for the fields of
its information. -/
inductive TreeParts : Json → Json → (TypeInfo.schema.Field → Json → Prop) → Prop
  | object {ms rest : List (String × Json)} {origin : Json}
      (hperm : ms.Perm ((originKey, origin) :: rest)) :
      TreeParts (.object ms) origin (TypeInfo.schema.TreeMember rest)
  | array {js : List Json} {origin : Json} (hlength : js.length ≤ TypeInfo.schema.size) :
      TreeParts (.array (origin :: js)) origin (TypeInfo.schema.TreeItem js)

/-- What has parts has a level. -/
theorem TreeParts.depth_pos {j origin : Json} {part : TypeInfo.schema.Field → Json → Prop}
    (hparts : TreeParts j origin part) : 0 < j.depth := by
  cases hparts <;> exact Nat.succ_pos _

/-- The parts of a tree are less deep. -/
theorem TreeParts.depth_lt {j origin i : Json} {part : TypeInfo.schema.Field → Json → Prop}
    {f : TypeInfo.schema.Field} (hparts : TreeParts j origin part) (hi : part f i) :
    i.depth < j.depth := by
  cases hparts with
  | object hperm =>
    obtain ⟨name, hm, -⟩ := hi
    exact Json.depth_lt_of_mem_members (hperm.mem_iff.mpr (List.mem_cons_of_mem _ hm))
  | array _ =>
    exact Json.depth_lt_of_mem_items (List.mem_cons_of_mem _ (List.of_mem_zip hi).2)

/-- No key is repeated in a part of a tree in which none is. -/
theorem TreeParts.hasUniqueKeys {j origin i : Json} {part : TypeInfo.schema.Field → Json → Prop}
    {f : TypeInfo.schema.Field} (hparts : TreeParts j origin part) (hj : j.HasUniqueKeys)
    (hi : part f i) : i.HasUniqueKeys := by
  cases hparts with
  | object hperm =>
    obtain ⟨name, hm, -⟩ := hi
    exact (Json.hasUniqueKeys_object_iff.mp hj).2 _ (hperm.mem_iff.mpr (List.mem_cons_of_mem _ hm))
  | array _ =>
    exact Json.hasUniqueKeys_array_iff.mp hj i (List.mem_cons_of_mem _ (List.of_mem_zip hi).2)

/-- What the draft of a rearranged tree gives comes from the tree. -/
theorem exists_treeParts_of_parts {g : Json → Json} {place : Place} {j i : Json}
    (hi : Json.Rearranged g j i) {origin : Draft} {part : TypeInfo.schema.Field → Draft → Prop}
    (h : Parts place (Draft.ofJson i) origin part) :
    ∃ o P, TreeParts j o P ∧ origin = Draft.ofJson (g o) ∧ part = draftsOf g P := by
  cases hi with
  -- a scalar has no parts, and neither has an array without an origin
  | scalar s => cases h
  | array js =>
    cases js with
    | nil => cases h
    | cons o js =>
      cases h with
      | array hkept hlength =>
        rw [Draft.length_ofItems, List.length_map] at hlength
        exact ⟨o, _, .array hlength, rfl, Schema.itemPart_ofItems g js⟩
  | @object ms ms' hms =>
    cases h with
    | object hperm hkept hadmits =>
      -- the origin and the rest of the draft have to be traced back to members of the tree
      rw [Draft.ofMembers_eq_map] at hperm
      have hmap := (hms.map _).symm.trans hperm
      rw [List.map_map] at hmap
      obtain ⟨⟨name, o⟩, rest, hrest, ho, hdrafts⟩ := exists_perm_cons_of_map_perm hmap
      obtain ⟨hname, rfl⟩ := Prod.mk.inj ho
      obtain rfl : name = originKey := Lexeme.sound.inj hname
      refine ⟨o, _, .object hrest, rfl, ?_⟩
      rw [← Schema.memberPart_ofMembers (List.Perm.refl _), Draft.ofMembers_eq_map, List.map_map]
      exact Schema.memberPart_perm hdrafts

/-- What the tree gives is given by the draft of the rearranged tree, if it can be collected. -/
theorem TreeParts.parts {g : Json → Json} {place : Place} {j i o : Json}
    {P : TypeInfo.schema.Field → Json → Prop} (hparts : TreeParts j o P) (hj : j.HasUniqueKeys)
    (hi : Json.Rearranged g j i)
    (hkeep : ∀ j', j'.depth < j.depth → place.keep (Draft.ofJson (g j')) = .ok ()) :
    Parts place (Draft.ofJson i) (Draft.ofJson (g o)) (draftsOf g P) := by
  cases hparts with
  | @object ms rest _ hperm =>
    cases hi with
    | @object _ ms' hms =>
      -- the name of the origin is not repeated among the rest
      obtain ⟨hkeys, -⟩ := Json.hasUniqueKeys_object_iff.mp hj
      obtain ⟨hnew, hnodup⟩ := List.nodup_cons.mp ((hperm.map Prod.fst).nodup_iff.mp hkeys)
      let rest' := rest.map fun m => (m.1, g m.2)
      have hfst : rest'.map Prod.fst = rest.map Prod.fst := by
        rw [List.map_map]
        rfl
      rw [← Schema.memberPart_ofMembers (List.Perm.refl rest')]
      refine .object ?_ ?_ (Schema.admits_ofMembers (by rwa [hfst]))
      · -- the drafts are in the order of the tree, but for the origin
        rw [Draft.ofMembers_eq_map, Draft.ofMembers_eq_map]
        exact (hms.trans (hperm.map _)).map _
      · -- every other member has another name, and is less deep than the tree
        intro m hm
        rw [Draft.ofMembers_eq_map, List.map_map] at hm
        obtain ⟨n, hn, rfl⟩ := List.mem_map.mp hm
        refine ⟨⟨n.1, rfl, fun h => hnew (List.mem_map.mpr ⟨n, hn, h⟩)⟩, hkeep n.2 ?_⟩
        exact Json.depth_lt_of_mem_members (hperm.mem_iff.mpr (List.mem_cons_of_mem _ hn))
  | @array js _ hlength =>
    cases hi with
    -- the first item is the origin, so only those behind it are collected
    | array _ =>
      rw [← Schema.itemPart_ofItems]
      have hdrafts : (Draft.ofItems (js.map g)).length = js.length := by
        rw [Draft.length_ofItems, List.length_map]
      refine .array (fun d hd => ?_) (hdrafts ▸ hlength)
      rw [Draft.ofItems_eq_map, List.map_map] at hd
      obtain ⟨j', hj', rfl⟩ := List.mem_map.mp hd
      exact hkeep j' (Json.depth_lt_of_mem_items (List.mem_cons_of_mem _ hj'))

/-- **A tree holds a reference**, rearranged or not, when one of its parts is the origin and the
others fill the information, all of which can be collected where it stands. -/
theorem decode_rearranged_eq_ok {g : Json → Json} {place : Place} {j i : Json}
    (hj : j.HasUniqueKeys) (hi : Json.Rearranged g j i)
    (henter : 0 < j.depth → place.enter = .ok place.inside)
    (hkeep : ∀ j', j'.depth < j.depth → place.inside.keep (Draft.ofJson (g j')) = .ok ())
    {t : TypeRef} :
    decode place (Draft.ofJson i) = .ok t ↔
      ∃ o P, TreeParts j o P ∧ Origin.decode place.inside (Draft.ofJson (g o)) = .ok t.origin ∧
        TypeInfo.schema.Filled decode .collected (draftsOf g P) t.info := by
  rw [decode_eq, decodeWith_eq_ok]
  refine ⟨?_, ?_⟩
  · rintro ⟨inside, origin, part, hinside, hparts, horigin, hfilled⟩
    obtain ⟨-, rfl⟩ := Place.enter_eq_ok.mp hinside
    obtain ⟨o, P, htree, rfl, rfl⟩ := exists_treeParts_of_parts hi hparts
    exact ⟨o, P, htree, horigin, hfilled⟩
  · rintro ⟨o, P, htree, horigin, hfilled⟩
    exact ⟨_, _, _, henter htree.depth_pos, htree.parts hj hi hkeep, horigin, hfilled⟩

end TypeRef

end Introspect

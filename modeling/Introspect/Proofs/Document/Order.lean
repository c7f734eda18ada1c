import Introspect.Proofs.Document.Accepted.Tree
import Introspect.Proofs.Document.Nesting
import Introspect.Proofs.Document.RoundTrip

/-!
# The order of members

A text is read in the order in which it stands, with a limit on its nesting and without knowing how
it goes on; a tree is finished, sorted, and may be as deep as it likes. As long as no name is
repeated and the limit is kept, the two ways of reading succeed together and with the same result.
So the order of members, blanks, and the spelling of strings never matter to success.

* `Unordered` — a decoder that accepts a tree where it fits just as it accepts the sorted form once
  finished;
* `decodeScalar_ofJson_eq_ok`, `decodeOption_ofJson_eq_ok`, `decodeList_ofJson_eq_ok` — the trees
  that are accepted as scalars, optional values and lists;
* `Shape.unordered`, `Schema.unordered`, `TypeRef.unordered` — all decoders are of this kind, by
  induction on the depth of the tree;
* `Kind.ofTree_encode` — a descriptor comes back from its tree in sorted form;
* `Kind.read_iff_ofTree` — reading a text and reading the tree that it denotes.
-/

namespace Introspect

/-- **The sorted form of a tree is accepted in a finished document just when the tree is accepted**
where it fits, and as the same value. -/
def Unordered {α : Type} (decode : Place → Draft → Decoded α) (j : Json) : Prop :=
  ∀ place, place.Fits j.depth → ∀ a,
    decode place (Draft.ofJson j) = .ok a ↔ decode place.finished (Draft.ofJson j.sorted) = .ok a

/-- The same for all trees that are at most so deep and repeat no name. -/
def UnorderedTo {α : Type} (n : Nat) (decode : Place → Draft → Decoded α) : Prop :=
  ∀ j, j.depth ≤ n → j.HasUniqueKeys → Unordered decode j

/-! ### Places -/

/-- Where something with parts fits it can be entered, and what is less deep fits inside. -/
theorem Place.enter_of_fits {place : Place} {n : Nat} (h : place.Fits n) (hn : 0 < n) :
    place.enter = .ok place.inside ∧ ∀ m < n, place.inside.Fits m := by
  have hone : place.Fits 1 := h.mono hn
  exact ⟨enter_eq_ok.mpr ⟨hone, rfl⟩, fun m hm => (fits_inside hone).mpr (h.mono hm)⟩

/-! ### Values of a shape -/

/-- Of a scalar the sorted form is the scalar, and of anything else only its kind is looked at. -/
theorem decodeScalar_sorted {α : Type} (wanted : Wanted) (accept : Scalar → Except DataError α)
    (j : Json) :
    (Draft.ofJson j.sorted).decodeScalar wanted accept =
      (Draft.ofJson j).decodeScalar wanted accept := by
  cases j <;> rfl

/-- A scalar is decoded from a scalar. -/
theorem decodeScalar_ofJson_eq_ok {α : Type} {wanted : Wanted}
    {accept : Scalar → Except DataError α} {j : Json} {a : α} :
    (Draft.ofJson j).decodeScalar wanted accept = .ok a ↔
      ∃ s, j = .scalar s ∧ accept s = .ok a := by
  cases j with
  | scalar s =>
    show Decoded.ofData (accept s) = .ok a ↔ _
    simp [Decoded.ofData_eq_ok]
  | array js => simp [Draft.ofJson, Draft.decodeScalar]
  | object ms => simp [Draft.ofJson, Draft.decodeScalar]

/-- An optional value is decoded from `null` or from a tree of its value. -/
theorem decodeOption_ofJson_eq_ok {α : Type} {decode : Draft → Decoded α} {j : Json}
    {o : Option α} :
    decodeOption decode (Draft.ofJson j) = .ok o ↔
      (j = .null ∧ o = none) ∨ (j ≠ .null ∧ ∃ x, decode (Draft.ofJson j) = .ok x ∧ o = some x) := by
  -- null is the only tree with the draft of null
  have hnull : Draft.ofJson j = .leaf (.sound .null) ↔ j = .null := by
    cases j <;> simp [Draft.ofJson]
  rw [decodeOption_eq_ok, ne_eq, hnull]

/-- A list is decoded from an array, item by item. -/
theorem decodeList_ofJson_eq_ok {α : Type} {decode : Place → Draft → Decoded α} {place : Place}
    {j : Json} (hfits : place.Fits j.depth) {xs : List α} :
    decodeList decode place (Draft.ofJson j) = .ok xs ↔
      ∃ js, j = .array js ∧
        List.Forall₂ (fun i x => decode place.inside (Draft.ofJson i) = .ok x) js xs := by
  rw [decodeList_eq_ok]
  cases j with
  | scalar s => simp [Draft.ofJson]
  | object ms => simp [Draft.ofJson]
  | array js =>
    constructor
    · rintro ⟨_, _, ⟨⟩, hinside, hxs⟩
      -- there is one place inside, and the items stand there as they are
      obtain ⟨-, rfl⟩ := Place.enter_eq_ok.mp hinside
      rw [Draft.ofItems_eq_map, List.forall₂_map_left_iff] at hxs
      exact ⟨js, rfl, hxs⟩
    · rintro ⟨_, ⟨⟩, hxs⟩
      refine ⟨_, _, rfl, (Place.enter_of_fits hfits (Nat.succ_pos _)).1, ?_⟩
      rwa [Draft.ofItems_eq_map, List.forall₂_map_left_iff]

section Shapes

variable {α : Type} {n : Nat} {decode : Place → Draft → Decoded α}

/-- An optional value does not depend on the order of members, if the value does not. -/
theorem decodeOption_unordered (h : UnorderedTo n decode) :
    UnorderedTo n fun place => decodeOption (decode place) := by
  -- sorting leaves null what it is, and makes nothing else null
  intro j hj hkeys place hfits o
  have hnull : j.sorted = .null ↔ j = .null := by
    cases j <;> simp [Json.sorted]
  simp only [decodeOption_ofJson_eq_ok, ne_eq, hnull, h j hj hkeys place hfits]

/-- Lists are related alike when their elements are. -/
theorem forall₂_congr_of_mem {β γ : Type} {R R' : β → γ → Prop} {l : List β} {u : List γ}
    (h : ∀ b ∈ l, ∀ c, R b c ↔ R' b c) : List.Forall₂ R l u ↔ List.Forall₂ R' l u := by
  induction l generalizing u with
  | nil => rw [List.forall₂_nil_left_iff, List.forall₂_nil_left_iff]
  | cons b l ih =>
    obtain ⟨hb, hl⟩ := List.forall_mem_cons.mp h
    simp only [List.forall₂_cons_left_iff, hb, ih hl]

/-- A list does not depend on the order of members, if its items do not. -/
theorem decodeList_unordered (h : UnorderedTo n decode) : UnorderedTo n (decodeList decode) := by
  intro j hj hkeys place hfits xs
  rw [decodeList_ofJson_eq_ok hfits, decodeList_ofJson_eq_ok (place.fits_finished _),
    place.inside_finished]
  cases j with
  | scalar s => simp [Json.sorted]
  | object ms => simp [Json.sorted]
  | array js =>
    -- items keep their order, and each is accepted just as its sorted form is
    have hinside := (Place.enter_of_fits hfits (Nat.succ_pos _)).2
    have hitems : List.Forall₂ (fun i x => decode place.inside (Draft.ofJson i) = .ok x) js xs ↔
        List.Forall₂ (fun i x => decode place.inside.finished (Draft.ofJson i) = .ok x)
          (Json.sortedItems js) xs := by
      rw [Json.sortedItems_eq_map, List.forall₂_map_left_iff]
      refine forall₂_congr_of_mem fun i hi x => ?_
      have hdepth : i.depth < (Json.array js).depth := Json.depth_lt_of_mem_items hi
      exact h i (Nat.le_trans (Nat.le_of_lt hdepth) hj) (Json.hasUniqueKeys_array_iff.mp hkeys i hi)
        place.inside (hinside i.depth hdepth) x
    simp only [Json.sorted, Json.array.injEq, exists_eq_left', hitems]

end Shapes

/-- **Values of a field do not depend on the order of members**, if references do not. -/
theorem Shape.unordered {ref : RefDecoder} {n : Nat} (href : UnorderedTo n ref) (s : Shape) :
    UnorderedTo n (s.decode ref) := by
  -- induction on the shape; the depth is given up to references, which are the only ones with
  -- members
  induction s with
  | text | flag | word | modifiers =>
    intro j _ _ place _ a
    simp only [decode, decodeScalar_sorted]
  | typeRef => exact href
  | optional s ih => exact decodeOption_unordered ih
  | list s ih => exact decodeList_unordered ih

/-! ### Records -/

namespace Schema

variable {α : Type} {S : Schema α} {ref : RefDecoder} {n : Nat}

/-- Parts fill the same record when their sorted forms do. -/
theorem filled_sorted_iff (href : UnorderedTo n ref) {place : Place}
    {part : S.Field → Json → Prop}
    (hpart : ∀ f j, part f j → j.depth ≤ n ∧ j.HasUniqueKeys ∧ place.Fits j.depth) {a : α} :
    S.Filled ref place (draftsOf id part) a ↔
      S.Filled ref place.finished (draftsOf Json.sorted part) a := by
  -- each part is accepted just as its sorted form is, by the field it is for
  have hvalue (f : S.Field) (j : Json) (hj : part f j) :
      (S.shape f).decode ref place (Draft.ofJson j) = .ok (S.get a f) ↔
        (S.shape f).decode ref place.finished (Draft.ofJson j.sorted) = .ok (S.get a f) := by
    obtain ⟨hdepth, hkeys, hfits⟩ := hpart f j hj
    exact Shape.unordered href (S.shape f) j hdepth hkeys place hfits _
  refine ⟨?_, ?_⟩
  · -- from the parts to their sorted forms
    rintro ⟨hgiven, habsent⟩
    refine ⟨?_, fun f hf => habsent f ?_⟩
    · rintro f d ⟨j, hj, rfl⟩
      exact (hvalue f j hj).mp (hgiven f _ ⟨j, hj, rfl⟩)
    · rintro d ⟨j, hj, rfl⟩
      exact hf _ ⟨j, hj, rfl⟩
  · -- and back
    rintro ⟨hgiven, habsent⟩
    refine ⟨?_, fun f hf => habsent f ?_⟩
    · rintro f d ⟨j, hj, rfl⟩
      exact (hvalue f j hj).mpr (hgiven f _ ⟨j, hj, rfl⟩)
    · rintro d ⟨j, hj, rfl⟩
      exact hf _ ⟨j, hj, rfl⟩

/-- **Records do not depend on the order of members**, if references do not. -/
theorem unordered (href : UnorderedTo n ref) : UnorderedTo n (S.decode ref) := by
  intro j hj hkeys place hfits a
  -- one and the same tree gives the parts to both sides
  have hfilled {P : S.Field → Json → Prop} (hparts : S.TreeParts j P) :
      S.Filled ref place.inside (draftsOf id P) a ↔
        S.Filled ref place.inside.finished (draftsOf Json.sorted P) a := by
    have hinside := (Place.enter_of_fits hfits hparts.depth_pos).2
    refine filled_sorted_iff href fun f i hi => ?_
    have hdepth : i.depth < j.depth := hparts.depth_lt hi
    exact ⟨Nat.le_trans (Nat.le_of_lt hdepth) hj, hparts.hasUniqueKeys hkeys hi,
      hinside i.depth hdepth⟩
  rw [decode_rearranged_eq_ok hkeys (Json.rearranged_self j) fun hpos =>
      (Place.enter_of_fits hfits hpos).1,
    decode_rearranged_eq_ok hkeys (Json.rearranged_sorted hkeys) fun hpos =>
      (Place.enter_of_fits (place.fits_finished _) hpos).1, place.inside_finished]
  exact exists_congr fun P => and_congr_right hfilled

end Schema

/-! ### References to types -/

namespace TypeRef

/-- An origin is decoded from its sorted form as from itself. -/
theorem decode_origin_sorted (place : Place) (j : Json) :
    Origin.decode place.finished (Draft.ofJson j.sorted) =
      Origin.decode place (Draft.ofJson j) := by
  -- a finished place takes numbers for origins just when the place did
  have hscalar (s : Scalar) : Origin.ofScalar place.finished s = Origin.ofScalar place s := by
    cases place <;> rfl
  rw [Origin.decode, Origin.decode, decodeScalar_sorted]
  exact congrArg (Draft.decodeScalar .origin · (Draft.ofJson j)) (funext hscalar)

/-- **References do not depend on the order of members**, however deep their supertypes nest. -/
theorem unordered (n : Nat) : UnorderedTo n decode := by
  -- induction on the depth, as the references inside are decoded by the same decoder
  induction n using Nat.strongRecOn with
  | ind n ih =>
    intro j hj hkeys place hfits t
    have hfilled {o : Json} {P : TypeInfo.schema.Field → Json → Prop} (hparts : TreeParts j o P) :
        TypeInfo.schema.Filled decode .collected (draftsOf id P) t.info ↔
          TypeInfo.schema.Filled decode .collected (draftsOf Json.sorted P) t.info := by
      -- all the references inside are less deep than this one
      refine Schema.filled_sorted_iff (n := j.depth - 1) (ih _ ?_) fun f i hi => ?_
      · exact Nat.lt_of_lt_of_le (Nat.sub_lt hparts.depth_pos Nat.one_pos) hj
      · exact ⟨Nat.le_sub_one_of_lt (hparts.depth_lt hi), hparts.hasUniqueKeys hkeys hi, trivial⟩
    -- what is collected fits, in the stream because all of the reference does
    have hkeep : ∀ i : Json, i.depth < j.depth →
        place.inside.keep (Draft.ofJson (id i)) = .ok () := by
      intro i hi
      have hinside := (Place.enter_of_fits hfits (Nat.zero_lt_of_lt hi)).2
      exact Place.keep_ofJson_eq_ok.mpr (hinside i.depth hi)
    -- in a finished document everything fits
    have hkeepFinished : ∀ i : Json, i.depth < j.depth →
        place.finished.inside.keep (Draft.ofJson i.sorted) = .ok () := by
      intro i _
      rw [Place.inside_finished]
      exact Place.keep_ofJson_eq_ok.mpr (place.inside.fits_finished _)
    rw [decode_rearranged_eq_ok hkeys (Json.rearranged_self j)
        (fun hpos => (Place.enter_of_fits hfits hpos).1) hkeep,
      decode_rearranged_eq_ok hkeys (Json.rearranged_sorted hkeys)
        (fun hpos => (Place.enter_of_fits (place.fits_finished _) hpos).1) hkeepFinished,
      place.inside_finished]
    refine exists_congr fun o => exists_congr fun P => and_congr_right fun hparts => ?_
    rw [decode_origin_sorted, hfilled hparts, id_eq]

end TypeRef

/-! ### Descriptors -/

namespace Kind

/-- No descriptor depends on the order of members. -/
theorem unordered (k : Kind) (n : Nat) : UnorderedTo n k.decode := by
  cases k with
  | typeRef => exact TypeRef.unordered n
  | modifiers => exact Shape.unordered (TypeRef.unordered n) .modifiers
  | _ => exact Schema.unordered (TypeRef.unordered n)

/-- **A descriptor comes back from its tree**, however deep it is, with the members of every object
in the order of their names. -/
theorem ofTree_encode (k : Kind) (d : k.Value) :
    (k.encode d).sorted.IsSorted ∧ k.ofTree (k.encode d) = .ok d := by
  refine ⟨Json.isSorted_sorted _, ?_⟩
  -- in the order in which the members are written it comes back, as there is no limit in a tree
  have hwritten : k.decode .tree (Draft.ofJson (k.encode d)) = .ok d := comesBack k d .tree
  -- and the order does not matter, as no name is repeated
  have hkeys := (k.isEncoded_encode d).hasUniqueKeys
  rw [ofTree]
  exact (unordered k _ (k.encode d) (Nat.le_refl _) hkeys .tree trivial d).mp hwritten

/-- **Reading a text and reading the tree that it denotes** succeed together and with the same
result, if no name is repeated and the text nests at most 127 deep. Hence so do two texts whose
trees differ in the order of members only. -/
theorem read_iff_ofTree {text : String} {j : Json} (htext : Json.Denoted text j)
    (hkeys : j.HasUniqueKeys) (hdepth : j.depth ≤ nestingLimit) (k : Kind) (x : k.Value) :
    (k.read text = .ok x ↔ k.ofTree j = .ok x) ∧
      ∀ text' j', Json.Denoted text' j' → j'.HasUniqueKeys → j'.depth ≤ nestingLimit →
        j'.sorted = j.sorted → (k.read text' = .ok x ↔ k.read text = .ok x) := by
  have hread {text : String} {j : Json} (htext : Json.Denoted text j) (hkeys : j.HasUniqueKeys)
      (hdepth : j.depth ≤ nestingLimit) : k.read text = .ok x ↔ k.ofTree j = .ok x := by
    rw [read_of_denoted k htext, ofTree]
    exact unordered k j.depth j (Nat.le_refl _) hkeys (.stream nestingLimit) hdepth x
  -- the stream has room for the text, so that the tree is accepted in it just as it is when sorted
  refine ⟨hread htext hkeys hdepth, fun text' j' htext' hkeys' hdepth' hsorted => ?_⟩
  rw [hread htext hkeys hdepth, hread htext' hkeys' hdepth', ofTree, ofTree, hsorted]

/-- A variable with its members in another order than they are written in. -/
theorem read_iff_ofTree_scriptVariable :
    ∃ j, Json.Denoted "\x7b\"type\":null,\"name\":\"x\"\x7d" j ∧ j.HasUniqueKeys ∧
      j.depth ≤ nestingLimit ∧ scriptVariable.ofTree j = .ok ⟨"x", ∅, none⟩ ∧
      scriptVariable.read "\x7b\"type\":null,\"name\":\"x\"\x7d" = .ok ⟨"x", ∅, none⟩ := by
  let j : Json := .object [("type", .null), ("name", .string "x")]
  have htext : "\x7b\"type\":null,\"name\":\"x\"\x7d" = j.text := by decide +kernel
  have hdenoted : Json.Denoted j.text j := Json.denoted_text ⟨trivial, trivial, trivial⟩
  have hkeys : j.HasUniqueKeys := ⟨by decide, trivial, trivial, trivial⟩
  have htree : scriptVariable.ofTree j = .ok ⟨"x", ∅, none⟩ :=
    Decoded.eq_ok_of_toOption (by decide +kernel)
  rw [htext]
  refine ⟨j, hdenoted, hkeys, by decide, htree, ?_⟩
  exact (read_iff_ofTree hdenoted hkeys (by decide) .scriptVariable _).1.mpr htree

end Kind

end Introspect

import Introspect.Proofs.Document.Accepted.Reference
import Introspect.Proofs.Document.RoundTrip

/-!
# Writing what was read

Documents can be given in many ways that are never written: arrays for records, fields left out,
origins by number, any order, any spelling. Whatever was read, its written form nests no deeper than
a text may, and so it is read again with the same result.

The written form may well be *deeper* than what was read, because a blank list is written where it
was left out. What bounds it is not the depth of the document but the room where the document stood.

* `Place.bound` — how deep a value that was decoded at a place can be when it is written;
* `Shape.depth_encode_le`, `TypeRef.depth_encode_le`, `Schema.depth_encode_le` — values of a field
  and references keep to the bound, and records do where there is room for two levels;
* `Kind.read_reencoded` — reading, writing and reading again.
-/

namespace Introspect

/-! ### The bound of a place -/

namespace Place

/-- **How deep a value decoded from this draft can be**: in a stream as deep as there is room,
anywhere else as deep as the draft. -/
def bound : Place → Draft → Nat
  | stream room, _ => room
  | tree, d => d.depth
  | collected, d => d.depth

/-- A part has a smaller bound than the whole. -/
theorem bound_lt {place inside : Place} {d e : Draft} (hinside : place.enter = .ok inside)
    (he : e.depth < d.depth) : inside.bound e < place.bound d := by
  cases place with
  | stream room =>
    cases room with
    | zero => cases hinside
    | succ room =>
      cases hinside
      exact Nat.lt_succ_self room
  | tree => cases hinside; exact he
  | collected => cases hinside; exact he

theorem bound_pos {place inside : Place} {d : Draft} (hinside : place.enter = .ok inside)
    (hd : 0 < d.depth) : 0 < place.bound d :=
  -- a scalar would be a part of smaller bound
  Nat.lt_of_le_of_lt (Nat.zero_le (inside.bound (.broken .malformed))) (bound_lt hinside hd)

/-- What is kept is no deeper than the bound. -/
theorem depth_le_bound {place : Place} {d : Draft} (h : place.keep d = .ok ()) :
    d.depth ≤ place.bound d := by
  cases place with
  | stream room => exact Draft.depth_le_of_check (Decoded.ofFault_eq_ok.mp h)
  | tree => exact Nat.le_refl _
  | collected => exact Nat.le_refl _

end Place

/-! ### Values of a shape -/

/-- **References decoded from drafts no deeper than `n` keep to the bound.** -/
def RefDecoder.KeepsTo (ref : RefDecoder) (n : Nat) : Prop :=
  ∀ place d t, d.depth ≤ n → ref place d = .ok t → t.encode.depth ≤ place.bound d

/-- Blank values are written with one level at most. -/
theorem Shape.depth_encode_blank_le (s : Shape) : (s.encode s.blank).depth ≤ 1 := by
  cases s with
  | optional s => exact Nat.zero_le 1
  | list s => exact Nat.le_refl 1
  | _ => decide

/-- **Values of a field keep to the bound.** -/
theorem Shape.depth_encode_le {ref : RefDecoder} {n : Nat} (href : ref.KeepsTo n) {s : Shape}
    {place : Place} {d : Draft} {v : s.Value} (hd : d.depth ≤ n)
    (h : s.decode ref place d = .ok v) : (s.encode v).depth ≤ place.bound d := by
  -- induction on the shape, for all drafts and places; scalars have no level at all
  induction s generalizing place d with
  | text | flag | word | modifiers => exact Nat.zero_le _
  | typeRef => exact href place d v hd h
  | optional s ih =>
    obtain ⟨-, rfl⟩ | ⟨-, x, hx, rfl⟩ := decodeOption_eq_ok.mp h
    · exact Nat.zero_le _
    · exact ih hd hx
  | list s ih =>
    obtain ⟨items, inside, rfl, hinside, hitems⟩ := decodeList_eq_ok.mp h
    have hbound : 0 < place.bound (.array items none) :=
      Place.bound_pos hinside (Nat.succ_pos _)
    -- each element keeps to the bound inside, which is smaller
    have hencoded : ∀ x ∈ v, (s.encode x).depth < place.bound (.array items none) := by
      refine forall_of_forall₂ hitems fun e he x hx => ?_
      have hlt : e.depth < (Draft.array items none).depth := Draft.depth_lt_of_mem_items he
      exact Nat.lt_of_le_of_lt (ih (Nat.le_trans (Nat.le_of_lt hlt) hd) hx)
        (Place.bound_lt hinside hlt)
    refine Json.depth_array_le hbound fun j hj => ?_
    obtain ⟨x, hx, rfl⟩ := List.mem_map.mp hj
    exact hencoded x hx

/-! ### References to types -/

/-- Fields of type information that are written when they are blank are scalars. -/
theorem TypeInfo.depth_encode_eq_zero {x : TypeInfo} {f : TypeInfo.schema.Field}
    (hwritten : TypeInfo.schema.isWritten x f = true)
    (hrequired : TypeInfo.schema.isRequired f = false)
    (hblank : TypeInfo.schema.get x f = (TypeInfo.schema.shape f).blank) :
    ((TypeInfo.schema.shape f).encode (TypeInfo.schema.get x f)).depth = 0 := by
  unfold Schema.isWritten at hwritten
  rw [hblank] at hwritten ⊢
  cases f with
  | name => cases hrequired
  | isInterface => rfl
  | modifiers => rfl
  | package => cases hwritten
  | superclass => cases hwritten
  | interfaces => cases hwritten

/-- **References keep to the bound**, however deep their supertypes nest. -/
theorem TypeRef.depth_encode_le (n : Nat) : RefDecoder.KeepsTo TypeRef.decode n := by
  -- induction on the depth, for the references among the collected parts
  induction n using Nat.strongRecOn with
  | ind n ih =>
    intro place d t hd h
    rw [decode_eq] at h
    obtain ⟨inside, origin, part, hinside, hparts, -, hfilled⟩ := decodeWith_eq_ok.mp h
    have hbound : 0 < place.bound d :=
      Place.bound_pos hinside (Nat.zero_lt_of_lt hparts.origin_depth_lt)
    rw [encode_eq]
    refine Json.depth_object_le hbound (List.forall_mem_cons.mpr ⟨hbound, fun m hm => ?_⟩)
    obtain ⟨f, hwritten, rfl⟩ := Schema.mem_members_iff.mp hm
    by_cases hf : ∃ e, part f e
    · -- a field that was given is a part that was kept
      obtain ⟨e, he⟩ := hf
      obtain ⟨hkeep, hlt⟩ := hparts.keep_and_depth_lt he
      have hfield := Shape.depth_encode_le (ih e.depth (Nat.lt_of_lt_of_le hlt hd))
        (Nat.le_refl _) (hfilled.given f e he)
      calc ((TypeInfo.schema.shape f).encode (TypeInfo.schema.get t.info f)).depth
          ≤ e.depth := hfield
        _ ≤ inside.bound e := Place.depth_le_bound hkeep
        _ < place.bound d := Place.bound_lt hinside hlt
    · -- a field that was left out is a scalar, or is left out again
      obtain ⟨hrequired, hblank⟩ := hfilled.absent f fun e he => hf ⟨e, he⟩
      show ((TypeInfo.schema.shape f).encode (TypeInfo.schema.get t.info f)).depth < _
      rw [TypeInfo.depth_encode_eq_zero hwritten hrequired hblank]
      exact hbound

/-! ### Records -/

/-- **Records keep to the bound where there is room for two levels**, which a blank list takes. -/
theorem Schema.depth_encode_le {α : Type} {S : Schema α} {place : Place} {d : Draft} {a : α}
    (hroom : 2 ≤ place.bound d) (h : S.decode TypeRef.decode place d = .ok a) :
    (S.encode a).depth ≤ place.bound d := by
  obtain ⟨inside, part, hinside, hparts, hfilled⟩ := decode_eq_ok.mp h
  refine Json.depth_object_le (Nat.lt_of_lt_of_le Nat.zero_lt_two hroom) fun m hm => ?_
  obtain ⟨f, -, rfl⟩ := mem_members_iff.mp hm
  by_cases hf : ∃ e, part f e
  · -- a field that was given
    obtain ⟨e, he⟩ := hf
    have hfield := Shape.depth_encode_le (TypeRef.depth_encode_le e.depth) (Nat.le_refl _)
      (hfilled.given f e he)
    exact Nat.lt_of_le_of_lt hfield (Place.bound_lt hinside (hparts.depth_lt he))
  · -- a field that was left out may be written as an empty list
    obtain ⟨-, hblank⟩ := hfilled.absent f fun e he => hf ⟨e, he⟩
    show ((S.shape f).encode (S.get a f)).depth < _
    rw [hblank]
    exact Nat.lt_of_le_of_lt (Shape.depth_encode_blank_le _) hroom

/-! ### Descriptors -/

namespace Kind

/-- What is read from a text can be written within the limit. -/
theorem depth_encode_le {k : Kind} {d : Draft} {x : k.Value}
    (h : k.decode (.stream nestingLimit) d = .ok x) : (k.encode x).depth ≤ nestingLimit := by
  -- there is room for many more than the two levels that a blank list takes
  have hroom : 2 ≤ (Place.stream nestingLimit).bound d := by
    show 2 ≤ 127
    decide
  cases k with
  | typeRef => exact TypeRef.depth_encode_le d.depth (.stream nestingLimit) d x (Nat.le_refl _) h
  | modifiers => exact Nat.zero_le _
  | _ => exact Schema.depth_encode_le hroom h

/-- **Writing what was read.** Whatever text was read, the descriptor is written as a text that
nests no deeper than a text may and is read as the same descriptor. -/
theorem read_reencoded {k : Kind} {text : String} {x : k.Value} (h : k.read text = .ok x) :
    (k.encode x).depth ≤ nestingLimit ∧ Json.Denoted (k.write x) (k.encode x) ∧
      k.read (k.write x) = .ok x := by
  -- the text was decoded in a stream with room for 127 levels
  have hdepth : (k.encode x).depth ≤ nestingLimit := by
    rw [read, readChars] at h
    obtain ⟨y, hy, h⟩ := Decoded.bind_eq_ok.mp h
    obtain ⟨-, h⟩ := Decoded.unit_bind_eq_ok.mp h
    cases h
    exact depth_encode_le hy
  refine ⟨hdepth, denoted_write k x, ?_⟩
  rw [read_of_denoted k (denoted_write k x), comesBack k x]
  have hfits : (Place.stream nestingLimit).Fits (k.encode x).depth := hdepth
  exact Place.limited_of_fits hfits x

/-- A reference with an escape in its name, padded modifiers, an unknown member, and a supertype
that is given as an array with its origin by number. -/
theorem read_reencoded_typeRef :
    ∃ x : TypeRef,
      typeRef.read " \x7b\"interfaces\": [[1, \"B\"]], \"hash\": [[]], \"name\":\"\\u0041\",
        \"modifiers\":\" FINAL\", \"origin\":\"native\"\x7d " = .ok x ∧
      (typeRef.encode x).depth ≤ nestingLimit ∧ Json.Denoted (typeRef.write x) (typeRef.encode x) ∧
        typeRef.read (typeRef.write x) = .ok x := by
  let b : TypeRef := ⟨.generated, ⟨"B", none, false, ∅, none, []⟩⟩
  refine ⟨⟨.native, ⟨"A", none, false, .single .final, none, [b]⟩⟩, ?accepted,
    -- one reading settles both what was read and that it is read again
    read_reencoded ?accepted⟩
  exact Decoded.eq_ok_of_toOption (by decide +kernel)

end Kind

end Introspect

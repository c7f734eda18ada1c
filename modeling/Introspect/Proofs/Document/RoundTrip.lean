import Introspect.Proofs.Document.Accepted.Record
import Introspect.Proofs.Document.Encoding
import Introspect.Proofs.Document.Nesting
import Introspect.Proofs.Document.Place
import Introspect.Proofs.Json.Scan
import Introspect.Proofs.Modifier.RoundTrip

/-!
# Reading what was written

A descriptor that is written and then read again comes back, whatever it holds, as long as its text
does not nest too deep; and where it does, the text is refused as malformed and nothing else is read
from it.

* `ComesBack` — a value is decoded from its tree wherever the tree fits, and where it does not fit
  the tree is malformed;
* `Shape.comesBack`, `Schema.comesBack`, `TypeRef.comesBack` — this is so for values of every shape
  of a field, for records, and for references, by induction on the depth of their trees;
* `Kind.comesBack` — and hence for descriptors of every kind;
* `Kind.read_write` — the same for texts, with the limit on their nesting;
* `Kind.read_of_denoted` — a text is read as the value that it denotes.
-/

namespace Introspect

/-- **A value comes back from its tree** where the tree fits; elsewhere the tree is malformed. -/
def ComesBack {α : Type} (decode : Place → Draft → Decoded α) (encode : α → Json) (a : α) : Prop :=
  ∀ place, decode place (Draft.ofJson (encode a)) = place.limited (encode a).depth a

/-! ### Values of a shape -/

section Shapes

variable {α : Type} {decode : Place → Draft → Decoded α} {encode : α → Json}

/-- Items come back one after the other where the deepest of them fits. -/
theorem decodeItems_encode {xs : List α} (h : ∀ x ∈ xs, ComesBack decode encode x)
    (place : Place) :
    decodeItems (decode place) (Draft.ofItems (xs.map encode)) =
      place.limited (Json.depthItems (xs.map encode)) xs := by
  induction xs with
  | nil => exact (Place.limited_zero []).symm
  | cons x xs ih =>
    -- room for the first element and for the others is room for the deepest of them
    rw [List.map_cons, Draft.ofItems, decodeItems, Json.depthItems, h x (List.mem_cons_self ..)]
    refine Place.limited_bind ?_
    rw [ih fun y hy => h y (List.mem_cons_of_mem x hy)]
    exact Place.limited_bind_ok rfl

/-- **A list comes back from its array**, if its items come back. -/
theorem ComesBack.list {xs : List α} (h : ∀ x ∈ xs, ComesBack decode encode x) :
    ComesBack (decodeList decode) (fun xs => .array (xs.map encode)) xs := by
  intro place
  refine Place.enter_bind ?_
  rw [decodeItems_encode h]
  exact Place.limited_bind_ok rfl

/-- A value that is not written as null comes back where it is optional. -/
theorem decodeOption_encode {x : α} (h : ComesBack decode encode x) (hnull : encode x ≠ .null)
    (place : Place) :
    decodeOption (decode place) (Draft.ofJson (encode x)) =
      place.limited (encode x).depth (some x) := by
  -- only `null` has the draft of `null`
  have hleaf : Draft.ofJson (encode x) ≠ .leaf (.sound .null) := by
    intro hleaf
    cases hx : encode x with
    | scalar s => rw [hx, Draft.ofJson] at hleaf; cases hleaf; exact hnull hx
    | array items => rw [hx, Draft.ofJson] at hleaf; cases hleaf
    | object members => rw [hx, Draft.ofJson] at hleaf; cases hleaf
  rw [decodeOption.eq_2 _ _ hleaf, h place]
  exact Place.limited_bind_ok rfl

end Shapes

namespace Shape

/-- Is the shape that of an optional value? -/
def isOptional : Shape → Bool
  | optional _ => true
  | _ => false

/-- **A shape whose absent values are told from those that are there**: nowhere is an optional value
optional once more. -/
def IsRegular : Shape → Prop
  | optional s => s.isOptional = false ∧ s.IsRegular
  | list s => s.IsRegular
  | _ => True

/-- Only optional values are written as `null`. -/
theorem encode_ne_null {s : Shape} (h : s.isOptional = false) (v : s.Value) :
    s.encode v ≠ .null := by
  cases s with
  | typeRef =>
    obtain ⟨origin, info⟩ := v
    simp [encode, TypeRef.encode]
  | optional s => cases h
  | _ => simp [encode]

/-- A blank value is the one that a missing field stands for. -/
theorem eq_blank_of_isBlank {s : Shape} {v : s.Value} (h : s.isBlank v = true) : v = s.blank := by
  cases s with
  | text => exact String.isEmpty_iff.mp h
  | flag => simpa [isBlank, blank] using h
  | word => simpa [isBlank, blank] using h
  | modifiers => exact ModifierSet.isEmpty_iff.mp h
  | typeRef => cases h
  | optional s => exact Option.isNone_iff_eq_none.mp h
  | list s => exact List.isEmpty_iff.mp h

/-- The flags that are written as a number are read as that number. -/
theorem asWord_toNat (w : UInt16) :
    Scalar.asWord (.number (.integer w.toNat)) = .ok w := by
  have hrange : 0 ≤ (w.toNat : Int) ∧ (w.toNat : Int) < UInt16.size :=
    ⟨Int.natCast_nonneg _, Int.ofNat_lt.mpr w.toNat_lt_size⟩
  rw [Scalar.asWord, if_pos hrange, Int.toNat_natCast, UInt16.ofNat_toNat]

/-- **Values of a field come back**, if the references do that are no deeper. -/
theorem comesBack {ref : RefDecoder} {s : Shape} (hs : s.IsRegular) {v : s.Value}
    (href : ∀ t : TypeRef, t.encode.depth ≤ (s.encode v).depth → ComesBack ref TypeRef.encode t) :
    ComesBack (s.decode ref) s.encode v := by
  -- induction on the shape: optional values and lists come back when what is in them does
  induction s with
  | text | flag =>
    intro place
    exact (Place.limited_zero v).symm
  | word =>
    -- written as a number, which is in range when it is read
    intro place
    show Decoded.ofData (Scalar.asWord (.number (.integer v.toNat))) = place.limited 0 v
    rw [asWord_toNat, Place.limited_zero]
    rfl
  | modifiers =>
    -- written as a text, which is read as the same set
    intro place
    show Decoded.ofData (Scalar.asModifiers (.string v.text)) = place.limited 0 v
    rw [Scalar.asModifiers, ModifierSet.ofText_text, Place.limited_zero]
    rfl
  | typeRef => exact href v (Nat.le_refl _)
  | optional s ih =>
    cases v with
    -- what is absent is written as null, and there is only one way to be absent
    | none => exact fun place => (Place.limited_zero none).symm
    | some x => exact decodeOption_encode (ih hs.2 href) (encode_ne_null hs.1 x)
  | list s ih =>
    refine ComesBack.list ?_
    intro x hx
    -- references inside an element are no deeper than the list
    have hlt : (s.encode x).depth < ((list s).encode v).depth :=
      Json.depth_lt_of_mem_items (List.mem_map_of_mem hx)
    exact ih hs fun t ht => href t (Nat.le_trans ht (Nat.le_of_lt hlt))

end Shape

/-- The scalars that are words. -/
theorem Scalar.asWord_eq_ok {s : Scalar} {w : UInt16} :
    s.asWord = .ok w ↔ s = .number (.integer w.toNat) := by
  refine ⟨fun h => ?_, fun h => h ▸ Shape.asWord_toNat w⟩
  unfold asWord at h
  split at h
  · next i =>
    split at h
    · next hrange =>
      obtain rfl := Except.ok.inj h
      have hsize : UInt16.size = 2 ^ 16 := rfl
      -- what is in range for a word is one, and its number comes back
      have hlt : i.toNat < 2 ^ 16 := by omega
      rw [UInt16.toNat_ofNat_of_lt' hlt, Int.toNat_of_nonneg hrange.1]
    · cases h
  · cases h

/-- The scalars that are modifiers. -/
theorem Scalar.asModifiers_eq_ok {s : Scalar} {m : ModifierSet} :
    s.asModifiers = .ok m ↔ ∃ text, s = .string text ∧ ModifierSet.ofText text = .ok m := by
  cases s with
  | string text =>
    rw [asModifiers]
    cases htext : ModifierSet.ofText text <;> simp [htext]
  | _ => simp [asModifiers, refuse]

/-! ### Records -/

namespace Schema

variable {α : Type} {S : Schema α} {ref : RefDecoder}

/-- Slots into which the fields of a record have been put hold them. -/
theorem foldl_put_apply (a : α) (fs : List S.Field) (slots : S.Slots) (f : S.Field) :
    fs.foldl (fun slots f => slots.put f (S.get a f)) slots f =
      if f ∈ fs then some (S.get a f) else slots f := by
  -- induction on the fields, for all slots that they may be put into
  induction fs generalizing slots with
  | nil => rfl
  | cons g fs ih =>
    rw [List.foldl_cons, ih]
    by_cases hf : f ∈ fs
    · rw [if_pos hf, if_pos (List.mem_cons_of_mem g hf)]
    · by_cases hg : g = f
      · subst hg
        rw [if_neg hf, if_pos (List.mem_cons_self ..), Slots.put_self]
      · have hcons : f ∉ g :: fs := fun h => (List.mem_cons.mp h).elim (hg ∘ Eq.symm) hf
        rw [if_neg hf, if_neg hcons, Slots.put_of_ne slots hg]

/-- The members written for some fields put those fields into the slots. -/
theorem decodeMembers_encode {a : α} {fs : List S.Field} (hfs : fs.Nodup)
    (h : ∀ f ∈ fs, ComesBack ((S.shape f).decode ref) (S.shape f).encode (S.get a f))
    {slots : S.Slots} (hfree : ∀ f ∈ fs, slots f = none) (place : Place) :
    S.decodeMembers ref place slots
        (Draft.ofMembers (fs.map fun f => (S.key f, (S.shape f).encode (S.get a f)))) =
      place.limited
        (Json.depthMembers (fs.map fun f => (S.key f, (S.shape f).encode (S.get a f))))
        (fs.foldl (fun slots f => slots.put f (S.get a f)) slots) := by
  -- induction on the fields: each is read into its slot, which is free as no field comes twice
  induction fs generalizing slots with
  | nil => exact (Place.limited_zero slots).symm
  | cons f fs ih =>
    obtain ⟨hnew, hfs⟩ := List.nodup_cons.mp hfs
    obtain ⟨hf, h⟩ := List.forall_mem_cons.mp h
    obtain ⟨hslot, hfree⟩ := List.forall_mem_cons.mp hfree
    have hfree' : ∀ g ∈ fs, slots.put f (S.get a f) g = none := fun g hg => by
      rw [Slots.put_of_ne slots fun (h : f = g) => hnew (h ▸ hg), hfree g hg]
    simp only [List.map_cons, Draft.ofMembers, decodeMembers, Lexeme.read_sound,
      Decoded.ofFault_ok, Decoded.ok_bind, S.field?_key, hslot, Option.isSome_none,
      Bool.false_eq_true, if_false, List.foldl_cons, Json.depthMembers, hf place]
    exact Place.limited_bind (ih hfs h hfree')

/-- A field that is not written is blank and may be missing. -/
theorem blank_of_not_isWritten {a : α} {f : S.Field} (h : S.isWritten a f = false) :
    S.isRequired f = false ∧ S.get a f = (S.shape f).blank := by
  have h : S.presence f = .leftOut ∧ (S.shape f).isBlank (S.get a f) = true := by
    simpa [isWritten] using h
  exact ⟨by simp [isRequired, h.1], Shape.eq_blank_of_isBlank h.2⟩

/-- **A record comes back from its members**, if the fields that are written do. -/
theorem ofMembers_members {a : α}
    (h : ∀ f, S.isWritten a f = true →
      ComesBack ((S.shape f).decode ref) (S.shape f).encode (S.get a f)) (place : Place) :
    S.ofMembers ref place (Draft.ofMembers (S.members a)) none =
      place.limited (Json.depthMembers (S.members a)) a := by
  -- only the fields that are written are read
  let written := S.fields.filter (S.isWritten a)
  have hwritten : ∀ f ∈ written, S.isWritten a f = true := fun f hf => (List.mem_filter.mp hf).2
  have hmembers := decodeMembers_encode (S.nodup_fields.filter (S.isWritten a))
    (fun f hf => h f (hwritten f hf)) (fun _ _ => rfl : ∀ f ∈ written, Slots.empty f = none) place
  rw [ofMembers, members, hmembers]
  refine Place.limited_bind_ok ?_
  -- fields that are not written are blank, and may be missing
  refine finish_eq_ok.mpr fun f => ?_
  rw [foldl_put_apply]
  cases hf : S.isWritten a f with
  | true => exact .inl (if_pos (List.mem_filter.mpr ⟨S.mem_fields f, hf⟩))
  | false => exact .inr ⟨if_neg (by simp [hf]), blank_of_not_isWritten hf⟩

/-- **A record comes back**, if the references do that are less deep. -/
theorem comesBack (hS : ∀ f, (S.shape f).IsRegular) {a : α}
    (href : ∀ t : TypeRef, t.encode.depth < (S.encode a).depth → ComesBack ref TypeRef.encode t) :
    ComesBack (S.decode ref) S.encode a := by
  intro place
  refine Place.enter_bind (ofMembers_members (fun f hf => ?_) _)
  exact Shape.comesBack (hS f) fun t ht =>
    href t (Nat.lt_of_le_of_lt ht (depth_lt_of_isWritten hf))

end Schema

/-! ### References to types -/

namespace TypeRef

/-- An origin that is written as a word is read as that origin everywhere. -/
theorem decode_word (o : Origin) (place : Place) :
    Origin.decode place (Draft.ofJson (.string o.word)) = .ok o := by
  cases o <;> rfl

/-- Whole members that are not the origin are collected if there is room, be it before or behind the
origin. -/
theorem collect_ofMembers {ms : List (String × Json)} (hms : ∀ m ∈ ms, m.1 ≠ originKey)
    (origin : Option Origin) (place : Place) :
    collect place origin (Draft.ofMembers ms) =
      place.limited (Json.depthMembers ms) (origin, Draft.ofMembers ms) := by
  induction ms with
  | nil => exact (Place.limited_zero _).symm
  | cons m ms ih =>
    -- the name of the member is not that of the origin, so that it is collected
    obtain ⟨hm, hms⟩ := List.forall_mem_cons.mp hms
    simp only [Draft.ofMembers, collect, Lexeme.read_sound, Decoded.ofFault_ok, Decoded.ok_bind,
      hm, if_false, Json.depthMembers, Place.keep_ofJson, ih hms]
    exact Place.limited_bind (Place.limited_bind_ok rfl)

/-- Type information has no optional value inside another one. -/
theorem isRegular_shape (f : TypeInfo.schema.Field) : (TypeInfo.schema.shape f).IsRegular := by
  cases f <;> simp [TypeInfo.schema, Shape.IsRegular, Shape.isOptional]

/-- **References come back**, however deep their supertypes nest. -/
theorem comesBack (t : TypeRef) : ComesBack decode TypeRef.encode t := by
  induction t using induction_on_fields with
  | step t ih =>
    intro place
    have hfields : ∀ f, TypeInfo.schema.isWritten t.info f = true →
        ComesBack ((TypeInfo.schema.shape f).decode decode) (TypeInfo.schema.shape f).encode
          (TypeInfo.schema.get t.info f) :=
      fun f hf => Shape.comesBack (isRegular_shape f) (ih f hf)
    rw [decode_eq, encode_eq]
    refine Place.enter_bind ?_
    -- the origin stands first, so every other member is collected behind it
    simp only [Draft.ofMembers, ofMembers, collect, Lexeme.read_sound, Decoded.ofFault_ok,
      Decoded.ok_bind, if_true, Option.isSome_none, Bool.false_eq_true, if_false, decode_word,
      collect_ofMembers fun m hm => fst_ne_originKey hm, Json.depthMembers, Json.depth,
      Nat.zero_max]
    refine Place.limited_bind_ok ?_
    -- what was collected is decoded where everything fits
    simp only [Draft.ending_none, Decoded.ofFault_ok, Decoded.ok_bind,
      Schema.ofMembers_members hfields, Place.limited_collected]
    cases t
    rfl

end TypeRef

/-! ### Descriptors -/

namespace Kind

/-- **A descriptor of any kind comes back from its tree** wherever the tree fits. -/
theorem comesBack (k : Kind) (d : k.Value) : ComesBack k.decode k.encode d := by
  cases k with
  | typeRef => exact TypeRef.comesBack d
  | modifiers => exact Shape.comesBack (s := .modifiers) trivial fun t _ => t.comesBack
  | typeInfo => exact Schema.comesBack TypeRef.isRegular_shape fun t _ => t.comesBack
  | _ =>
    -- the shapes of their fields are known
    refine Schema.comesBack (fun f => ?_) fun t _ => t.comesBack
    cases f <;> trivial

/-- A well-formed text is read as its value is decoded. -/
theorem read_of_wellFormed (k : Kind) {text : String} {d : Draft} (h : Draft.Denoted text d) :
    k.read text = k.decode (.stream nestingLimit) d := by
  obtain ⟨rest, hscan, hend⟩ := Draft.scan_of_denoted h
  rw [read, readChars, hscan]
  -- nothing but blanks is left, so the outcome is that of the value
  show (k.decode (.stream nestingLimit) d >>= _) = _
  cases k.decode (.stream nestingLimit) d with
  | error e => rfl
  | ok x => simp [hend]

/-- **A text is read as the value that it denotes.** -/
theorem read_of_denoted (k : Kind) {text : String} {j : Json} (h : Json.Denoted text j) :
    k.read text = k.decode (.stream nestingLimit) (Draft.ofJson j) :=
  k.read_of_wellFormed h.ofJson

/-- **Reading what was written.** The text is a document; it is read as the descriptor if it nests
at most 127 deep, and is malformed otherwise. -/
theorem read_write (k : Kind) (d : k.Value) :
    Json.Denoted (k.write d) (k.encode d) ∧
      k.read (k.write d) =
        if (k.encode d).depth ≤ nestingLimit then .ok d else .error (.fault .malformed) := by
  refine ⟨denoted_write k d, ?_⟩
  rw [read_of_denoted k (denoted_write k d), comesBack k d]
  rfl

end Kind

end Introspect

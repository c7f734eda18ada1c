import Introspect.Document.Kind
import Introspect.Proofs.Document.Accepted.Reference
import Introspect.Proofs.Document.Nesting
import Introspect.Proofs.Json.Found

/-!
# Accepted texts are well formed

Whoever decodes a draft from a text comes to its end, and passes over what is not wanted; what is
collected for later is read in full. So a text that is accepted as a descriptor of any kind is well
formed, although nothing checks that it is.

* `SkipsAccepted` — a decoder that has passed over all that it accepts;
* `Shape.skipsAccepted`, `Schema.skipsAccepted`, `TypeRef.skipsAccepted` — all decoders are of this
  kind;
* `Kind.exists_denoted_of_read` — an accepted text, with the draft that it denotes.
-/

namespace Introspect

/-- **A decoder that accepts nothing from a text that cannot be passed over.** -/
def SkipsAccepted {α : Type} (decode : Place → Draft → Decoded α) : Prop :=
  ∀ room d a, decode (.stream room) d = .ok a → d.skip = .ok ()

/-! ### Values of a shape -/

/-- A scalar that is accepted is sound. -/
theorem skipsAccepted_decodeScalar {α : Type} (wanted : Wanted)
    (accept : Scalar → Except DataError α) :
    SkipsAccepted fun _ d => d.decodeScalar wanted accept := by
  intro room d a h
  cases d with
  | leaf x =>
    cases x with
    | sound s => rfl
    -- whoever reads a scalar at fault is told its fault
    | faulty onRead onSkip => cases h
  | array items ending => cases h
  | object members ending => cases h

section Shapes

variable {α : Type} {decode : Place → Draft → Decoded α}

/-- An optional value that is accepted can be passed over. -/
theorem SkipsAccepted.option (h : SkipsAccepted decode) :
    SkipsAccepted fun place => decodeOption (decode place) := by
  intro room d o ho
  -- null can be passed over, and any other value was accepted itself
  obtain ⟨rfl, -⟩ | ⟨-, x, hx, -⟩ := decodeOption_eq_ok.mp ho
  · rfl
  · exact h room d x hx

/-- **A list that is accepted can be passed over**: its end was found and each item accepted. -/
theorem SkipsAccepted.list (h : SkipsAccepted decode) : SkipsAccepted (decodeList decode) := by
  intro room d xs hxs
  obtain ⟨items, inside, rfl, hinside, hitems⟩ := decodeList_eq_ok.mp hxs
  -- the place inside is a stream again, so that the items are covered by the hypothesis
  cases room with
  | zero => cases hinside
  | succ room =>
    cases hinside
    refine Draft.skip_array_eq_ok.mpr ⟨Draft.skipItems_eq_ok.mpr fun e he => ?_, rfl⟩
    obtain ⟨x, hx⟩ := exists_of_forall₂ hitems e he
    exact h room e x hx

end Shapes

/-- Values of every shape can be passed over when they are accepted. -/
theorem Shape.skipsAccepted {ref : RefDecoder} (href : SkipsAccepted ref) (s : Shape) :
    SkipsAccepted (s.decode ref) := by
  induction s with
  | text | flag | word | modifiers => exact skipsAccepted_decodeScalar _ _
  | typeRef => exact href
  | optional s ih => exact ih.option
  | list s ih => exact ih.list

/-! ### Records -/

namespace Schema

variable {α : Type} {S : Schema α} {ref : RefDecoder}

/-- **A record that is accepted can be passed over.** -/
theorem skipsAccepted (href : SkipsAccepted ref) : SkipsAccepted (S.decode ref) := by
  intro room d a h
  obtain ⟨inside, part, hinside, hparts, hfilled⟩ := decode_eq_ok.mp h
  cases room with
  | zero => cases hinside
  | succ room =>
    cases hinside
    -- the part for a field was decoded, and what is decoded can be passed over
    have hpart : ∀ f e, part f e → e.skip = .ok () := fun f e he =>
      Shape.skipsAccepted href (S.shape f) room e _ (hfilled.given f e he)
    cases hparts with
    | object hadmits =>
      refine Draft.skip_object_eq_ok.mpr ⟨Draft.skipMembers_eq_ok.mpr fun m hm => ?_, rfl⟩
      obtain ⟨name, hname⟩ := hadmits.named m hm
      refine ⟨by rw [hname]; rfl, ?_⟩
      -- what is for no field is passed over
      cases hf : S.fieldOf? m.1 with
      | none => exact hadmits.skipped m hm hf
      | some f => exact hpart f m.2 ⟨m.1, hm, hf⟩
    | array hlength =>
      refine Draft.skip_array_eq_ok.mpr ⟨Draft.skipItems_eq_ok.mpr fun e he => ?_, rfl⟩
      -- no item is without a field, as there are no more items than fields
      obtain ⟨f, hf⟩ := exists_itemPart hlength he
      exact hpart f e hf

end Schema

/-! ### References to types -/

namespace TypeRef

/-- **A reference that is accepted can be passed over.** -/
theorem skipsAccepted : SkipsAccepted decode := by
  intro room d t h
  rw [decode_eq] at h
  obtain ⟨inside, origin, part, hinside, hparts, horigin, -⟩ := decodeWith_eq_ok.mp h
  cases room with
  | zero => cases hinside
  | succ room =>
    cases hinside
    -- the origin is a scalar, and read in the stream
    have horigin : origin.skip = .ok () :=
      skipsAccepted_decodeScalar .origin (Origin.ofScalar (.stream room)) room origin _ horigin
    -- what is collected is read in full
    have hkept : ∀ e, (Place.stream room).keep e = .ok () → e.skip = .ok () := fun e he =>
      Draft.skip_of_check (Decoded.ofFault_eq_ok.mp he)
    cases hparts with
    | object hperm hcollected _ =>
      refine Draft.skip_object_eq_ok.mpr ⟨Draft.skipMembers_eq_ok.mpr fun m hm => ?_, rfl⟩
      -- each member is the origin or one of those that were collected
      obtain rfl | hm := List.mem_cons.mp (hperm.mem_iff.mp hm)
      · exact ⟨rfl, horigin⟩
      · obtain ⟨⟨name, hname, -⟩, hkeep⟩ := hcollected m hm
        exact ⟨by rw [hname]; rfl, hkept m.2 hkeep⟩
    | array hcollected _ =>
      refine Draft.skip_array_eq_ok.mpr ⟨Draft.skipItems_eq_ok.mpr fun e he => ?_, rfl⟩
      obtain rfl | he := List.mem_cons.mp he
      · exact horigin
      · exact hkept e (hcollected e he)

end TypeRef

/-! ### Descriptors -/

namespace Kind

/-- Descriptors of every kind can be passed over when they are accepted. -/
theorem skipsAccepted (k : Kind) : SkipsAccepted k.decode := by
  cases k with
  | typeRef => exact TypeRef.skipsAccepted
  | modifiers => exact Shape.skipsAccepted TypeRef.skipsAccepted .modifiers
  | _ => exact Schema.skipsAccepted TypeRef.skipsAccepted

/-- **An accepted text is well formed**, and the draft that it denotes is accepted. -/
theorem exists_denoted_of_read {k : Kind} {text : String} {x : k.Value} (h : k.read text = .ok x) :
    ∃ d, Draft.Denoted text d ∧ k.decode (.stream nestingLimit) d = .ok x := by
  rw [read, readChars] at h
  cases hscan : Draft.scan text.toList with
  | mk d rest =>
    simp only [hscan] at h
    obtain ⟨y, hy, h⟩ := Decoded.bind_eq_ok.mp h
    -- reading goes through the scanner, the decoder and the end of the text, each of which
    -- succeeded
    obtain ⟨hend, h⟩ := Decoded.unit_bind_eq_ok.mp h
    obtain rfl : y = x := Except.ok.inj h
    have hend := Decoded.ofFault_eq_ok.mp hend
    exact ⟨d, Draft.denoted_of_skip hscan (k.skipsAccepted _ d y hy) hend, hy⟩

end Kind

end Introspect

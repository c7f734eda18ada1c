import Introspect.Proofs.Document.CutOff
import Introspect.Proofs.Document.Layout

/-!
# The first member that is rejected

The members of a record are decoded one after the other, and the first that is wrong decides: what
stands behind it is not even read. Only when all members have passed is it asked which fields are
missing, in the order of declaration. So there are three orders. A text is taken in the order in
which its members stand, a tree in the order of their names, and neither matters to what is missing.

* `Layout.Passes`, `Layout.FirstRejected`, `Layout.Admits` — members that do not stop decoding, the
  first that does, and members none of which does;
* `Schema.exists_slots_of_admits` — members that pass are all decoded;
* `Schema.decode_of_firstRejected`, `Schema.decode_of_admits` — what becomes of an object;
* `Kind.read_of_begun` — what becomes of a text that begins as an object, however it goes on;
* `Kind.first_rejected_or_missing` — and hence of texts and of trees.
-/

namespace Introspect

/-! ### Members and fields -/

namespace Layout

variable (layout : Layout) (place : Place)

/-- **A member that does not stop decoding.** Its name is a text, and if it is the name of a field,
its value is accepted as one of that field. Of any other value nothing is asked. -/
def Passes (m : Lexeme String × Draft) : Prop :=
  ∃ name, m.1 = .sound name ∧
    ∀ e ∈ layout, e.name = name → ∃ v, e.shape.decode TypeRef.decode place m.2 = .ok v

/-- **The first member that is rejected**, and why: those before it pass, and up to it no field
comes twice. -/
structure FirstRejected (before : List (Lexeme String × Draft)) (m : Lexeme String × Draft)
    (error : DataError) : Prop where
  passes : ∀ m ∈ before, layout.Passes place m
  once : (layout.fieldNames (before ++ [m])).Nodup
  rejected : ∃ e ∈ layout, m.1 = .sound e.name ∧
    e.shape.decode TypeRef.decode place m.2 = .error (.data error)

/-- **Members of which none is rejected**, and among which no field comes twice. -/
structure Admits (ms : List (Lexeme String × Draft)) : Prop where
  passes : ∀ m ∈ ms, layout.Passes place m
  once : (layout.fieldNames ms).Nodup

/-- The first required field, in the order of declaration, that no member is for. -/
def missing? (ms : List (Lexeme String × Draft)) : Option Entry :=
  layout.find? fun e => e.required && e.name ∉ layout.fieldNames ms

end Layout

/-! ### Records -/

namespace Schema

variable {α : Type} {S : Schema α} {place : Place}

/-- **Members that pass are all decoded**, if the fields that they are for have no value yet. -/
theorem exists_slots_of_passes {ms : List (Lexeme String × Draft)}
    (hpasses : ∀ m ∈ ms, S.layout.Passes place m) (hskip : ∀ m ∈ ms, m.2.skip = .ok ())
    (honce : (S.present ms).Nodup) {slots : S.Slots} (hfree : ∀ f ∈ S.present ms, slots f = none) :
    ∃ slots', S.decodeMembers TypeRef.decode place slots ms = .ok slots' := by
  -- induction on the members; the slots are those that the members before have filled
  induction ms generalizing slots with
  | nil => exact ⟨slots, rfl⟩
  | cons m ms ih =>
    obtain ⟨k, d⟩ := m
    obtain ⟨⟨name, rfl, haccepts⟩, hrest⟩ := List.forall_mem_cons.mp hpasses
    obtain ⟨hd, hskip⟩ := List.forall_mem_cons.mp hskip
    cases hf : S.field? name with
    -- a member for no field is skipped, and leaves the slots as they are
    | none =>
      have hnone : S.fieldOf? (.sound name) = none := hf
      rw [present_cons_none hnone] at honce hfree
      obtain ⟨slots', hslots⟩ := ih hrest hskip honce hfree
      exact ⟨slots', decodeMembers_cons_eq_ok.mpr ⟨name, rfl, .inl ⟨hf, hd, hslots⟩⟩⟩
    | some f =>
      have hsome : S.fieldOf? (.sound name) = some f := hf
      rw [present_cons_some hsome] at honce hfree
      obtain ⟨hnew, honce⟩ := List.nodup_cons.mp honce
      obtain ⟨hslot, hfree⟩ := List.forall_mem_cons.mp hfree
      -- the member passes, so its value is one of the field it is for
      obtain ⟨v, hv⟩ := haccepts _ (S.mem_layout f) (S.field?_eq_some_iff.mp hf)
      -- the fields of later members are still free
      have hfree' : ∀ g ∈ S.present ms, slots.put f v g = none := by
        intro g hg
        rw [Slots.put_of_ne slots fun (h : f = g) => hnew (h ▸ hg), hfree g hg]
      obtain ⟨slots', hslots⟩ := ih hrest hskip honce hfree'
      exact ⟨slots', decodeMembers_cons_eq_ok.mpr
        ⟨name, rfl, .inr ⟨f, v, hf, hslot, hv, hslots⟩⟩⟩

/-- **Admitted members are all decoded**, and fill the fields whose names they have. -/
theorem exists_slots_of_admits {ms : List (Lexeme String × Draft)}
    (h : S.layout.Admits place ms) (hskip : ∀ m ∈ ms, m.2.skip = .ok ()) :
    ∃ slots : S.Slots, S.decodeMembers TypeRef.decode place .empty ms = .ok slots ∧
      ∀ f, slots f = none ↔ S.key f ∉ S.layout.fieldNames ms := by
  obtain ⟨slots, hslots⟩ := exists_slots_of_passes h.passes hskip (nodup_fieldNames_iff.mp h.once)
    (fun _ _ => rfl : ∀ f ∈ S.present ms, Slots.empty f = none)
  obtain ⟨-, hputs⟩ := decodeMembers_eq_ok.mp hslots
  refine ⟨slots, hslots, fun f => ?_⟩
  rw [mem_fieldNames_iff]
  refine ⟨fun hslot hf => ?_, fun hf => hputs.rest f hf⟩
  obtain ⟨m, hm, hmf⟩ := mem_present.mp hf
  obtain ⟨v, -, hv⟩ := hputs.given m hm f hmf
  rw [hslot] at hv
  cases hv

/-- **The first member that is rejected ends decoding**, whatever stands behind it. -/
theorem decode_of_firstRejected {before : List (Lexeme String × Draft)}
    {m : Lexeme String × Draft} {error : DataError}
    (h : S.layout.FirstRejected place.inside before m error)
    (hskip : ∀ m ∈ before, m.2.skip = .ok ()) (hplace : place.Fits 1)
    (behind : List (Lexeme String × Draft)) (ending : Option Fault) :
    S.decode TypeRef.decode place (.object (before ++ m :: behind) ending) =
      .error (.data error) := by
  obtain ⟨k, d⟩ := m
  obtain ⟨e, he, rfl, hrejected⟩ := h.rejected
  obtain ⟨f, rfl⟩ := mem_layout_iff.mp he
  -- the members before it are decoded, and none of them is for the field
  obtain ⟨hbefore, hnew⟩ : (S.layout.fieldNames before).Nodup ∧
      S.key f ∉ S.layout.fieldNames before := by
    have honce := h.once
    rw [Layout.fieldNames_append, List.nodup_append] at honce
    refine ⟨honce.1, fun hf => ?_⟩
    have hlast : S.key f ∈ S.layout.fieldNames [(.sound (S.key f), d)] :=
      mem_fieldNames_iff.mpr (mem_present.mpr ⟨_, List.mem_singleton_self _, S.field?_key f⟩)
    exact honce.2.2 _ hf _ hlast rfl
  obtain ⟨slots, hslots, hfree⟩ := exists_slots_of_admits ⟨h.passes, hbefore⟩ hskip
  have hslot : slots f = none := (hfree f).mpr hnew
  -- up to the member everything was right, and its value is met next
  have henter : place.enter = .ok place.inside := Place.enter_eq_ok.mpr ⟨hplace, rfl⟩
  rw [decode, henter, Decoded.ok_bind, ofMembers, decodeMembers_append, hslots, Decoded.ok_bind,
    decodeMembers]
  simp only [Lexeme.read_sound, Decoded.ofFault_ok, Decoded.ok_bind, S.field?_key, hslot,
    Option.isSome_none, Bool.false_eq_true, if_false, hrejected, Decoded.error_bind]

/-- **Members that pass leave only the question what is missing.** -/
theorem decode_of_admits {ms : List (Lexeme String × Draft)}
    (h : S.layout.Admits place.inside ms) (hskip : ∀ m ∈ ms, m.2.skip = .ok ())
    (hplace : place.Fits 1) :
    (∀ e, S.layout.missing? ms = some e →
      S.decode TypeRef.decode place (.object ms none) = .error (.data (.missingField e.name))) ∧
    (S.layout.missing? ms = none →
      ∃ a, S.decode TypeRef.decode place (.object ms none) = .ok a) := by
  obtain ⟨slots, hslots, hfree⟩ := exists_slots_of_admits h hskip
  have henter : place.enter = .ok place.inside := Place.enter_eq_ok.mpr ⟨hplace, rfl⟩
  have hdecode : S.decode TypeRef.decode place (.object ms none) = S.finish slots := by
    -- there is no fault at the end, so finishing the slots is all that is left
    rw [decode, henter, Decoded.ok_bind, ofMembers, hslots]
    rfl
  -- what is missing in the slots is missing among the members
  have hmissing : S.layout.missing? ms =
      slots.missing?.map fun f => ⟨S.key f, S.shape f, S.isRequired f⟩ := by
    rw [Layout.missing?, layout, List.find?_map, Slots.missing?]
    refine congrArg (Option.map _) (congrArg (List.find? · S.fields) (funext fun f => ?_))
    have hnone : (slots f).isNone = decide (S.key f ∉ S.layout.fieldNames ms) := by
      rw [Bool.eq_iff_iff, Option.isNone_iff_eq_none, decide_eq_true_iff]
      exact hfree f
    exact congrArg (S.isRequired f && ·) hnone.symm
  rw [hdecode, hmissing, finish]
  cases slots.missing? with
  | none => exact ⟨by simp, fun _ => ⟨_, rfl⟩⟩
  | some f => exact ⟨by rintro e ⟨⟩; rfl, by simp⟩

end Schema

/-! ### Descriptors -/

namespace Kind

variable {k : Kind} {layout : Layout}

/-- A record that is no reference is refused for the first member that is rejected. -/
theorem decode_of_firstRejected (hk : k.layout? = some layout) (href : k ≠ typeRef)
    (place : Place) {before : List (Lexeme String × Draft)} {m : Lexeme String × Draft}
    {error : DataError} (h : layout.FirstRejected place.inside before m error)
    (hskip : ∀ m ∈ before, m.2.skip = .ok ()) (hplace : place.Fits 1)
    (behind : List (Lexeme String × Draft)) (ending : Option Fault) :
    k.decode place (.object (before ++ m :: behind) ending) = .error (.data error) := by
  cases k with
  | typeRef => exact absurd rfl href
  | modifiers => cases hk
  | _ => cases hk; exact Schema.decode_of_firstRejected h hskip hplace behind ending

/-- A record that is no reference is accepted when no member is rejected and none is missing. -/
theorem decode_of_admits (hk : k.layout? = some layout) (href : k ≠ typeRef) (place : Place)
    {ms : List (Lexeme String × Draft)} (h : layout.Admits place.inside ms)
    (hskip : ∀ m ∈ ms, m.2.skip = .ok ()) (hplace : place.Fits 1) :
    (∀ e, layout.missing? ms = some e →
      k.decode place (.object ms none) = .error (.data (.missingField e.name))) ∧
    (layout.missing? ms = none → ∃ x, k.decode place (.object ms none) = .ok x) := by
  cases k with
  | typeRef => exact absurd rfl href
  | modifiers => cases hk
  | _ => cases hk; exact Schema.decode_of_admits h hskip hplace

/-- **A text that begins as an object** in which a member is the first that is rejected is refused
for that reason, however the text goes on. -/
theorem read_of_begun (hk : k.layout? = some layout) (href : k ≠ typeRef) {text : String}
    {before : List (Lexeme String × Draft)} {m : Lexeme String × Draft} {rest : List Char}
    (htext : Draft.Begun text.toList before m rest) (hrest : Numeral.Delimited rest)
    {error : DataError} (h : layout.FirstRejected (.stream (nestingLimit - 1)) before m error) :
    k.read text = .error (.data error) := by
  -- whatever follows the member, the scanner has found it and those before it
  obtain ⟨behind, ending, r, hscan⟩ := Draft.scan_of_begun htext hrest
  have hdecode : k.decode (.stream nestingLimit) (.object (before ++ m :: behind) ending) =
      .error (.data error) :=
    decode_of_firstRejected hk href (.stream nestingLimit) h htext.skip (by decide) behind ending
  rw [read, readChars, hscan]
  show (k.decode (.stream nestingLimit) (.object (before ++ m :: behind) ending) >>= _) = _
  -- the decoder has failed before the end of the text is asked for
  rw [hdecode]
  rfl

/-- **The first member that is rejected decides**, for every record that is given by an object; if
none is rejected, it is what is missing that decides, in the order of declaration.

In a text the members count in the order in which they stand. The error stays the same if anything
else follows the comma behind the member that is rejected. In a tree the members count in the order
of their names. -/
theorem first_rejected_or_missing (hk : k.layout? = some layout) (href : k ≠ typeRef) :
    (∀ text before m behind error, Draft.Denoted text (.object (before ++ m :: behind) none) →
      layout.FirstRejected (.stream (nestingLimit - 1)) before m error →
        k.read text = .error (.data error) ∧
          ∃ front tail, (text = front ++ "," ++ tail ∨ text = front ++ "\x7d" ++ tail) ∧
            Draft.Begun front.toList before m [] ∧
            ∀ tail', k.read (front ++ "," ++ tail') = .error (.data error)) ∧
    (∀ text ms, Draft.Denoted text (.object ms none) →
      layout.Admits (.stream (nestingLimit - 1)) ms →
        (∀ e, layout.missing? ms = some e →
          k.read text = .error (.data (.missingField e.name))) ∧
        (layout.missing? ms = none → ∃ x, k.read text = .ok x)) ∧
    (∀ (j : Json) before name i behind error, j.sorted = .object (before ++ (name, i) :: behind) →
      layout.FirstRejected .tree (Draft.ofMembers before) (.sound name, Draft.ofJson i) error →
        k.ofTree j = .error (.data error)) ∧
    (∀ (j : Json) ms, j.sorted = .object ms → layout.Admits .tree (Draft.ofMembers ms) →
      (∀ e, layout.missing? (Draft.ofMembers ms) = some e →
        k.ofTree j = .error (.data (.missingField e.name))) ∧
      (layout.missing? (Draft.ofMembers ms) = none → ∃ x, k.ofTree j = .ok x)) ∧
    ∀ (j : Json) ms, j.sorted = .object ms → ms.Pairwise fun m n => m.1 < n.1 := by
  -- in a tree everything can be passed over
  have hskip (ms : List (String × Json)) : ∀ m ∈ Draft.ofMembers ms, m.2.skip = .ok () := by
    rw [Draft.ofMembers_eq_map]
    intro m hm
    obtain ⟨n, -, rfl⟩ := List.mem_map.mp hm
    exact Draft.skip_ofJson n.2
  refine ⟨?_, ?_, ?_, ?_, ?_⟩
  · -- what stands up to the comma or brace behind the member decides on its own
    intro text before m behind error htext h
    obtain ⟨front, tail, hsplit, hfront, hbegun⟩ := htext.exists_front
    refine ⟨?_, front, tail, hsplit, hfront, fun tail' => ?_⟩
    · have hskip := (List.forall_mem_append.mp htext.skip).1
      rw [read_of_wellFormed k htext]
      exact decode_of_firstRejected hk href (.stream nestingLimit) h hskip (by decide) behind none
    · exact read_of_begun hk href (hbegun tail') (Json.delimited_cons (.inl rfl) _) h
  · -- all members pass, so that what is missing decides
    intro text ms htext h
    rw [read_of_wellFormed k htext]
    exact decode_of_admits hk href (.stream nestingLimit) h htext.skip (by decide)
  · -- a tree is taken in its sorted form
    intro j before name i behind error hsorted h
    rw [ofTree, hsorted, Draft.ofJson, Draft.ofMembers_append]
    exact decode_of_firstRejected hk href .tree h (hskip before) trivial _ none
  · -- the same in sorted form
    intro j ms hsorted h
    rw [ofTree, hsorted]
    exact decode_of_admits hk href .tree h (hskip ms) trivial
  · -- the sorted form of an object has its members in the order of their names
    intro j ms hsorted
    cases j with
    | object ns =>
      cases hsorted
      exact Json.sortMembers_pairwise _
    | _ => cases hsorted

/-- A name that is no text, and then flags that are too many. In a text the name is reported, as it
stands first; in a tree the flags are. -/
theorem first_rejected_or_missing_hostField :
    hostField.read "\x7b\"name\":5,\"access_flags\":70000\x7d" =
        .error (.data (.wrongType (.integer 5) .string)) ∧
      hostField.ofTree (.object [("name", .nat 5), ("access_flags", .nat 70000)]) =
        .error (.data (.wordOverflow 70000)) ∧
      hostField.read "\x7b\"name\":\"x\"\x7d" = .error (.data (.missingField "field_type")) := by
  have hfields : hostField.layout? = some HostField.schema.layout := rfl
  obtain ⟨hrejected, hmissing, htree, -, -⟩ := first_rejected_or_missing hfields (by decide)
  refine ⟨?_, ?_, ?_⟩
  · -- in the text the name stands first, and is no text
    let j : Json := .object [("name", .nat 5), ("access_flags", .nat 70000)]
    have htext : "\x7b\"name\":5,\"access_flags\":70000\x7d" = j.text := by decide +kernel
    have hdenoted : Json.Denoted j.text j :=
      Json.denoted_text ⟨⟨5, by decide, rfl⟩, ⟨70000, by decide, rfl⟩, trivial⟩
    rw [htext]
    refine (hrejected _ [] (.sound "name", _) [(.sound "access_flags", _)] _ hdenoted.ofJson ?_).1
    exact ⟨by simp, by decide, ⟨"name", .text, true⟩, by decide, rfl, rfl⟩
  · -- in the tree the flags stand first, and are too large
    refine htree _ [] "access_flags" (.nat 70000) [("name", .nat 5)] _ rfl ?_
    exact ⟨by simp [Draft.ofMembers], by decide, ⟨"access_flags", .word, false⟩, by decide, rfl,
      rfl⟩
  · -- the only member passes, and then the type is missing
    let j : Json := .object [("name", .string "x")]
    have htext : "\x7b\"name\":\"x\"\x7d" = j.text := by decide +kernel
    have hdenoted : Json.Denoted j.text j := Json.denoted_text ⟨trivial, trivial⟩
    rw [htext]
    have hname : ∀ e ∈ HostField.schema.layout, e.name = "name" → e = ⟨"name", .text, true⟩ := by
      decide
    refine (hmissing _ _ hdenoted.ofJson ?_).1 ⟨"field_type", .typeRef, true⟩ (by decide)
    refine ⟨List.forall_mem_singleton.mpr ⟨"name", rfl, fun e he h => ?_⟩, by decide⟩
    obtain rfl := hname e he h
    exact ⟨"x", rfl⟩

end Kind

end Introspect

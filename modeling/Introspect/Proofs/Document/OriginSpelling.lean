import Introspect.Proofs.Document.Meaning
import Introspect.Proofs.Document.OriginFirst

/-!
# Origins by word and by number

The origin of a reference is a word, and its number is accepted among collected values only. The
references inside another one have been collected when they are decoded, so their origins may be
written in either way. A reference that is decoded where it stands, on its own or as the type of a
member, needs the word; and nothing else tells the two apart.

* `Shape.Written`, `Schema.Written`, `Kind.Written` — the trees of a value, the origin of each
  reference in them written in either way;
* `Shape.written_iff_collected`, `Schema.written_iff_collected` — they are the trees that are read
  as the value among collected values, by induction on how a tree is written and on its depth;
* `Kind.written_encode`, `Kind.written_iff_of_meansSame` — the tree that is written for a descriptor
  is one of them, and so is every tree that means the same as one;
* `Shape.ByWord`, `Schema.ByWord`, `Kind.ByWord` — the references that stand directly in a tree have
  their origins by the word;
* `Shape.decode_iff_byWord`, `Schema.decode_iff_byWord` — elsewhere than among collected values,
  this is asked for besides;
* `Kind.read_iff_byWord` — so of the trees of a descriptor just these are read, from a text and from
  a tree.
-/

namespace Introspect

/-! ### Trees of values -/

/-- The number of an origin. -/
def Origin.index : Origin → Nat
  | .native => 0
  | .generated => 1

/-- **An origin as it may be written**: by its word, or by its number. -/
inductive Origin.Written (o : Origin) : Json → Prop
  | word : Written o (.string o.word)
  | index : Written o (.nat o.index)

/-- **The trees of a value.** A reference is an object or an array whose given members are its
origin, in either way of writing it, and trees of the fields of its information, of which those that
are blank and need not be there may be missing. -/
inductive Shape.Written : (s : Shape) → s.Value → Json → Prop
  | text (v : String) : Written .text v (.string v)
  | flag (b : Bool) : Written .flag b (.bool b)
  | word (w : UInt16) : Written .word w (.nat w.toNat)
  | modifiers {text : String} {m : ModifierSet} (h : ModifierSet.ofText text = .ok m) :
      Written .modifiers m (.string text)
  | none (s : Shape) : Written (.optional s) none .null
  | some {s : Shape} {v : s.Value} {j : Json} (hj : j ≠ .null) (h : Written s v j) :
      Written (.optional s) (some v) j
  | list {s : Shape} {vs : List s.Value} {js : List Json} (hlength : js.length = vs.length)
      (h : ∀ p ∈ js.zip vs, Written s p.2 p.1) : Written (.list s) vs (.array js)
  | typeRef {t : TypeRef} {j o : Json} (hrecord : j.IsRecord TypeRef.layout.names)
      (ho : (TypeRef.originKey, o) ∈ j.given TypeRef.layout.names) (horigin : t.origin.Written o)
      (hgiven : ∀ f i, (TypeInfo.schema.key f, i) ∈ j.given TypeRef.layout.names →
        Written (TypeInfo.schema.shape f) (TypeInfo.schema.get t.info f) i)
      (habsent : ∀ f, (∀ i, (TypeInfo.schema.key f, i) ∉ j.given TypeRef.layout.names) →
        TypeInfo.schema.isRequired f = false ∧
          TypeInfo.schema.get t.info f = (TypeInfo.schema.shape f).blank) :
      Written .typeRef t j

/-- **The trees of a record.** -/
structure Schema.Written {α : Type} (S : Schema α) (a : α) (j : Json) : Prop where
  record : j.IsRecord S.layout.names
  given : ∀ f i, (S.key f, i) ∈ j.given S.layout.names → (S.shape f).Written (S.get a f) i
  absent : ∀ f, (∀ i, (S.key f, i) ∉ j.given S.layout.names) →
    S.isRequired f = false ∧ S.get a f = (S.shape f).blank

/-- **The trees of a descriptor.** -/
def Kind.Written : (k : Kind) → k.Value → Json → Prop
  | typeRef => Shape.Written .typeRef
  | typeInfo => TypeInfo.schema.Written
  | hostMethod => HostMethod.schema.Written
  | scriptMethod => ScriptMethod.schema.Written
  | hostField => HostField.schema.Written
  | scriptVariable => ScriptVariable.schema.Written
  | modifiers => Shape.Written .modifiers

/-! ### References that stand directly -/

/-- **The references that stand directly in a tree have their origins by the word**: the reference
itself, if there is one, and those in a list. -/
def Shape.ByWord : Shape → Json → Prop
  | typeRef, j => ∃ word, (TypeRef.originKey, Json.string word) ∈ j.given TypeRef.layout.names
  | optional s, j => j = .null ∨ s.ByWord j
  | list s, .array js => ∀ i ∈ js, s.ByWord i
  | _, _ => True

/-- The references that stand directly in the fields of a record have their origins by the word. -/
def Schema.ByWord {α : Type} (S : Schema α) (j : Json) : Prop :=
  ∀ f i, (S.key f, i) ∈ j.given S.layout.names → (S.shape f).ByWord i

/-- The same for descriptors. -/
def Kind.ByWord : Kind → Json → Prop
  | typeRef => Shape.ByWord .typeRef
  | typeInfo => TypeInfo.schema.ByWord
  | hostMethod => HostMethod.schema.ByWord
  | scriptMethod => ScriptMethod.schema.ByWord
  | hostField => HostField.schema.ByWord
  | scriptVariable => ScriptVariable.schema.ByWord
  | modifiers => Shape.ByWord .modifiers

/-! ### Origins -/

namespace Origin

variable {place : Place} {j : Json} {p : Origin}

/-- An origin is decoded from what is accepted as one where it stands. -/
theorem decode_ofJson_eq_ok : decode place (Draft.ofJson j) = .ok p ↔ Accepted place j p := by
  refine ⟨fun h => ?_, decode_of_accepted⟩
  -- every tree is refused or accepted as an origin, and what is refused would have been an error
  obtain ⟨e, he⟩ | ⟨q, hq⟩ := refused_or_accepted place j
  · cases h.symm.trans (decode_of_refused he)
  · obtain rfl := Except.ok.inj (h.symm.trans (decode_of_accepted hq))
    exact hq

/-- **Among collected values** an origin may be written in either way. -/
theorem decode_collected_eq_ok :
    decode .collected (Draft.ofJson j) = .ok p ↔ p.Written j := by
  rw [decode_ofJson_eq_ok]
  constructor
  -- two words are accepted here, and two numbers that only collected values may have
  · rintro (_ | _ | _ | _)
    · exact .word
    · exact .word
    · exact .index
    · exact .index
  · -- each origin has its word and its number
    rintro (_ | _) <;> cases p
    · exact .native
    · exact .generated
    · exact .zero rfl
    · exact .one rfl

/-- **Elsewhere** it is a word. -/
theorem decode_eq_ok_of_ne_collected (hplace : place ≠ .collected) :
    decode place (Draft.ofJson j) = .ok p ↔ j = .string p.word := by
  rw [decode_ofJson_eq_ok]
  constructor
  · rintro (_ | _ | h | h)
    · rfl
    · rfl
    · -- numbers are accepted among collected values only
      exact absurd h hplace
    · exact absurd h hplace
  · rintro rfl
    cases p
    · exact .native
    · exact .generated

end Origin

/-! ### Among collected values -/

/-- What is written for a value is read as it among collected values. -/
theorem Shape.Written.decode_eq_ok {s : Shape} {v : s.Value} {j : Json} (h : s.Written v j)
    (hkeys : j.HasUniqueKeys) :
    s.decode TypeRef.decode .collected (Draft.ofJson j) = .ok v := by
  -- induction on how the tree is written; what it is made of is read by the hypotheses
  induction h with
  | text v => rfl
  | flag b => rfl
  | word w =>
    -- the flags fit into 16 bits, as they come from there
    show Decoded.ofData (Scalar.asWord (.number (.integer w.toNat))) = .ok w
    rw [asWord_toNat]
    rfl
  | modifiers h =>
    show Decoded.ofData (Scalar.asModifiers _) = _
    rw [Scalar.asModifiers, h]
    rfl
  | none s => rfl
  | some hj _ ih => exact decodeOption_ofJson_eq_ok.mpr (.inr ⟨hj, _, ih hkeys, rfl⟩)
  | list hlength _ ih =>
    refine (decodeList_ofJson_eq_ok (Place.fits_collected _)).mpr
      ⟨_, rfl, List.forall₂_iff_zip.mpr ⟨hlength, ?_⟩⟩
    intro i v hp
    -- the items beside the values are written for them
    exact ih (i, v) hp (Json.hasUniqueKeys_array_iff.mp hkeys i (List.of_mem_zip hp).1)
  | typeRef hrecord ho horigin hgiven habsent ih =>
    have hj : Json.ReadableAt .collected _ := ⟨hkeys, trivial⟩
    refine (TypeRef.decode_ofJson_eq_ok hj).mpr ⟨hrecord,
      ⟨_, ho, Origin.decode_collected_eq_ok.mpr horigin⟩,
      Schema.filled_treeMember_iff.mpr ⟨?_, habsent⟩⟩
    -- the information of a reference is collected, so its parts are read there as well
    exact fun f i hi => ih f i hi (hj.given hi).unique

/-- What is read as a value among collected values is written for it. Trees with parts come to less
deep ones, so the induction is on the depth, and on the shape within it. -/
theorem Shape.written_of_decode {n : Nat} {s : Shape} {v : s.Value} {j : Json}
    (hdepth : j.depth < n) (hkeys : j.HasUniqueKeys)
    (h : s.decode TypeRef.decode .collected (Draft.ofJson j) = .ok v) :
    s.Written v j := by
  induction n generalizing s j with
  | zero => exact absurd hdepth (Nat.not_lt_zero _)
  | succ n ih =>
    -- a part is less deep, so it is covered by the outer induction whatever its shape
    have hpart {i : Json} (hi : i.depth < j.depth) : i.depth < n :=
      Nat.lt_of_lt_of_le hi (Nat.le_of_lt_succ hdepth)
    -- among scalars only one of the right kind is accepted
    induction s with
    | text =>
      obtain ⟨x, rfl, hx⟩ := decodeScalar_ofJson_eq_ok.mp h
      cases x <;> cases hx
      exact .text _
    | flag =>
      obtain ⟨x, rfl, hx⟩ := decodeScalar_ofJson_eq_ok.mp h
      cases x <;> cases hx
      exact .flag _
    | word =>
      obtain ⟨x, rfl, hx⟩ := decodeScalar_ofJson_eq_ok.mp h
      obtain rfl := Scalar.asWord_eq_ok.mp hx
      exact .word v
    | modifiers =>
      obtain ⟨x, rfl, hx⟩ := decodeScalar_ofJson_eq_ok.mp h
      obtain ⟨text, rfl, htext⟩ := Scalar.asModifiers_eq_ok.mp hx
      exact .modifiers htext
    | typeRef =>
      have hj : j.ReadableAt .collected := ⟨hkeys, trivial⟩
      obtain ⟨hrecord, ⟨o, ho, horigin⟩, hfilled⟩ := (TypeRef.decode_ofJson_eq_ok hj).mp h
      obtain ⟨hgiven, habsent⟩ := Schema.filled_treeMember_iff.mp hfilled
      refine .typeRef hrecord ho (Origin.decode_collected_eq_ok.mp horigin) ?_ habsent
      intro f i hi
      exact ih (hpart (Json.depth_lt_of_mem_given hi)) (hj.given hi).unique (hgiven f i hi)
    | optional s ihs =>
      -- null is written for nothing; anything else for the value inside, which is no deeper, so the
      -- induction on the shape serves
      obtain ⟨rfl, rfl⟩ | ⟨hj, x, hx, rfl⟩ := decodeOption_ofJson_eq_ok.mp h
      · exact .none s
      · exact .some hj (ihs hx)
    | list s =>
      obtain ⟨js, rfl, hxs⟩ := (decodeList_ofJson_eq_ok (Place.fits_collected _)).mp h
      obtain ⟨hlength, hitems⟩ := List.forall₂_iff_zip.mp hxs
      refine .list hlength fun p hp => ?_
      -- an item is less deep than the list, so it is covered by the outer induction
      have hi := (List.of_mem_zip (a := p.1) (b := p.2) hp).1
      exact ih (hpart (Json.depth_lt_of_mem_items hi)) (Json.hasUniqueKeys_array_iff.mp hkeys _ hi)
        (hitems hp)

/-- **The trees of a value are those that are read as it among collected values.** -/
theorem Shape.written_iff_collected {s : Shape} {v : s.Value} {j : Json} (hkeys : j.HasUniqueKeys) :
    s.Written v j ↔ s.decode TypeRef.decode .collected (Draft.ofJson j) = .ok v :=
  ⟨fun h => h.decode_eq_ok hkeys, written_of_decode (Nat.lt_succ_self _) hkeys⟩

/-- The same for records. -/
theorem Schema.written_iff_collected {α : Type} {S : Schema α} {a : α} {j : Json}
    (hkeys : j.HasUniqueKeys) :
    S.Written a j ↔ S.decode TypeRef.decode .collected (Draft.ofJson j) = .ok a := by
  have hj : j.ReadableAt .collected := ⟨hkeys, trivial⟩
  -- field by field, what is written for a value is what is decoded to it
  have hfield {f : S.Field} {i : Json} (hi : (S.key f, i) ∈ j.given S.layout.names) :
      (S.shape f).Written (S.get a f) i ↔
        (S.shape f).decode TypeRef.decode .collected (Draft.ofJson i) = .ok (S.get a f) :=
    Shape.written_iff_collected (hj.given hi).unique
  rw [decode_ofJson_eq_ok hj, filled_treeMember_iff]
  constructor
  · rintro ⟨hrecord, hgiven, habsent⟩
    exact ⟨hrecord, fun f i hi => (hfield hi).mp (hgiven f i hi), habsent⟩
  · rintro ⟨hrecord, hgiven, habsent⟩
    exact ⟨hrecord, fun f i hi => (hfield hi).mpr (hgiven f i hi), habsent⟩

/-! ### Where a value stands -/

/-- Who is not among collected values does not get there by going into an array or object. -/
theorem Place.inside_ne_collected {place : Place} (hplace : place ≠ .collected) :
    place.inside ≠ .collected := by
  cases place with
  | stream room => exact Place.noConfusion
  | tree => exact hplace
  | collected => exact hplace

/-- A reference is read where it stands if its origin is a word. -/
theorem TypeRef.decode_iff_byWord {place : Place} (hplace : place ≠ .collected) {j : Json}
    (hj : j.ReadableAt place) {t : TypeRef} :
    decode place (Draft.ofJson j) = .ok t ↔
      decode .collected (Draft.ofJson j) = .ok t ∧ Shape.typeRef.ByWord j := by
  -- where the reference stands the origin has to be a word; its information is collected anyway
  have horigin {o : Json} : Origin.decode place.inside (Draft.ofJson o) = .ok t.origin ↔
      o = .string t.origin.word :=
    Origin.decode_eq_ok_of_ne_collected (Place.inside_ne_collected hplace)
  rw [decode_ofJson_eq_ok hj, decode_ofJson_eq_ok hj.collected]
  constructor
  · rintro ⟨hrecord, ⟨o, ho, hdecode⟩, hfilled⟩
    obtain rfl := horigin.mp hdecode
    have hwritten :
        Origin.decode .collected (Draft.ofJson (.string t.origin.word)) = .ok t.origin :=
      Origin.decode_collected_eq_ok.mpr .word
    exact ⟨⟨hrecord, ⟨_, ho, hwritten⟩, hfilled⟩, _, ho⟩
  · rintro ⟨⟨hrecord, ⟨o, ho, hdecode⟩, hfilled⟩, word, hword⟩
    -- there is one origin, and it is a word
    obtain rfl : o = .string word := Json.eq_of_mem_given nodup_names hj.unique ho hword
    have hwritten : t.origin.Written (.string word) := Origin.decode_collected_eq_ok.mp hdecode
    obtain rfl : word = t.origin.word := by
      cases hwritten
      rfl
    exact ⟨hrecord, ⟨_, hword, horigin.mpr rfl⟩, hfilled⟩

/-- **A value is read where it stands** if it is among collected values and the references that
stand directly in it have their origins by the word. -/
theorem Shape.decode_iff_byWord {s : Shape} {place : Place} (hplace : place ≠ .collected) {j : Json}
    (hj : j.ReadableAt place) {v : s.Value} :
    s.decode TypeRef.decode place (Draft.ofJson j) = .ok v ↔
      s.decode TypeRef.decode .collected (Draft.ofJson j) = .ok v ∧ s.ByWord j := by
  induction s generalizing place j with
  -- scalars other than origins are read alike everywhere
  | text | flag | word | modifiers => exact (and_iff_left trivial).symm
  | typeRef => exact TypeRef.decode_iff_byWord hplace hj
  | optional s ih =>
    show decodeOption (s.decode TypeRef.decode place) _ = _ ↔
      decodeOption (s.decode TypeRef.decode .collected) _ = _ ∧ (j = .null ∨ s.ByWord j)
    rw [decodeOption_ofJson_eq_ok, decodeOption_ofJson_eq_ok]
    by_cases hnull : j = .null
    · -- null is read everywhere
      simp only [hnull, ne_eq, not_true, false_and, or_false, true_or, and_true]
    · -- anything else is read as the value inside is
      simp only [hnull, ne_eq, not_false_eq_true, true_and, false_and, false_or, ih hplace hj]
      rw [← exists_and_right]
      exact exists_congr fun x => and_right_comm
  | list s ih =>
    show decodeList (s.decode TypeRef.decode) place _ = _ ↔
      decodeList (s.decode TypeRef.decode) .collected _ = _ ∧ _
    rw [decodeList_ofJson_eq_ok hj.fits, decodeList_ofJson_eq_ok (Place.fits_collected _)]
    cases j with
    | array js =>
      have hitems : List.Forall₂
            (fun i x => s.decode TypeRef.decode place.inside (Draft.ofJson i) = .ok x) js v ↔
          (∀ i ∈ js, s.ByWord i) ∧ List.Forall₂
            (fun i x => s.decode TypeRef.decode .collected (Draft.ofJson i) = .ok x) js v := by
        rw [← List.forall₂_and_left]
        -- the items stand where the list does, inside it, so they are asked for the word as well
        refine forall₂_congr_of_mem fun i hi x => ?_
        rw [ih (Place.inside_ne_collected hplace) (hj.item hi), and_comm]
      simp only [Json.array.injEq, exists_eq_left', hitems]
      exact and_comm
    | scalar x => simp
    | object ms => simp

/-- The same for records. -/
theorem Schema.decode_iff_byWord {α : Type} {S : Schema α} {place : Place}
    (hplace : place ≠ .collected) {j : Json} (hj : j.ReadableAt place) {a : α} :
    S.decode TypeRef.decode place (Draft.ofJson j) = .ok a ↔
      S.decode TypeRef.decode .collected (Draft.ofJson j) = .ok a ∧ S.ByWord j := by
  have hfield {f : S.Field} {i : Json} (hi : (S.key f, i) ∈ j.given S.layout.names) :
      (S.shape f).decode TypeRef.decode place.inside (Draft.ofJson i) = .ok (S.get a f) ↔
        (S.shape f).decode TypeRef.decode .collected (Draft.ofJson i) = .ok (S.get a f) ∧
          (S.shape f).ByWord i :=
    -- the values of the fields stand inside the record
    Shape.decode_iff_byWord (Place.inside_ne_collected hplace) (hj.given hi)
  rw [decode_ofJson_eq_ok hj, decode_ofJson_eq_ok hj.collected, filled_treeMember_iff,
    filled_treeMember_iff]
  constructor
  · rintro ⟨hrecord, hgiven, habsent⟩
    exact ⟨⟨hrecord, fun f i hi => ((hfield hi).mp (hgiven f i hi)).1, habsent⟩,
      fun f i hi => ((hfield hi).mp (hgiven f i hi)).2⟩
  · rintro ⟨⟨hrecord, hgiven, habsent⟩, hword⟩
    exact ⟨hrecord, fun f i hi => (hfield hi).mpr ⟨hgiven f i hi, hword f i hi⟩, habsent⟩

/-! ### Documents -/

namespace Kind

variable {k : Kind} {x y : k.Value} {j : Json}

/-- The trees of a descriptor are those that are read as it among collected values. -/
theorem written_iff_collected (hkeys : j.HasUniqueKeys) :
    k.Written x j ↔ k.decode .collected (Draft.ofJson j) = .ok x := by
  cases k with
  | typeRef => exact Shape.written_iff_collected (s := .typeRef) hkeys
  | modifiers => exact Shape.written_iff_collected (s := .modifiers) hkeys
  | _ => exact Schema.written_iff_collected hkeys

/-- Among the trees of a descriptor is the one that is written for it. -/
theorem written_encode (k : Kind) (x : k.Value) : k.Written x (k.encode x) := by
  refine (written_iff_collected (k.isEncoded_encode x).hasUniqueKeys).mpr ?_
  rw [k.comesBack x, Place.limited_collected]

/-- **Trees that mean the same** are trees of the same descriptors. So a tree of a descriptor
remains one when references in it are given as arrays instead of objects, or the other way. -/
theorem written_iff_of_meansSame {i : Json} (hi : i.HasUniqueKeys) (hj : j.HasUniqueKeys)
    (h : MeansSame (.descriptor k) i j) : k.Written x i ↔ k.Written x j := by
  have hi' : i.ReadableAt .collected := ⟨hi, trivial⟩
  have hj' : j.ReadableAt .collected := ⟨hj, trivial⟩
  rw [written_iff_collected hi, written_iff_collected hj]
  exact ⟨h.decode_eq_ok hi' hj', h.symm.decode_eq_ok hj' hi'⟩

/-- A descriptor is read where it stands if it is among collected values and the references that
stand directly in it have their origins by the word. -/
theorem decode_iff_byWord {place : Place} (hplace : place ≠ .collected) (hj : j.ReadableAt place) :
    k.decode place (Draft.ofJson j) = .ok y ↔
      k.decode .collected (Draft.ofJson j) = .ok y ∧ k.ByWord j := by
  cases k with
  | typeRef => exact Shape.decode_iff_byWord (s := .typeRef) hplace hj
  | modifiers => exact Shape.decode_iff_byWord (s := .modifiers) hplace hj
  | _ => exact Schema.decode_iff_byWord hplace hj

/-- **Origins by word and by number.** A tree of a descriptor that repeats no name is read if the
references that stand directly in it have their origins by the word, and only then; what is read is
the descriptor, in whatever way the origins of the references inside these are written. So it is for
the tree, and for every text that denotes it and nests at most 127 deep. -/
theorem read_iff_byWord (h : k.Written x j) (hkeys : j.HasUniqueKeys) :
    (∀ text, Json.Denoted text j → j.depth ≤ nestingLimit → ∀ y,
      k.read text = .ok y ↔ y = x ∧ k.ByWord j) ∧
    ∀ y, k.ofTree j = .ok y ↔ y = x ∧ k.ByWord j := by
  have hcollected : k.decode .collected (Draft.ofJson j) = .ok x :=
    (written_iff_collected hkeys).mp h
  have hdecode (place : Place) (hplace : place ≠ .collected) (hfits : place.Fits j.depth)
      (y : k.Value) : k.decode place (Draft.ofJson j) = .ok y ↔ y = x ∧ k.ByWord j := by
    -- among collected values the tree is the descriptor and nothing else
    rw [decode_iff_byWord hplace ⟨hkeys, hfits⟩, hcollected, Except.ok.injEq, eq_comm]
  constructor
  · -- a text is a stream with room for 127 levels
    intro text htext hdepth y
    rw [read_of_denoted k htext]
    exact hdecode (.stream nestingLimit) Place.noConfusion hdepth y
  · -- a tree is decoded as it is when no key is repeated
    intro y
    rw [ofTree_eq_ok hkeys]
    exact hdecode .tree Place.noConfusion trivial y

/-- A field of the host whose type has its origin by the word, and a supertype with a number for its
origin; and the same field with a number for the origin of its type. -/
theorem read_iff_byWord_hostField :
    ∃ (x : HostField) (i j : Json), hostField.Written x i ∧ hostField.Written x j ∧
      i.HasUniqueKeys ∧ j.HasUniqueKeys ∧
      hostField.read i.text = .ok x ∧ hostField.ofTree i = .ok x ∧
      ∀ y, hostField.read j.text ≠ .ok y ∧ hostField.ofTree j ≠ .ok y := by
  let type (origin : Json) : Json := .object [("origin", origin), ("name", .string "A"),
    ("superclass", .array [.nat 1, .string "B"])]
  let field (origin : Json) : Json := .array [.string "f", .nat 1, type origin]
  let x : HostField := ⟨"f", 1, ⟨.native,
    ⟨"A", none, false, ∅, some ⟨.generated, ⟨"B", none, false, ∅, none, []⟩⟩, []⟩⟩⟩
  -- only the origin of the type differs between the two trees
  have hkeys (origin : Json) (h : origin.HasUniqueKeys) : (field origin).HasUniqueKeys := by
    simp [field, type, Json.HasUniqueKeys, Json.ItemsHaveUniqueKeys, Json.MembersHaveUniqueKeys, h]
  have hnaturals (origin : Json) (h : origin.HasNaturals) : (field origin).HasNaturals := by
    have hone : ∃ n < UInt64.size, (1 : Int) = n := ⟨1, by decide, rfl⟩
    simp [field, type, Json.HasNaturals, Json.ItemsHaveNaturals, Json.MembersHaveNaturals, h, hone]
  let i : Json := field (.string "native")
  let j : Json := field (.nat 0)
  have hikeys : i.HasUniqueKeys := hkeys (.string "native") trivial
  have hjkeys : j.HasUniqueKeys := hkeys (.nat 0) trivial
  have hi : hostField.Written x i :=
    (written_iff_collected hikeys).mpr (Decoded.eq_ok_of_toOption (by decide +kernel))
  have hj : hostField.Written x j :=
    (written_iff_collected hjkeys).mpr (Decoded.eq_ok_of_toOption (by decide +kernel))
  -- among the fields only the type is a reference, and it has its origin by the word
  have hword : hostField.ByWord i := by
    intro f d hd
    cases f with
    | name => trivial
    | accessFlags => trivial
    | fieldType =>
      have hd : ("field_type", d) ∈ [("name", .string "f"), ("access_flags", .nat 1),
        ("field_type", type (.string "native"))] := hd
      obtain rfl : d = type (.string "native") := by simpa using hd
      exact ⟨"native", List.mem_cons_self ..⟩
  -- in the other tree the origin under the type is a number
  have hnumber : ¬hostField.ByWord j := by
    intro h
    have hd : ("field_type", type (.nat 0)) ∈ j.given HostField.schema.layout.names :=
      List.mem_of_getLast? rfl
    obtain ⟨word, hword⟩ := h .fieldType _ hd
    have hword : ("origin", Json.string word) ∈ [("origin", .nat 0), ("name", .string "A"),
      ("superclass", .array [.nat 1, .string "B"])] := hword
    simp at hword
  obtain ⟨hitext, hitree⟩ := read_iff_byWord hi hikeys
  obtain ⟨hjtext, hjtree⟩ := read_iff_byWord hj hjkeys
  have hidenoted : Json.Denoted i.text i := Json.denoted_text (hnaturals _ trivial)
  have hjdenoted : Json.Denoted j.text j := Json.denoted_text (hnaturals _ ⟨0, by decide, rfl⟩)
  -- the word is what the two trees differ in, and what the readers ask for
  refine ⟨x, i, j, hi, hj, hikeys, hjkeys, ?_, ?_, fun y => ⟨?_, ?_⟩⟩
  · exact (hitext _ hidenoted (by decide) x).mpr ⟨rfl, hword⟩
  · exact (hitree x).mpr ⟨rfl, hword⟩
  · intro hy
    exact hnumber ((hjtext _ hjdenoted (by decide) y).mp hy).2
  · intro hy
    exact hnumber ((hjtree y).mp hy).2

end Kind

end Introspect

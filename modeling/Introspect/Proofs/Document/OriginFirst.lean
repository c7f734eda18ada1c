import Introspect.Proofs.Document.CutOff
import Introspect.Proofs.Document.Order

/-!
# The origin comes first

The members of a reference are collected before they are decoded, all but the origin. So the origin
is decided on before anything else: whether it is missing or refused can be told from it alone, and
then nothing that stands in the other members, before or behind it, is ever reported.

* `Origin.Refused`, `Origin.Accepted` — which values are no origin at a place, with the error, and
  which are;
* `TypeRef.collect_object_of_none`, `TypeRef.collect_object_of_some` — collecting the members of a
  finished object;
* `TypeRef.DecidedByOrigin` — the outcomes that the origin leaves open;
* `TypeRef.decode_iff_decidedByOrigin` — what becomes of a reference, wherever it stands;
* `Kind.typeRef_iff_decidedByOrigin` — and of one that is read from a text or a tree.
-/

namespace Introspect

/-! ### Origins -/

namespace Origin

/-- **A value that is no origin**, and what is wrong with it. Its number is accepted among collected
values only. -/
inductive Refused (place : Place) : Json → DataError → Prop
  | word {s : String} (hnative : s ≠ "native") (hgenerated : s ≠ "generated") :
      Refused place (.string s) (.unknownOrigin s)
  | index {i : Int} (hplace : place = .collected) (hi : 2 ≤ i) :
      Refused place (.scalar (.number (.integer i))) (.unknownOriginIndex i)
  | integer {i : Int} (hplace : place = .collected → i < 0) :
      Refused place (.scalar (.number (.integer i))) (.wrongType (.integer i) .origin)
  | double (x : Float) :
      Refused place (.scalar (.number (.double x))) (.wrongType (.double x) .origin)
  | null : Refused place .null (.wrongType .null .origin)
  | bool (b : Bool) : Refused place (.bool b) (.wrongType (.bool b) .origin)
  | array (js : List Json) : Refused place (.array js) (.wrongType .sequence .origin)
  | object (ms : List (String × Json)) : Refused place (.object ms) (.wrongType .map .origin)

/-- **A value that is an origin.** -/
inductive Accepted (place : Place) : Json → Origin → Prop
  | native : Accepted place (.string "native") .native
  | generated : Accepted place (.string "generated") .generated
  | zero (hplace : place = .collected) : Accepted place (.nat 0) .native
  | one (hplace : place = .collected) : Accepted place (.nat 1) .generated

variable {place : Place} {j : Json}

/-- What is refused as an origin is an error that says why. -/
theorem decode_of_refused {e : DataError} (h : Refused place j e) :
    decode place (Draft.ofJson j) = .error (.data e) := by
  cases h with
  | @word s hnative hgenerated =>
    have hword : ofWord s = .error (.unknownOrigin s) :=
      (if_neg hnative).trans (if_neg hgenerated)
    exact congrArg Decoded.ofData hword
  | @index i hplace hi =>
    subst hplace
    -- it is taken for a position, and there are two
    show Decoded.ofData (if 0 ≤ i then ofIndex i else _) = _
    rw [if_pos (by omega), ofIndex, if_neg (by omega), if_neg (by omega)]
    rfl
  | @integer i hplace =>
    -- only among collected values does the sign matter
    cases place with
    | stream room => rfl
    | tree => rfl
    | collected =>
      have hi : ¬0 ≤ i := Int.not_le.mpr (hplace rfl)
      show Decoded.ofData (if 0 ≤ i then ofIndex i else _) = _
      rw [if_neg hi]
      rfl
  | _ => rfl

/-- What is accepted as an origin is decoded as that origin. -/
theorem decode_of_accepted {p : Origin} (h : Accepted place j p) :
    decode place (Draft.ofJson j) = .ok p := by
  cases h with
  | native => rfl
  | generated => rfl
  | zero hplace => subst hplace; rfl
  | one hplace => subst hplace; rfl

/-- **Every value is an origin or is not**, and no place leaves it open. -/
theorem refused_or_accepted (place : Place) (j : Json) :
    (∃ e, Refused place j e) ∨ ∃ p, Accepted place j p := by
  -- one case for each kind of value; only strings and numbers need a closer look
  cases j with
  | array js => exact .inl ⟨_, .array js⟩
  | object ms => exact .inl ⟨_, .object ms⟩
  | scalar s =>
    cases s with
    | null => exact .inl ⟨_, .null⟩
    | bool b => exact .inl ⟨_, .bool b⟩
    | string s =>
      -- the two words, and every other one
      by_cases hnative : s = "native"
      · subst hnative
        exact .inr ⟨_, .native⟩
      by_cases hgenerated : s = "generated"
      · subst hgenerated
        exact .inr ⟨_, .generated⟩
      exact .inl ⟨_, .word hnative hgenerated⟩
    | number x =>
      cases x with
      | double x => exact .inl ⟨_, .double x⟩
      | integer i =>
        by_cases hplace : place = .collected
        · -- among collected values there are two numbers for origins
          obtain hi | rfl | rfl | hi : i < 0 ∨ i = 0 ∨ i = 1 ∨ 2 ≤ i := by omega
          · exact .inl ⟨_, .integer fun _ => hi⟩
          · exact .inr ⟨_, .zero hplace⟩
          · exact .inr ⟨_, .one hplace⟩
          · exact .inl ⟨_, .index hplace hi⟩
        · exact .inl ⟨_, .integer fun h => absurd h hplace⟩

/-- Sorting makes no difference to what is refused as an origin. -/
theorem refused_sorted_iff {e : DataError} : Refused place j.sorted e ↔ Refused place j e := by
  cases j with
  | scalar s => rfl
  | array js =>
    rw [Json.sorted]
    constructor <;> rintro ⟨⟩ <;> exact .array _
  | object ms =>
    rw [Json.sorted]
    constructor <;> rintro ⟨⟩ <;> exact .object _

/-- Sorting makes no difference to what is accepted as an origin. -/
theorem accepted_sorted_iff {p : Origin} : Accepted place j.sorted p ↔ Accepted place j p := by
  cases j with
  | scalar s => rfl
  | array js =>
    rw [Json.sorted]
    constructor <;> rintro ⟨⟩
  | object ms =>
    rw [Json.sorted]
    constructor <;> rintro ⟨⟩

end Origin

/-! ### References to types -/

namespace TypeRef

/-- The members of a reference other than its origin, in their order. -/
def others (ms : List (String × Json)) : List (String × Json) :=
  ms.filter fun m => m.1 ≠ originKey

/-- **What becomes of a reference**, given its origin, if it has one, and its other members. The
others have no influence unless the origin is accepted. Then they are decoded as type information,
among collected values. -/
inductive DecidedByOrigin (place : Place) (others : List (String × Json)) :
    Option Json → Decoded TypeRef → Prop
  | missing : DecidedByOrigin place others none (.error (.data (.missingField "origin")))
  | refused {o : Json} {e : DataError} (he : Origin.Refused place o e) :
      DecidedByOrigin place others (some o) (.error (.data e))
  | accepted {o : Json} {p : Origin} (hp : Origin.Accepted place o p) :
      DecidedByOrigin place others (some o)
        ((TypeInfo.schema.decode decode .collected (Draft.ofJson (.object others))).map
          fun info => ⟨p, info⟩)

/-- The origin is found where it stands, and the others are the members before and behind it. -/
theorem others_append {before behind : List (String × Json)} (o : Json)
    (hbefore : ∀ m ∈ before, m.1 ≠ originKey) (hbehind : ∀ m ∈ behind, m.1 ≠ originKey) :
    others (before ++ (originKey, o) :: behind) = before ++ behind := by
  have hself {ms : List (String × Json)} (h : ∀ m ∈ ms, m.1 ≠ originKey) :
      ms.filter (fun m => m.1 ≠ originKey) = ms :=
    List.filter_eq_self.mpr fun m hm => decide_eq_true (h m hm)
  rw [others, List.filter_append, List.filter_cons_of_neg (by simp), hself hbefore, hself hbehind]

section Collecting

variable {place : Place} {ms : List (String × Json)}

/-- **Collecting the members of a finished object without an origin**, if they fit. -/
theorem collect_object_of_none (ho : (Json.object ms).get? originKey = none)
    (hfits : place.Fits (Json.depthMembers ms)) :
    collect place none (Draft.ofMembers ms) = .ok (none, Draft.ofMembers (others ms)) := by
  have hne := Json.get?_object_eq_none_iff.mp ho
  have hself : others ms = ms := List.filter_eq_self.mpr fun m hm => decide_eq_true (hne m hm)
  rw [collect_ofMembers hne, Place.limited_of_fits hfits, hself]

/-- **Collecting the members of a finished object with an origin**: the others are kept in their
order, and the origin is decoded where it stands. -/
theorem collect_object_of_some (hkeys : (ms.map Prod.fst).Nodup) {o : Json}
    (ho : (Json.object ms).get? originKey = some o)
    (hfits : place.Fits (Json.depthMembers ms)) :
    collect place none (Draft.ofMembers ms) = do
      let p ← Origin.decode place (Draft.ofJson o)
      return (some p, Draft.ofMembers (others ms)) := by
  -- the object is taken apart at its origin, which no other member has the name of
  obtain ⟨before, behind, rfl⟩ := List.append_of_mem (Json.mem_of_get?_object ho)
  have hne : ∀ m ∈ before ++ behind, m.1 ≠ originKey := by
    rw [List.map_append, List.map_cons, List.nodup_middle, ← List.map_append] at hkeys
    intro m hm hname
    exact (List.nodup_cons.mp hkeys).1 (List.mem_map.mpr ⟨m, hm, hname⟩)
  obtain ⟨hbefore, hbehind⟩ := List.forall_mem_append.mp hne
  -- the members on both sides fit with the others
  have hside {side : List (String × Json)} (h : ∀ m ∈ side, m.1 ≠ originKey)
      (hsub : ∀ m ∈ side, m ∈ before ++ (originKey, o) :: behind) (origin : Option Origin) :
      collect place origin (Draft.ofMembers side) = .ok (origin, Draft.ofMembers side) := by
    have hdepth := Json.depthMembers_le_iff.mpr fun m hm =>
      Json.depthMembers_le_iff.mp (Nat.le_refl _) m (hsub m hm)
    rw [collect_ofMembers h, Place.limited_of_fits (hfits.mono hdepth)]
  rw [others_append o hbefore hbehind, Draft.ofMembers_append, Draft.ofMembers_append,
    collect_append, hside hbefore (fun m hm => List.mem_append_left _ hm), Decoded.ok_bind,
    Draft.ofMembers]
  simp only [collect, Lexeme.read_sound, Decoded.ofFault_ok, Decoded.ok_bind, if_true,
    Option.isSome_none, Bool.false_eq_true, if_false,
    hside hbehind fun m hm => List.mem_append_right _ (List.mem_cons_of_mem _ hm)]
  cases Origin.decode place (Draft.ofJson o) <;> rfl

end Collecting

/-- The origin always decides. -/
theorem exists_decidedByOrigin (place : Place) (others : List (String × Json)) (o? : Option Json) :
    ∃ x, DecidedByOrigin place others o? x := by
  cases o? with
  | none => exact ⟨_, .missing⟩
  | some o =>
    obtain ⟨e, he⟩ | ⟨p, hp⟩ := Origin.refused_or_accepted place o
    · exact ⟨_, .refused he⟩
    · exact ⟨_, .accepted hp⟩

/-- **The outcome for a finished object** is what the origin leaves to it. -/
theorem decode_of_decidedByOrigin {place : Place} {ms : List (String × Json)}
    (hkeys : (ms.map Prod.fst).Nodup) (hfits : place.Fits (Json.object ms).depth)
    {x : Decoded TypeRef}
    (h : DecidedByOrigin place.inside (others ms) ((Json.object ms).get? originKey) x) :
    decode place (Draft.ofJson (.object ms)) = x := by
  obtain ⟨henter, hinside⟩ := Place.enter_of_fits hfits (Nat.succ_pos _)
  have hfits := hinside _ (Nat.lt_succ_self _)
  rw [decode_eq, Draft.ofJson, decodeWith, henter, Decoded.ok_bind, ofMembers]
  -- the origin is looked up first, and the collecting follows what was found
  generalize ho : (Json.object ms).get? originKey = o? at h
  cases h with
  | missing =>
    rw [collect_object_of_none ho hfits]
    rfl
  | refused he =>
    rw [collect_object_of_some hkeys ho hfits, Origin.decode_of_refused he]
    rfl
  | accepted hp =>
    rw [collect_object_of_some hkeys ho hfits, Origin.decode_of_accepted hp]
    -- what was collected is an object again, where everything fits
    show (TypeInfo.schema.ofMembers decode .collected (Draft.ofMembers (others ms)) none >>= _) =
      (TypeInfo.schema.ofMembers decode .collected (Draft.ofMembers (others ms)) none).map _
    cases TypeInfo.schema.ofMembers decode .collected (Draft.ofMembers (others ms)) none <;> rfl

/-- **What becomes of a finished object that is read as a reference**, wherever it stands, if it
fits and does not repeat its own names. -/
theorem decode_iff_decidedByOrigin (place : Place) {ms : List (String × Json)}
    (hkeys : (ms.map Prod.fst).Nodup) (hfits : place.Fits (Json.object ms).depth)
    (x : Decoded TypeRef) :
    decode place (Draft.ofJson (.object ms)) = x ↔
      DecidedByOrigin place.inside (others ms) ((Json.object ms).get? originKey) x := by
  refine ⟨?_, decode_of_decidedByOrigin hkeys hfits⟩
  rintro rfl
  -- the outcome is one that the origin leaves, and that has just been shown to be the one there is
  obtain ⟨y, hy⟩ := exists_decidedByOrigin place.inside (others ms)
    ((Json.object ms).get? originKey)
  rwa [decode_of_decidedByOrigin hkeys hfits hy]

/-- Sorting does not change what the origin decides. -/
theorem decidedByOrigin_sorted_iff {place : Place} {others : List (String × Json)}
    {o? : Option Json} {x : Decoded TypeRef} :
    DecidedByOrigin place others (o?.map Json.sorted) x ↔ DecidedByOrigin place others o? x := by
  cases o? with
  | none => rfl
  | some o =>
    refine ⟨?_, ?_⟩
    · intro h
      cases h with
      | refused he => exact .refused (Origin.refused_sorted_iff.mp he)
      | accepted hp => exact .accepted (Origin.accepted_sorted_iff.mp hp)
    · intro h
      cases h with
      | refused he => exact .refused (Origin.refused_sorted_iff.mpr he)
      | accepted hp => exact .accepted (Origin.accepted_sorted_iff.mpr hp)

end TypeRef

/-- **The origin comes first**, in a text and in a tree alike. A reference that is given by an
object without repeated names is decided by its origin; if that is missing or refused, the error is
the same whatever its other members are and wherever the origin stands. Only then are the others
decoded: in the order of the text, or in the order of their names. -/
theorem Kind.typeRef_iff_decidedByOrigin {ms : List (String × Json)}
    (hkeys : (ms.map Prod.fst).Nodup) (x : Decoded TypeRef) :
    (∀ place : Place, place.Fits (Json.object ms).depth →
      (typeRef.decode place (Draft.ofJson (.object ms)) = x ↔
        TypeRef.DecidedByOrigin place.inside (TypeRef.others ms)
          ((Json.object ms).get? TypeRef.originKey) x)) ∧
    (∀ text, Json.Denoted text (.object ms) → (Json.object ms).depth ≤ nestingLimit →
      (typeRef.read text = x ↔
        TypeRef.DecidedByOrigin (.stream (nestingLimit - 1)) (TypeRef.others ms)
          ((Json.object ms).get? TypeRef.originKey) x)) ∧
    (typeRef.ofTree (.object ms) = x ↔
      TypeRef.DecidedByOrigin .tree (TypeRef.others (Json.object ms).sorted.members)
        ((Json.object ms).get? TypeRef.originKey) x) := by
  refine ⟨fun place hfits => TypeRef.decode_iff_decidedByOrigin place hkeys hfits x, ?_, ?_⟩
  · -- a text is a stream with room for 127 levels
    intro text htext hdepth
    rw [read_of_denoted typeRef htext]
    exact TypeRef.decode_iff_decidedByOrigin (.stream nestingLimit) hkeys hdepth x
  · -- the sorted form has the same members, none of them twice
    have hkeys' : ((Json.object ms).sorted.members.map Prod.fst).Nodup :=
      (Json.sortMembers_pairwise _).map Prod.fst fun m n hlt heq =>
        String.lt_irrefl _ (heq ▸ hlt)
    rw [← TypeRef.decidedByOrigin_sorted_iff, ← Json.get?_sorted hkeys]
    exact TypeRef.decode_iff_decidedByOrigin .tree hkeys' trivial x

/-- An unknown origin is reported, although it comes behind a name and interfaces that are none. -/
theorem Kind.typeRef_iff_decidedByOrigin_scripted :
    typeRef.read "\x7b\"name\":5,\"interfaces\":\x7b\x7d,\"origin\":\"scripted\"\x7d" =
        .error (.data (.unknownOrigin "scripted")) ∧
      typeRef.ofTree (.object [("name", .nat 5), ("interfaces", .object []),
          ("origin", .string "scripted")]) =
        .error (.data (.unknownOrigin "scripted")) := by
  let ms : List (String × Json) :=
    [("name", .nat 5), ("interfaces", .object []), ("origin", .string "scripted")]
  have htext : "\x7b\"name\":5,\"interfaces\":\x7b\x7d,\"origin\":\"scripted\"\x7d" =
      (Json.object ms).text := by
    decide +kernel
  have hdenoted : Json.Denoted (Json.object ms).text (.object ms) :=
    Json.denoted_text ⟨⟨5, by decide, rfl⟩, trivial, trivial, trivial⟩
  have hkeys : (ms.map Prod.fst).Nodup := by decide
  -- it is none of the two words, whatever the place
  have hunknown (place : Place) : Origin.Refused place (.string "scripted")
      (.unknownOrigin "scripted") :=
    .word (by decide) (by decide)
  obtain ⟨-, hread, htree⟩ := typeRef_iff_decidedByOrigin hkeys
    (.error (.data (.unknownOrigin "scripted")))
  rw [htext]
  exact ⟨(hread _ hdenoted (by decide)).mpr (.refused (hunknown _)),
    htree.mpr (.refused (hunknown _))⟩

end Introspect

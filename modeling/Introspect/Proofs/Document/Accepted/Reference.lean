import Introspect.Proofs.Document.Accepted.Record

/-!
# Accepted references

A reference is an origin among or before the fields of its information. When a draft is accepted as
one, and as which:

* `TypeRef.collect_none_eq_ok` — the origin is found wherever it stands, and the other members are
  collected in their order;
* `TypeRef.ofMembers_eq_ok`, `TypeRef.ofItems_eq_ok` — objects and arrays that hold a reference;
* `TypeRef.decodeWith_eq_ok` — the same for both forms at once, a draft giving its `TypeRef.Parts`.
-/

namespace Introspect

namespace TypeRef

variable {ref : RefDecoder}

/-- A member of another name is collected. -/
theorem collect_other_eq_ok {place : Place} {origin o : Option Origin} {name : String} {d : Draft}
    {ms rest : List (Lexeme String × Draft)} (hname : name ≠ originKey) :
    collect place origin ((.sound name, d) :: ms) = .ok (o, rest) ↔
      place.keep d = .ok () ∧
        ∃ kept, collect place origin ms = .ok (o, kept) ∧ rest = (.sound name, d) :: kept := by
  simp only [collect, Lexeme.read_sound, Decoded.ofFault_ok, Decoded.ok_bind, hname, if_false,
    Decoded.unit_bind_eq_ok]
  rw [Decoded.bind_eq_ok]
  refine ⟨?_, ?_⟩
  · rintro ⟨hkeep, ⟨q, kept⟩, hcollect, h⟩
    obtain ⟨rfl, rfl⟩ : q = o ∧ (.sound name, d) :: kept = rest := by simpa using h
    exact ⟨hkeep, kept, hcollect, rfl⟩
  · rintro ⟨hkeep, kept, hcollect, rfl⟩
    exact ⟨hkeep, (o, kept), hcollect, rfl⟩

/-- **A member that is collected** has a name of its own, and can be kept. -/
def IsCollected (place : Place) (m : Lexeme String × Draft) : Prop :=
  (∃ name, m.1 = .sound name ∧ name ≠ originKey) ∧ place.keep m.2 = .ok ()

/-- Behind the origin every member is collected. -/
theorem collect_some_eq_ok {place : Place} {p : Origin} {o : Option Origin}
    {ms rest : List (Lexeme String × Draft)} :
    collect place (some p) ms = .ok (o, rest) ↔
      o = some p ∧ rest = ms ∧ ∀ m ∈ ms, IsCollected place m := by
  -- a second origin is an error, as is a name that cannot be read
  induction ms generalizing rest with
  | nil => simp [collect, eq_comm]
  | cons m ms ih =>
    obtain ⟨k, d⟩ := m
    rw [List.forall_mem_cons]
    cases k with
    | faulty onRead onSkip => simp [collect, Lexeme.read, IsCollected]
    | sound name =>
      by_cases hname : name = originKey
      · -- another origin would be a repeated one
        simp [collect, hname, IsCollected]
      · rw [collect_other_eq_ok hname]
        refine ⟨?_, ?_⟩
        · rintro ⟨hkeep, kept, hcollect, rfl⟩
          obtain ⟨rfl, rfl, hkept⟩ := ih.mp hcollect
          exact ⟨rfl, rfl, ⟨⟨name, rfl, hname⟩, hkeep⟩, hkept⟩
        · rintro ⟨rfl, rfl, ⟨-, hkeep⟩, hkept⟩
          exact ⟨hkeep, ms, ih.mpr ⟨rfl, rfl, hkept⟩, rfl⟩

/-- **Where an origin is found** it stands somewhere among the members, and the others are collected
in their order. -/
theorem collect_none_eq_ok {place : Place} {p : Origin} {ms rest : List (Lexeme String × Draft)} :
    collect place none ms = .ok (some p, rest) ↔
      ∃ before d behind, ms = before ++ (.sound originKey, d) :: behind ∧
        rest = before ++ behind ∧ Origin.decode place d = .ok p ∧
        ∀ m ∈ rest, IsCollected place m := by
  induction ms generalizing rest with
  | nil => simp [collect]
  | cons m ms ih =>
    obtain ⟨k, d⟩ := m
    by_cases hk : k = .sound originKey
    · -- the origin is found here, and the members behind it are all collected
      subst hk
      simp only [collect, Lexeme.read_sound, Decoded.ofFault_ok, Decoded.ok_bind, if_true,
        Option.isSome_none, Bool.false_eq_true, if_false]
      rw [Decoded.bind_eq_ok]
      refine ⟨?_, ?_⟩
      · rintro ⟨q, hq, hcollect⟩
        obtain ⟨hp, rfl, hkept⟩ := collect_some_eq_ok.mp hcollect
        obtain rfl : p = q := by simpa using hp
        exact ⟨[], d, rest, rfl, rfl, hq, hkept⟩
      · rintro ⟨before, e, behind, hms, rfl, he, hkept⟩
        -- either nothing stands before the origin, or this member does
        cases before with
        | nil =>
          obtain ⟨rfl, rfl⟩ : d = e ∧ ms = behind := by simpa using hms
          exact ⟨p, he, collect_some_eq_ok.mpr ⟨rfl, rfl, hkept⟩⟩
        | cons m before =>
          -- the first member is an origin, which the collected ones are not
          obtain ⟨rfl, -⟩ := List.cons.inj hms
          obtain ⟨⟨name, hname, hne⟩, -⟩ := hkept _ (List.mem_cons_self ..)
          exact absurd (Lexeme.sound.inj hname).symm hne
    · -- the origin stands further on, so this member is collected first
      refine ⟨?_, ?_⟩
      · intro h
        obtain ⟨name, rfl⟩ : ∃ name, k = .sound name := by
          cases k with
          | faulty onRead onSkip => simp [collect, Lexeme.read] at h
          | sound name => exact ⟨name, rfl⟩
        have hname : name ≠ originKey := fun h => hk (h ▸ rfl)
        obtain ⟨hkeep, kept, hcollect, rfl⟩ := (collect_other_eq_ok hname).mp h
        obtain ⟨before, e, behind, rfl, rfl, he, hkept⟩ := ih.mp hcollect
        exact ⟨(.sound name, d) :: before, e, behind, rfl, rfl, he,
          List.forall_mem_cons.mpr ⟨⟨⟨name, rfl, hname⟩, hkeep⟩, hkept⟩⟩
      · rintro ⟨before, e, behind, hms, rfl, he, hkept⟩
        cases before with
        -- the member at hand is no origin
        | nil => exact absurd (Prod.mk.inj (List.cons.inj hms).1).1 hk
        | cons m before =>
          obtain ⟨rfl, rfl⟩ := List.cons.inj hms
          obtain ⟨⟨⟨name, hname, hne⟩, hkeep⟩, hbehind⟩ := List.forall_mem_cons.mp hkept
          obtain rfl : k = .sound name := hname
          exact (collect_other_eq_ok hne).mpr ⟨hkeep, before ++ behind,
            ih.mpr ⟨before, e, behind, rfl, rfl, he, hbehind⟩, rfl⟩

/-- Collecting the items of an array succeeds when each can be kept. -/
theorem collectItems_eq_ok {place : Place} {ds : List Draft} :
    collectItems place ds = .ok () ↔ ∀ d ∈ ds, place.keep d = .ok () := by
  induction ds with
  | nil => simp [collectItems]
  | cons d ds ih => rw [collectItems, Decoded.unit_bind_eq_ok, ih, List.forall_mem_cons]

/-- **The parts that a draft gives for a reference**: one for the origin, and those for the fields
of its information, all of which are collected. -/
inductive Parts (place : Place) : Draft → Draft → (TypeInfo.schema.Field → Draft → Prop) → Prop
  | object {ms rest : List (Lexeme String × Draft)} {origin : Draft}
      (hperm : ms.Perm ((.sound originKey, origin) :: rest))
      (hkept : ∀ m ∈ rest, IsCollected place m) (hadmits : TypeInfo.schema.Admits rest) :
      Parts place (.object ms none) origin (TypeInfo.schema.MemberPart rest)
  | array {ds : List Draft} {origin : Draft} (hkept : ∀ d ∈ ds, place.keep d = .ok ())
      (hlength : ds.length ≤ TypeInfo.schema.size) :
      Parts place (.array (origin :: ds) none) origin (TypeInfo.schema.ItemPart ds)

/-- The part for the origin is less deep than the whole. -/
theorem Parts.origin_depth_lt {place : Place} {d origin : Draft}
    {part : TypeInfo.schema.Field → Draft → Prop} (hparts : Parts place d origin part) :
    origin.depth < d.depth := by
  -- the origin is one of the members wherever it stands, and the first of the items
  cases hparts with
  | object hperm _ _ =>
    exact Draft.depth_lt_of_mem_members (hperm.mem_iff.mpr (List.mem_cons_self ..))
  | array _ _ => exact Draft.depth_lt_of_mem_items (List.mem_cons_self ..)

/-- The other parts are collected, and less deep than the whole. -/
theorem Parts.keep_and_depth_lt {place : Place} {d origin e : Draft}
    {part : TypeInfo.schema.Field → Draft → Prop} {f : TypeInfo.schema.Field}
    (hparts : Parts place d origin part) (he : part f e) :
    place.keep e = .ok () ∧ e.depth < d.depth := by
  cases hparts with
  | object hperm hkept _ =>
    obtain ⟨k, hm, -⟩ := he
    exact ⟨(hkept _ hm).2,
      Draft.depth_lt_of_mem_members (hperm.mem_iff.mpr (List.mem_cons_of_mem _ hm))⟩
  | array hkept _ =>
    have he := (List.of_mem_zip he).2
    exact ⟨hkept e he, Draft.depth_lt_of_mem_items (List.mem_cons_of_mem _ he)⟩

/-- **An object holds a reference** when one member is its origin and the others, collected in their
order, hold its information. -/
theorem ofMembers_eq_ok {place : Place} {ms : List (Lexeme String × Draft)}
    {ending : Option Fault} {t : TypeRef} :
    ofMembers ref place ms ending = .ok t ↔
      ending = none ∧ ∃ before d behind, ms = before ++ (.sound originKey, d) :: behind ∧
        Origin.decode place d = .ok t.origin ∧ (∀ m ∈ before ++ behind, IsCollected place m) ∧
        TypeInfo.schema.ofMembers ref .collected (before ++ behind) none = .ok t.info := by
  rw [ofMembers, Decoded.bind_eq_ok]
  simp only [Decoded.unit_bind_eq_ok, Decoded.ofFault_eq_ok, Draft.ending_eq_ok]
  refine ⟨?_, ?_⟩
  · rintro ⟨⟨_ | o, rest⟩, hcollect, hending, h⟩
    · -- no origin among the members
      cases h
    · obtain ⟨info, hinfo, h⟩ := Decoded.bind_eq_ok.mp h
      obtain rfl : (⟨o, info⟩ : TypeRef) = t := by simpa using h
      obtain ⟨before, d, behind, rfl, rfl, hd, hkept⟩ := collect_none_eq_ok.mp hcollect
      exact ⟨hending, before, d, behind, rfl, hd, hkept, hinfo⟩
  · rintro ⟨rfl, before, d, behind, rfl, hd, hkept, hinfo⟩
    obtain ⟨o, info⟩ := t
    exact ⟨(some o, before ++ behind),
      collect_none_eq_ok.mpr ⟨before, d, behind, rfl, rfl, hd, hkept⟩, rfl,
      Decoded.bind_eq_ok.mpr ⟨info, hinfo, rfl⟩⟩

/-- **An array holds a reference** when its first item is its origin and the others, all collected,
hold its information. -/
theorem ofItems_eq_ok {place : Place} {ds : List Draft} {ending : Option Fault} {t : TypeRef} :
    ofItems ref place ending ds = .ok t ↔
      ending = none ∧ ∃ d rest, ds = d :: rest ∧ Origin.decode place d = .ok t.origin ∧
        (∀ e ∈ rest, place.keep e = .ok ()) ∧
        TypeInfo.schema.ofItems ref .collected rest none = .ok t.info := by
  cases ds with
  -- without items there is no origin
  | nil => simp [ofItems, Decoded.unit_bind_eq_ok]
  | cons d ds =>
    rw [ofItems, Decoded.bind_eq_ok]
    simp only [Decoded.unit_bind_eq_ok, Decoded.ofFault_eq_ok, Draft.ending_eq_ok,
      collectItems_eq_ok]
    refine ⟨?_, ?_⟩
    · rintro ⟨o, ho, hkept, hending, h⟩
      obtain ⟨info, hinfo, h⟩ := Decoded.bind_eq_ok.mp h
      obtain rfl : (⟨o, info⟩ : TypeRef) = t := by simpa using h
      exact ⟨hending, d, ds, rfl, ho, hkept, hinfo⟩
    · rintro ⟨hending, e, rest, hds, he, hkept, hinfo⟩
      obtain ⟨rfl, rfl⟩ := List.cons.inj hds
      obtain ⟨o, info⟩ := t
      exact ⟨o, he, hkept, hending, Decoded.bind_eq_ok.mpr ⟨info, hinfo, rfl⟩⟩

/-- **A draft holds a reference** when it may be entered, one part is its origin and the other parts
fill its information. -/
theorem decodeWith_eq_ok {place : Place} {d : Draft} {t : TypeRef} :
    decodeWith ref place d = .ok t ↔
      ∃ inside origin part, place.enter = .ok inside ∧ Parts inside d origin part ∧
        Origin.decode inside origin = .ok t.origin ∧
        TypeInfo.schema.Filled ref .collected part t.info := by
  refine ⟨?_, ?_⟩
  · intro h
    -- a scalar is no reference; objects and arrays have been dealt with
    cases d with
    | leaf x =>
      have h : (Draft.leaf x).decodeScalar .typeRef (Scalar.refuse _) = .ok t := h
      exact absurd h decodeScalar_refuse_ne_ok
    | object ms ending =>
      obtain ⟨inside, hinside, h⟩ := Decoded.bind_eq_ok.mp h
      obtain ⟨rfl, before, d, behind, rfl, hd, hkept, hinfo⟩ := ofMembers_eq_ok.mp h
      obtain ⟨-, hadmits, hfilled⟩ := Schema.ofMembers_eq_ok.mp hinfo
      exact ⟨inside, d, _, hinside, .object List.perm_middle hkept hadmits, hd, hfilled⟩
    | array ds ending =>
      obtain ⟨inside, hinside, h⟩ := Decoded.bind_eq_ok.mp h
      obtain ⟨rfl, d, rest, rfl, hd, hkept, hinfo⟩ := ofItems_eq_ok.mp h
      obtain ⟨-, hlength, hfilled⟩ := Schema.ofItems_eq_ok.mp hinfo
      exact ⟨inside, d, _, hinside, .array hkept hlength, hd, hfilled⟩
  · rintro ⟨inside, origin, part, hinside, hparts, horigin, hfilled⟩
    cases hparts with
    | @object ms rest origin hperm hkept hadmits =>
      -- wherever the origin stands, the others are those that were given
      have hmem : (Lexeme.sound originKey, origin) ∈ ms :=
        hperm.mem_iff.mpr (List.mem_cons_self ..)
      obtain ⟨before, behind, rfl⟩ := List.append_of_mem hmem
      have hrest : rest.Perm (before ++ behind) :=
        ((List.perm_cons _).mp (List.perm_middle.symm.trans hperm)).symm
      rw [Schema.memberPart_perm hrest] at hfilled
      refine Decoded.bind_eq_ok.mpr ⟨inside, hinside, ofMembers_eq_ok.mpr
        ⟨rfl, before, origin, behind, rfl, horigin, fun m hm => ?_, ?_⟩⟩
      · exact hkept m (hrest.mem_iff.mpr hm)
      · exact Schema.ofMembers_eq_ok.mpr ⟨rfl, hadmits.perm hrest, hfilled⟩
    | @array ds origin hkept hlength =>
      exact Decoded.bind_eq_ok.mpr ⟨inside, hinside, ofItems_eq_ok.mpr
        ⟨rfl, origin, ds, rfl, horigin, hkept, Schema.ofItems_eq_ok.mpr ⟨rfl, hlength, hfilled⟩⟩⟩

end TypeRef

end Introspect

import Introspect.Proofs.Document.Layout

/-!
# Exchanging a part of a document

A descriptor is decoded part by part, each part in a role of its own. Whether the whole is accepted
depends on a part only through the value that the part is decoded to: with another part of the same
value the whole is accepted as before. Parts that were collected for later are no exception, but
they have been read in full before they are decoded.

* `Draft.Stands`, `Accepts` — a draft that stands in a text, read or collected, and is accepted;
* `Hinges` — a whole that is accepted only if a part is, and again with another part of the same
  value; `Hinges.trans` — parts of parts;
* `Shape.hinges_option`, `Shape.hinges_item`, `Schema.hinges_member`, `Schema.hinges_item`,
  `TypeRef.hinges_member`, `TypeRef.hinges_item` — for each way in which one thing is decoded as a
  part of another;
* `Role.Exchanged`, `Role.Visits` — a part, however deep, that decoding comes to;
* `Role.Exchanged.hinges` — the whole hinges on every part that is a record or a reference.
-/

namespace Introspect

/-! ### Lists with one element exchanged -/

section Lists

variable {α : Type} {a b : α} {before behind : List α}

/-- What is in a list after an exchange was there before, or is new. -/
theorem mem_or_eq_of_mem_exchanged {c : α} (h : c ∈ before ++ b :: behind) :
    c ∈ before ++ a :: behind ∨ c = b := by
  simp only [List.mem_append, List.mem_cons] at h ⊢
  obtain h | h | h := h
  · exact .inl (.inl h)
  · exact .inr h
  · exact .inl (.inr (.inr h))

/-- What holds of all elements holds of all after an exchange, if it holds of the new one. -/
theorem forall_mem_exchanged {p : α → Prop} (h : ∀ c ∈ before ++ a :: behind, p c) (hb : p b) :
    ∀ c ∈ before ++ b :: behind, p c := by
  intro c hc
  obtain hc | rfl := mem_or_eq_of_mem_exchanged (a := a) hc
  · exact h c hc
  · exact hb

/-- The same element exchanged in two orders of a list leaves two orders of a list. -/
theorem perm_exchanged {before' behind' : List α}
    (h : (before ++ a :: behind).Perm (before' ++ a :: behind')) :
    (before ++ b :: behind).Perm (before' ++ b :: behind') := by
  -- without that element the two are orders of one list
  have hrest : (before ++ behind).Perm (before' ++ behind') :=
    (List.perm_cons a).mp (List.perm_middle.symm.trans (h.trans List.perm_middle))
  exact List.perm_middle.trans ((hrest.cons b).trans List.perm_middle.symm)

/-- A related element can be exchanged for another that is related to the same. -/
theorem forall₂_exchanged {β : Type} {R : α → β → Prop} {xs : List β}
    (h : List.Forall₂ R (before ++ a :: behind) xs) :
    ∃ x, R a x ∧ ∀ b, R b x → List.Forall₂ R (before ++ b :: behind) xs := by
  induction before generalizing xs with
  | nil =>
    cases h with
    | @cons _ x _ _ hx hbehind => exact ⟨x, hx, fun b hb => .cons hb hbehind⟩
  | cons c before ih =>
    cases h with
    | cons hc hrest =>
      obtain ⟨x, hx, hback⟩ := ih hrest
      exact ⟨x, hx, fun b hb => .cons hc (hback b hb)⟩

end Lists

/-! ### Standing in a text -/

namespace Draft

/-- **A draft that stands in a text**, with room for so many arrays and objects: it is being read,
or it has been read in full and collected. -/
inductive Stands (room : Nat) (d : Draft) : Place → Prop
  | stream : Stands room d (.stream room)
  | collected (h : d.check room = .ok ()) : Stands room d .collected

variable {room : Nat} {d : Draft} {place inside : Place} {ending : Option Fault}

/-- An item of an array stands inside it, and can be exchanged for anything that could. -/
theorem Stands.item {before behind : List Draft}
    (h : (array (before ++ d :: behind) ending).Stands room place)
    (hinside : place.enter = .ok inside) :
    ∃ left, room = left + 1 ∧ d.Stands left inside ∧
      ∀ d', d'.Stands left inside → (array (before ++ d' :: behind) ending).Stands room place := by
  cases room with
  | zero =>
    -- nothing is entered without room
    cases h with
    | stream => cases hinside
    | collected hcheck => cases hcheck
  | succ left =>
    refine ⟨left, rfl, ?_⟩
    cases h with
    | stream =>
      cases hinside
      -- a stream may have anything in it
      exact ⟨.stream, fun _ _ => .stream⟩
    | collected hcheck =>
      cases hinside
      obtain ⟨hitems, hending⟩ := check_array_eq_ok.mp hcheck
      have hitems := checkItems_eq_ok.mp hitems
      refine ⟨.collected (hitems d (by simp)), fun d' hd' => .collected ?_⟩
      -- what is put there has been read in full too, as the others have
      cases hd' with
      | collected hd' =>
        have hitems' := checkItems_eq_ok.mpr (forall_mem_exchanged hitems hd')
        exact check_array_eq_ok.mpr ⟨hitems', hending⟩

/-- The values of the members of an object stand inside it, and others could, under names that can
be read. -/
theorem Stands.members {ms : List (Lexeme String × Draft)}
    (h : (object ms ending).Stands room place) (hinside : place.enter = .ok inside) :
    ∃ left, room = left + 1 ∧ (∀ m ∈ ms, m.2.Stands left inside) ∧
      ∀ ms', (∀ m ∈ ms', m ∈ ms ∨ (∃ name, m.1 = .sound name) ∧ m.2.Stands left inside) →
        (object ms' ending).Stands room place := by
  cases room with
  | zero =>
    -- nothing is entered without room
    cases h with
    | stream => cases hinside
    | collected hcheck => cases hcheck
  | succ left =>
    refine ⟨left, rfl, ?_⟩
    cases h with
    | stream =>
      cases hinside
      exact ⟨fun _ _ => .stream, fun _ _ => .stream⟩
    | collected hcheck =>
      cases hinside
      obtain ⟨hmembers, hending⟩ := check_object_eq_ok.mp hcheck
      have hmembers := checkMembers_eq_ok.mp hmembers
      refine ⟨fun m hm => .collected (hmembers m hm).2, fun ms' hms' => .collected ?_⟩
      refine check_object_eq_ok.mpr ⟨checkMembers_eq_ok.mpr fun m hm => ?_, hending⟩
      -- an old member has been read in full with the others, a new one by assumption
      obtain hm | ⟨hname, hvalue⟩ := hms' m hm
      · exact hmembers m hm
      · cases hvalue with
        | collected hvalue => exact ⟨hname, hvalue⟩

/-- The value of a member can be exchanged like an item. -/
theorem Stands.member {name : String} {before behind : List (Lexeme String × Draft)}
    (h : (object (before ++ (.sound name, d) :: behind) ending).Stands room place)
    (hinside : place.enter = .ok inside) :
    ∃ left, room = left + 1 ∧ d.Stands left inside ∧ ∀ d', d'.Stands left inside →
      (object (before ++ (.sound name, d') :: behind) ending).Stands room place := by
  obtain ⟨left, rfl, hmembers, hback⟩ := h.members hinside
  refine ⟨left, rfl, hmembers (.sound name, d) (by simp), fun d' hd' => hback _ fun m hm => ?_⟩
  obtain hm | rfl := mem_or_eq_of_mem_exchanged (a := (.sound name, d)) hm
  · exact .inl hm
  · exact .inr ⟨⟨name, rfl⟩, hd'⟩

/-- What is kept has been collected. -/
theorem Stands.collected_of_keep (h : d.Stands room place) (hkeep : place.keep d = .ok ()) :
    d.Stands room .collected := by
  cases h with
  | stream => exact .collected (Decoded.ofFault_eq_ok.mp hkeep)
  | collected hcheck => exact .collected hcheck

/-- What can be collected can be kept, wherever something else stands. -/
theorem Stands.keep_of_collected {e : Draft} (h : e.Stands room place)
    (hd : d.Stands room .collected) : d.Stands room place ∧ place.keep d = .ok () := by
  cases hd with
  | collected hcheck =>
    cases h with
    | stream => exact ⟨.stream, Decoded.ofFault_eq_ok.mpr hcheck⟩
    | collected _ => exact ⟨.collected hcheck, rfl⟩

end Draft

/-! ### Parts of an accepted whole -/

section Hinges

variable {α β γ : Type}

/-- **A draft that is accepted** where it stands in a text. -/
structure Accepts (decode : Place → Draft → Decoded α) (place : Place) (room : Nat) (d : Draft)
    (x : α) : Prop where
  stands : d.Stands room place
  decoded : decode place d = .ok x

/-- **A whole that hinges on a part**, which has `level` arrays and objects around it. Where the
whole `d` is accepted, its part `e` is; and if `e'` is accepted there with the same value, then so
is `d'`, which has it in place of `e`. -/
def Hinges (part : Place → Draft → Decoded α) (whole : Place → Draft → Decoded β) (level : Nat)
    (e e' d d' : Draft) : Prop :=
  ∀ ⦃place room x⦄, Accepts whole place room d x → ∃ inside left y, room = left + level ∧
    Accepts part inside left e y ∧
      (Accepts part inside left e' y → Accepts whole place room d' x)

variable {part : Place → Draft → Decoded α} {whole : Place → Draft → Decoded β}

/-- A whole hinges on itself. -/
theorem Hinges.refl (e e' : Draft) : Hinges part part 0 e e' e e' :=
  fun place room x h => ⟨place, room, x, rfl, h, id⟩

/-- **A part of a part is a part of the whole.** -/
theorem Hinges.trans {middle : Place → Draft → Decoded γ} {level level' : Nat}
    {e e' c c' d d' : Draft} (h : Hinges part middle level e e' c c')
    (h' : Hinges middle whole level' c c' d d') :
    Hinges part whole (level + level') e e' d d' := by
  intro place room x hd
  -- from the whole to the part in between, and from there to the part; the way back is the other
  -- way
  obtain ⟨inside, left, y, rfl, hc, hback⟩ := h' hd
  obtain ⟨inside', left', z, rfl, he, hback'⟩ := h hc
  exact ⟨inside', left', z, Nat.add_assoc .., he, fun he' => hback (hback' he')⟩

end Hinges

/-! ### Values of a shape -/

namespace Shape

variable {s : Shape} {d d' : Draft}

/-- An optional value hinges on its value, if neither is null. -/
theorem hinges_option (hd : d ≠ .leaf (.sound .null)) (hd' : d' ≠ .leaf (.sound .null)) :
    Hinges (s.decode TypeRef.decode) ((optional s).decode TypeRef.decode) 0 d d' d d' := by
  rintro place room o ⟨hstands, ho⟩
  obtain ⟨hnull, -⟩ | ⟨-, x, hx, rfl⟩ := decodeOption_eq_ok.mp ho
  · exact absurd hnull hd
  · refine ⟨place, room, x, rfl, ⟨hstands, hx⟩, fun h => ⟨h.stands, ?_⟩⟩
    exact decodeOption_eq_ok.mpr (.inr ⟨hd', x, h.decoded, rfl⟩)

/-- **A list hinges on each of its items.** -/
theorem hinges_item (before behind : List Draft) (ending : Option Fault) :
    Hinges (s.decode TypeRef.decode) ((list s).decode TypeRef.decode) 1 d d'
      (.array (before ++ d :: behind) ending) (.array (before ++ d' :: behind) ending) := by
  rintro place room xs ⟨hstands, hdecode⟩
  obtain ⟨items, inside, hitems, hinside, hxs⟩ := decodeList_eq_ok.mp hdecode
  obtain ⟨rfl, rfl⟩ := Draft.array.inj hitems
  obtain ⟨left, rfl, hd, hback⟩ := hstands.item hinside
  obtain ⟨x, hx, hxs⟩ := forall₂_exchanged hxs
  refine ⟨inside, left, x, rfl, ⟨hd, hx⟩, fun h => ⟨hback d' h.stands, ?_⟩⟩
  exact decodeList_eq_ok.mpr ⟨_, inside, rfl, hinside, hxs d' h.decoded⟩

end Shape

/-! ### Records -/

namespace Schema

variable {α : Type} {S : Schema α} {ref : RefDecoder} {place : Place} {f : S.Field} {d d' : Draft}

/-- **Parts among which one for a field has been exchanged.** No part but the new one has come, and
no field has lost all of its parts. -/
structure Exchanged (f : S.Field) (d d' : Draft) (part part' : S.Field → Draft → Prop) : Prop where
  given : part f d
  new : ∀ g e, part' g e → part g e ∨ g = f ∧ e = d'
  old : ∀ g e, part g e → ∃ e', part' g e'

/-- A record filled by parts is filled when one of them is exchanged for another of its value. -/
theorem Filled.exchange {part part' : S.Field → Draft → Prop} {a : α}
    (h : S.Filled ref place part a) (hpart : Exchanged f d d' part part')
    (hd' : (S.shape f).decode ref place d' = .ok (S.get a f)) :
    S.Filled ref place part' a where
  given g e he := by
    obtain he | ⟨rfl, rfl⟩ := hpart.new g e he
    · exact h.given g e he
    · exact hd'
  absent g hg := h.absent g fun e he =>
    let ⟨e', he'⟩ := hpart.old g e he
    hg e' he'

/-- Among the parts of an object a member has been exchanged. -/
theorem memberPart_exchanged (before behind : List (Lexeme String × Draft)) :
    Exchanged f d d' (S.MemberPart (before ++ (.sound (S.key f), d) :: behind))
      (S.MemberPart (before ++ (.sound (S.key f), d') :: behind)) where
  given := ⟨.sound (S.key f), by simp, S.field?_key f⟩
  new g e := by
    rintro ⟨k, hm, hg⟩
    obtain hm | hm := mem_or_eq_of_mem_exchanged (a := (.sound (S.key f), d)) hm
    -- another member is for the field it was for; the new one for that of the old one
    · exact .inl ⟨k, hm, hg⟩
    · obtain ⟨rfl, rfl⟩ := Prod.mk.inj hm
      rw [fieldOf?, S.field?_key] at hg
      exact .inr ⟨(Option.some.inj hg).symm, rfl⟩
  old g e := by
    rintro ⟨k, hm, hg⟩
    obtain hm | hm := mem_or_eq_of_mem_exchanged (a := (.sound (S.key f), d')) hm
    · exact ⟨e, k, hm, hg⟩
    · obtain ⟨rfl, rfl⟩ := Prod.mk.inj hm
      exact ⟨d', .sound (S.key f), by simp, hg⟩

/-- Among the parts of an array an item has been exchanged. -/
theorem itemPart_exchanged {before : List Draft} (hf : S.fields[before.length]? = some f)
    (behind : List Draft) :
    Exchanged f d d' (S.ItemPart (before ++ d :: behind))
      (S.ItemPart (before ++ d' :: behind)) := by
  obtain ⟨hlength, rfl⟩ := List.getElem?_eq_some_iff.mp hf
  -- the fields are taken apart where the items are
  have hzip (e : Draft) : S.fields.zip (before ++ e :: behind) =
      (S.fields.take before.length).zip before ++
        (S.fields[before.length], e) :: (S.fields.drop (before.length + 1)).zip behind := by
    have htake : (S.fields.take before.length).length = before.length :=
      List.length_take_of_le (Nat.le_of_lt hlength)
    conv_lhs => rw [← S.fields.take_append_drop before.length]
    rw [List.drop_eq_getElem_cons hlength, List.zip_append htake, List.zip_cons_cons]
  refine ⟨?_, fun g e he => ?_, fun g e he => ?_⟩
  · rw [ItemPart, hzip]
    simp
  · rw [ItemPart, hzip] at he ⊢
    -- another item is for the field it was for; the new one for that of the old one
    obtain he | he := mem_or_eq_of_mem_exchanged (a := (S.fields[before.length], d)) he
    · exact .inl he
    · exact .inr (Prod.mk.inj he)
  · simp only [ItemPart, hzip] at he ⊢
    obtain he | he := mem_or_eq_of_mem_exchanged (a := (S.fields[before.length], d')) he
    · exact ⟨e, he⟩
    · obtain ⟨rfl, rfl⟩ := Prod.mk.inj he
      exact ⟨d', by simp⟩

/-- Whether members are admitted does not depend on the value of one that is for a field. -/
theorem Admits.exchange {before behind : List (Lexeme String × Draft)}
    (h : S.Admits (before ++ (.sound (S.key f), d) :: behind)) :
    S.Admits (before ++ (.sound (S.key f), d') :: behind) := by
  -- the member is moved to the front, where it is compared with all the others
  obtain ⟨hname, -, hnew, hrest⟩ := admits_cons.mp (h.perm List.perm_middle)
  have hd' : S.Admits ((.sound (S.key f), d') :: (before ++ behind)) := by
    refine admits_cons.mpr ⟨hname, fun hnone => ?_, hnew, hrest⟩
    -- it is for a field, so it is not one that would have to be skipped
    cases (S.field?_key f).symm.trans hnone
  exact hd'.perm List.perm_middle.symm

/-- **A record hinges on each of its members that is for a field.** -/
theorem hinges_member (before behind : List (Lexeme String × Draft)) (ending : Option Fault) :
    Hinges ((S.shape f).decode ref) (S.decode ref) 1 d d'
      (.object (before ++ (.sound (S.key f), d) :: behind) ending)
      (.object (before ++ (.sound (S.key f), d') :: behind) ending) := by
  rintro place room a ⟨hstands, hdecode⟩
  obtain ⟨inside, part, hinside, hparts, hfilled⟩ := decode_eq_ok.mp hdecode
  obtain ⟨left, rfl, hd, hback⟩ := hstands.member hinside
  cases hparts with
  | object hadmits =>
    -- the part for the field was decoded to its value, and a new one of this value serves as well
    have hpart : Exchanged f d d' _ _ := memberPart_exchanged before behind
    refine ⟨inside, left, S.get a f, rfl, ⟨hd, hfilled.given f d hpart.given⟩,
      fun h => ⟨hback d' h.stands, ?_⟩⟩
    exact decode_eq_ok.mpr ⟨inside, _, hinside, .object hadmits.exchange,
      hfilled.exchange hpart h.decoded⟩

/-- A record that is given as an array hinges on each of its items. -/
theorem hinges_item {before : List Draft} (hf : S.fields[before.length]? = some f)
    (behind : List Draft) (ending : Option Fault) :
    Hinges ((S.shape f).decode ref) (S.decode ref) 1 d d'
      (.array (before ++ d :: behind) ending) (.array (before ++ d' :: behind) ending) := by
  rintro place room a ⟨hstands, hdecode⟩
  obtain ⟨inside, part, hinside, hparts, hfilled⟩ := decode_eq_ok.mp hdecode
  obtain ⟨left, rfl, hd, hback⟩ := hstands.item hinside
  cases hparts with
  | array hlength =>
    have hpart : Exchanged f d d' _ _ := itemPart_exchanged hf behind
    have hlength' : (before ++ d' :: behind).length ≤ S.size := by simpa using hlength
    refine ⟨inside, left, S.get a f, rfl, ⟨hd, hfilled.given f d hpart.given⟩,
      fun h => ⟨hback d' h.stands, ?_⟩⟩
    exact decode_eq_ok.mpr ⟨inside, _, hinside, .array hlength',
      hfilled.exchange hpart h.decoded⟩

end Schema

/-! ### References to types -/

namespace TypeRef

variable {f : TypeInfo.schema.Field} {d d' : Draft}

/-- A member for a field is not the origin, so it is among those that are collected. -/
theorem mem_rest_of_perm {before behind rest : List (Lexeme String × Draft)} {origin : Draft}
    (hperm : (before ++ (.sound (TypeInfo.schema.key f), d) :: behind).Perm
      ((.sound originKey, origin) :: rest)) :
    (.sound (TypeInfo.schema.key f), d) ∈ rest := by
  have hmem := hperm.mem_iff.mp (List.mem_append_right before (List.mem_cons_self ..))
  refine (List.mem_cons.mp hmem).resolve_left fun h => ?_
  exact key_ne_originKey f (Lexeme.sound.inj (Prod.mk.inj h).1)

/-- **A reference hinges on each member that is for a field of its information.** The part is among
collected values, whatever the place of the reference. -/
theorem hinges_member (before behind : List (Lexeme String × Draft)) (ending : Option Fault) :
    Hinges ((TypeInfo.schema.shape f).decode decode) decode 1 d d'
      (.object (before ++ (.sound (TypeInfo.schema.key f), d) :: behind) ending)
      (.object (before ++ (.sound (TypeInfo.schema.key f), d') :: behind) ending) := by
  rintro place room t ⟨hstands, hdecode⟩
  rw [decode_eq] at hdecode
  obtain ⟨inside, origin, part, hinside, hparts, horigin, hfilled⟩ := decodeWith_eq_ok.mp hdecode
  obtain ⟨left, rfl, hd, hback⟩ := hstands.member hinside
  cases hparts with
  | @object _ rest _ hperm hkept hadmits =>
    have hmem : (.sound (TypeInfo.schema.key f), d) ∈ rest := mem_rest_of_perm hperm
    obtain ⟨before', behind', rfl⟩ := List.append_of_mem hmem
    have hpart : Schema.Exchanged f d d' _ _ := Schema.memberPart_exchanged before' behind'
    refine ⟨.collected, left, TypeInfo.schema.get t.info f, rfl,
      ⟨hd.collected_of_keep (hkept _ hmem).2, hfilled.given f d hpart.given⟩, fun h => ?_⟩
    -- the new part has been read in full, so that it can be kept where the old one was
    obtain ⟨hd', hkeep⟩ := hd.keep_of_collected h.stands
    -- the origin is given as before, and so are the others but for this one
    have hperm' : (before ++ (.sound (TypeInfo.schema.key f), d') :: behind).Perm
        ((.sound originKey, origin) :: before' ++
          (.sound (TypeInfo.schema.key f), d') :: behind') :=
      perm_exchanged hperm
    have hkept' : ∀ m ∈ before' ++ (.sound (TypeInfo.schema.key f), d') :: behind',
        IsCollected inside m :=
      forall_mem_exchanged hkept ⟨⟨_, rfl, key_ne_originKey f⟩, hkeep⟩
    refine ⟨hback d' hd', ?_⟩
    rw [decode_eq]
    exact decodeWith_eq_ok.mpr ⟨inside, origin, _, hinside,
      .object hperm' hkept' hadmits.exchange, horigin, hfilled.exchange hpart h.decoded⟩

/-- A reference that is given as an array hinges on each item behind its origin. -/
theorem hinges_item {before : List Draft}
    (hf : TypeInfo.schema.fields[before.length]? = some f) (origin : Draft) (behind : List Draft)
    (ending : Option Fault) :
    Hinges ((TypeInfo.schema.shape f).decode decode) decode 1 d d'
      (.array (origin :: before ++ d :: behind) ending)
      (.array (origin :: before ++ d' :: behind) ending) := by
  rintro place room t ⟨hstands, hdecode⟩
  rw [decode_eq] at hdecode
  obtain ⟨inside, origin, part, hinside, hparts, horigin, hfilled⟩ := decodeWith_eq_ok.mp hdecode
  obtain ⟨left, rfl, hd, hback⟩ := hstands.item hinside
  cases hparts with
  | array hkept hlength =>
    -- the origin is the first item, so the fields are one position behind
    have hpart : Schema.Exchanged f d d' _ _ := Schema.itemPart_exchanged hf behind
    refine ⟨.collected, left, TypeInfo.schema.get t.info f, rfl,
      ⟨hd.collected_of_keep (hkept d (by simp)), hfilled.given f d hpart.given⟩, fun h => ?_⟩
    obtain ⟨hd', hkeep⟩ := hd.keep_of_collected h.stands
    have hkept' : ∀ e ∈ before ++ d' :: behind, inside.keep e = .ok () :=
      forall_mem_exchanged hkept hkeep
    have hlength' : (before ++ d' :: behind).length ≤ TypeInfo.schema.size := by
      simpa using hlength
    refine ⟨hback d' hd', ?_⟩
    rw [decode_eq]
    exact decodeWith_eq_ok.mpr ⟨inside, origin, _, hinside,
      .array hkept' hlength', horigin, hfilled.exchange hpart h.decoded⟩

end TypeRef

/-! ### Parts, however deep -/

namespace Role

/-- **One part exchanged for another.** Decoding `d` as `r` comes to its part `e`, which is decoded
as `q` and has `level` arrays and objects around it; and `d'` is `d` with `e'` in place of `e`. -/
inductive Exchanged (q : Role) (e e' : Draft) : Nat → Role → Draft → Draft → Prop
  | here : Exchanged q e e' 0 q e e'
  | option {level : Nat} {s : Shape} {d d' : Draft} (h : Exchanged q e e' level (.value s) d d') :
      Exchanged q e e' level (.value (.optional s)) d d'
  | listItem {level : Nat} {s : Shape} {d d' : Draft} (before behind : List Draft)
      (ending : Option Fault) (h : Exchanged q e e' level (.value s) d d') :
      Exchanged q e e' (level + 1) (.value (.list s)) (.array (before ++ d :: behind) ending)
        (.array (before ++ d' :: behind) ending)
  | member {level : Nat} {r : Role} {layout : Layout} {entry : Entry} {d d' : Draft}
      (hr : r.layout? = some layout) (hentry : entry ∈ layout)
      (before behind : List (Lexeme String × Draft)) (ending : Option Fault)
      (h : Exchanged q e e' level (.value entry.shape) d d') :
      Exchanged q e e' (level + 1) r
        (.object (before ++ (.sound entry.name, d) :: behind) ending)
        (.object (before ++ (.sound entry.name, d') :: behind) ending)
  | item {level : Nat} {r : Role} {layout : Layout} {entry : Entry} {d d' : Draft}
      (hr : r.layout? = some layout) (before behind : List Draft)
      (hentry : layout[before.length]? = some entry) (ending : Option Fault)
      (h : Exchanged q e e' level (.value entry.shape) d d') :
      Exchanged q e e' (level + 1) r (.array (before ++ d :: behind) ending)
        (.array (before ++ d' :: behind) ending)

/-- **A part that decoding comes to**, and the role in which it is decoded. -/
def Visits (r : Role) (d : Draft) (q : Role) (e : Draft) : Prop :=
  ∃ level, Exchanged q e e level r d d

variable {q r : Role} {layout : Layout} {entry : Entry} {e e' d d' : Draft} {level : Nat}

/-! A record or a reference hinges on the values of its fields. The origin, the one entry of a
layout that is not decoded according to its shape, is left out. -/

/-- Every record and reference hinges on a member, unless it is a text. -/
theorem hinges_member (hr : r.layout? = some layout) (hentry : entry ∈ layout)
    (hshape : entry.shape ≠ .text) (before behind : List (Lexeme String × Draft))
    (ending : Option Fault) :
    Hinges (value entry.shape).decode r.decode 1 d d'
      (.object (before ++ (.sound entry.name, d) :: behind) ending)
      (.object (before ++ (.sound entry.name, d') :: behind) ending) := by
  revert hentry
  refine record_cases (p := fun decode layout => entry ∈ layout → Hinges _ decode 1 d d' _ _)
    ?_ (fun S hentry => ?_) hr
  · -- a reference: the member is its origin, which is a text, or for its information
    intro hentry
    obtain rfl | hentry := List.mem_cons.mp hentry
    · exact absurd rfl hshape
    · obtain ⟨f, rfl⟩ := Schema.mem_layout_iff.mp hentry
      exact TypeRef.hinges_member before behind ending
  · -- a record: the member is for one of its fields
    obtain ⟨f, rfl⟩ := Schema.mem_layout_iff.mp hentry
    exact Schema.hinges_member before behind ending

/-- Every record and reference hinges on an item, unless it is a text. -/
theorem hinges_item (hr : r.layout? = some layout) {before : List Draft}
    (hentry : layout[before.length]? = some entry) (hshape : entry.shape ≠ .text)
    (behind : List Draft) (ending : Option Fault) :
    Hinges (value entry.shape).decode r.decode 1 d d'
      (.array (before ++ d :: behind) ending) (.array (before ++ d' :: behind) ending) := by
  revert hentry
  refine record_cases
    (p := fun decode layout => layout[before.length]? = some entry → Hinges _ decode 1 d d' _ _)
    ?_ (fun S hentry => ?_) hr
  · -- a reference: the first item is its origin, those behind it are for its information
    intro hentry
    cases before with
    | nil =>
      obtain rfl := Option.some.inj hentry
      exact absurd rfl hshape
    | cons origin before =>
      obtain ⟨f, hf, rfl⟩ := Schema.getElem?_layout_eq_some_iff.mp hentry
      exact TypeRef.hinges_item hf origin behind ending
  · -- a record: the item is for the field at its position
    obtain ⟨f, hf, rfl⟩ := Schema.getElem?_layout_eq_some_iff.mp hentry
    exact Schema.hinges_item hf behind ending

/-- A part with fields is the whole, or a reference. -/
theorem Exchanged.whole_or_reference (h : Exchanged q e e' level r d d')
    (hq : q.layout? = some layout) :
    (level = 0 ∧ r = q ∧ d = e ∧ d' = e') ∨ q = .value .typeRef := by
  -- of the values of fields only references have fields themselves
  have hvalue {n : Nat} {s : Shape} {c c' : Draft}
      (h : (n = 0 ∧ value s = q ∧ c = e ∧ c' = e') ∨ q = .value .typeRef) :
      q = .value .typeRef := by
    obtain ⟨-, rfl, -⟩ | h := h
    · cases s with
      | typeRef => rfl
      | _ => cases hq
    · exact h
  induction h with
  | here => exact .inl ⟨rfl, rfl, rfl, rfl⟩
  | option _ ih | listItem _ _ _ _ ih | member _ _ _ _ _ _ ih | item _ _ _ _ _ _ ih =>
    exact .inr (hvalue ih)

/-- A draft with a part other than `null` is not `null`. -/
theorem Exchanged.ne_null (h : Exchanged q e e' level r d d') (he : e ≠ .leaf (.sound .null))
    (he' : e' ≠ .leaf (.sound .null)) :
    d ≠ .leaf (.sound .null) ∧ d' ≠ .leaf (.sound .null) := by
  induction h with
  | here => exact ⟨he, he'⟩
  | option _ ih => exact ih
  | _ => exact ⟨by rintro ⟨⟩, by rintro ⟨⟩⟩

/-- No part of a string has fields. -/
theorem Exchanged.shape_ne_text {s : Shape} (h : Exchanged q e e' level (.value s) d d')
    (hq : q.layout? = some layout) : s ≠ .text := by
  rintro rfl
  -- what has fields has a layout, and a string has none
  cases h with
  | here => cases hq
  | member hr => cases hr
  | item hr => cases hr

/-- **The whole hinges on every part that is a record or a reference**, however deep. -/
theorem Exchanged.hinges (h : Exchanged q e e' level r d d') (hq : q.layout? = some layout)
    (he : e ≠ .leaf (.sound .null)) (he' : e' ≠ .leaf (.sound .null)) :
    Hinges q.decode r.decode level e e' d d' := by
  -- one frame after the other, from the part outwards
  induction h with
  | here => exact .refl e e'
  | option h ih =>
    obtain ⟨hd, hd'⟩ := h.ne_null he he'
    exact ih.trans (Shape.hinges_option hd hd')
  | listItem before behind ending _ ih => exact ih.trans (Shape.hinges_item before behind ending)
  | member hr hentry before behind ending h ih =>
    exact ih.trans (hinges_member hr hentry (h.shape_ne_text hq) before behind ending)
  | item hr before behind hentry ending h ih =>
    exact ih.trans (hinges_item hr hentry (h.shape_ne_text hq) behind ending)

end Role

end Introspect

import Introspect.Proofs.Document.CutOff
import Introspect.Proofs.Document.Exchange
import Mathlib.Logic.Function.Basic

/-!
# All parts but one

Of a record that is accepted exchange the part for one field. Everything before it is accepted as
before, and asks nothing of it, so the outcome is that of the new part: its error if it is refused,
whatever the error is, and else the record with the new value.

* `Schema.set` — a record with another value in one field;
* `Schema.decode_member`, `Schema.decode_item` — the outcome for objects and for arrays;
* `decodeList_item_error` — the same error in an item of a list;
* `Draft.check_member_error`, `Draft.check_item_error` — and in a part that is only read in full.
-/

namespace Introspect

/-- An outcome that is changed has a value when it had one before. -/
theorem Decoded.map_eq_ok {α β : Type} {x : Decoded α} {f : α → β} {b : β} :
    x.map f = .ok b ↔ ∃ a, x = .ok a ∧ f a = b := by
  cases x <;> simp [Except.map]

/-! ### Records with one field changed -/

namespace Schema

variable {α : Type} {S : Schema α} {ref : RefDecoder} {place inside : Place} {f : S.Field}
  {d d' : Draft} {ending : Option Fault}

variable (S) in
/-- The record with another value in one of its fields. -/
def set (a : α) (f : S.Field) (v : (S.shape f).Value) : α :=
  S.build (Function.update (S.get a) f v)

@[simp] theorem get_set_self (a : α) (v : (S.shape f).Value) : S.get (S.set a f v) f = v := by
  rw [set, S.get_build, Function.update_self]

/-- In the other fields the record is as it was. -/
theorem get_set_of_ne (a : α) (v : (S.shape f).Value) {g : S.Field} (h : g ≠ f) :
    S.get (S.set a f v) g = S.get a g := by
  rw [set, S.get_build, Function.update_of_ne h]

/-- A record is filled with another value when the only part for its field is exchanged. -/
theorem Filled.set {part part' : S.Field → Draft → Prop} {a : α} {v : (S.shape f).Value}
    (h : S.Filled ref place part a) (hpart : Exchanged f d d' part part')
    (honly : ∀ e, part' f e → e = d') (hd' : (S.shape f).decode ref place d' = .ok v) :
    S.Filled ref place part' (S.set a f v) where
  given g e he := by
    -- at the field itself the only part is the new one; elsewhere the parts are the old ones
    by_cases hg : g = f
    · subst hg
      rw [honly e he, get_set_self]
      exact hd'
    · rw [get_set_of_ne a v hg]
      exact h.given g e ((hpart.new g e he).resolve_right fun hnew => hg hnew.1)
  absent g hg := by
    have habsent : ∀ e, ¬part g e := fun e he =>
      let ⟨e', he'⟩ := hpart.old g e he
      hg e' he'
    -- the field had a part, so it is not the one at hand
    have hne : g ≠ f := fun hgf => habsent d (hgf ▸ hpart.given)
    rw [get_set_of_ne a v hne]
    exact h.absent g habsent

/-! ### Objects -/

/-- Among admitted members one is the only part for its field. -/
theorem Admits.eq_of_memberPart {before behind : List (Lexeme String × Draft)} {e : Draft}
    (h : S.Admits (before ++ (.sound (S.key f), d) :: behind))
    (he : S.MemberPart (before ++ (.sound (S.key f), d) :: behind) f e) : e = d := by
  obtain ⟨-, -, hnew, -⟩ := admits_cons.mp (h.perm List.perm_middle)
  obtain ⟨k, hm, hf⟩ := he
  obtain hm | hm := List.mem_cons.mp (List.perm_middle.mem_iff.mp hm)
  · exact (Prod.mk.inj hm).2
  · -- another member for the field would have been a repeated one
    exact absurd (mem_present.mpr ⟨_, hm, hf⟩) (hnew f (S.field?_key f))

/-- The members before one that is accepted have been read, and none of them is for its field. -/
theorem exists_slots_of_decodeMembers {before behind : List (Lexeme String × Draft)}
    {slots slots' : S.Slots}
    (h : S.decodeMembers ref place slots (before ++ (.sound (S.key f), d) :: behind) =
      .ok slots') :
    ∃ found : S.Slots, found f = none ∧ ∀ rest,
      S.decodeMembers ref place slots (before ++ rest) =
        S.decodeMembers ref place found rest := by
  rw [decodeMembers_append] at h
  obtain ⟨found, hfound, h⟩ := Decoded.bind_eq_ok.mp h
  refine ⟨found, ?_, fun rest => by rw [decodeMembers_append, hfound, Decoded.ok_bind]⟩
  -- the member was for its field, and the slot of the field was free then
  obtain ⟨name, hname, hcases⟩ := decodeMembers_cons_eq_ok.mp h
  obtain rfl := Lexeme.sound.inj hname
  rw [S.field?_key] at hcases
  obtain ⟨hnone, -⟩ | ⟨g, -, hg, hslot, -⟩ := hcases
  · cases hnone
  · rwa [Option.some.inj hg]

/-- **The outcome for an object of which all members but one are right.** -/
theorem decode_member {before behind : List (Lexeme String × Draft)} {a : α}
    (h : S.decode ref place (.object (before ++ (.sound (S.key f), d) :: behind) ending) = .ok a)
    (hinside : place.enter = .ok inside) (d' : Draft) :
    S.decode ref place (.object (before ++ (.sound (S.key f), d') :: behind) ending) =
      ((S.shape f).decode ref inside d').map (S.set a f) := by
  -- a new part that is accepted fills the record; one that is refused ends the decoding
  cases hd' : (S.shape f).decode ref inside d' with
  | ok v =>
    obtain ⟨_, part, hinside', hparts, hfilled⟩ := decode_eq_ok.mp h
    obtain rfl := Except.ok.inj (hinside.symm.trans hinside')
    cases hparts with
    | object hadmits =>
      have hadmits' : S.Admits (before ++ (.sound (S.key f), d') :: behind) := hadmits.exchange
      exact decode_eq_ok.mpr ⟨inside, _, hinside, .object hadmits', hfilled.set
        (memberPart_exchanged before behind) (fun e => hadmits'.eq_of_memberPart) hd'⟩
  | error e =>
    rw [decode, hinside, Decoded.ok_bind, ofMembers] at h ⊢
    -- the members before are read as before, and leave the slot of the field free
    obtain ⟨slots, hslots, -⟩ := Decoded.bind_eq_ok.mp h
    obtain ⟨found, hfree, hfound⟩ := exists_slots_of_decodeMembers hslots
    rw [hfound]
    simp only [decodeMembers, Lexeme.read_sound, Decoded.ofFault_ok, Decoded.ok_bind,
      S.field?_key, hfree, Option.isSome_none, Bool.false_eq_true, if_false, hd',
      Decoded.error_bind]
    rfl

/-! ### Arrays -/

/-- An item that is refused ends the decoding of the items that were accepted before it. -/
theorem decodeFields_error {fs : List S.Field} {index : Nat} {slots : S.Slots}
    {before behind : List Draft} {found : S.Slots × List Draft} {e : DecodeError}
    (hf : fs[before.length]? = some f)
    (h : S.decodeFields ref place ending fs index slots (before ++ d :: behind) = .ok found)
    (hd' : (S.shape f).decode ref place d' = .error e) :
    S.decodeFields ref place ending fs index slots (before ++ d' :: behind) = .error e := by
  induction before generalizing fs index slots with
  | nil =>
    -- the new item meets the field at its position
    cases fs with
    | nil => cases hf
    | cons g fs =>
      obtain rfl := Option.some.inj hf
      rw [List.nil_append, decodeFields, hd', Decoded.error_bind]
  | cons c before ih =>
    cases fs with
    | nil => cases hf
    | cons g fs =>
      -- the item before is accepted as before, and the position moves on with it
      rw [List.cons_append, decodeFields] at h ⊢
      obtain ⟨v, hv, h⟩ := Decoded.bind_eq_ok.mp h
      rw [hv, Decoded.ok_bind]
      exact ih hf h

/-- Among the items of an array one is the only part for the field at its position. -/
theorem eq_of_itemPart {before behind : List Draft} {e : Draft}
    (hf : S.fields[before.length]? = some f) (he : S.ItemPart (before ++ d :: behind) f e) :
    e = d := by
  obtain ⟨i, hi, hpair⟩ := List.getElem_of_mem he
  rw [List.getElem_zip] at hpair
  obtain ⟨hfield, rfl⟩ := Prod.mk.inj hpair
  -- fields are not repeated, so the position is the same
  obtain ⟨hlength, hposition⟩ := List.getElem?_eq_some_iff.mp hf
  have hsame : i = before.length :=
    (S.nodup_fields.getElem_inj_iff).mp (hfield.trans hposition.symm)
  simp [hsame]

/-- **The outcome for an array of which all items but one are right.** -/
theorem decode_item {before behind : List Draft} {a : α}
    (hf : S.fields[before.length]? = some f)
    (h : S.decode ref place (.array (before ++ d :: behind) ending) = .ok a)
    (hinside : place.enter = .ok inside) (d' : Draft) :
    S.decode ref place (.array (before ++ d' :: behind) ending) =
      ((S.shape f).decode ref inside d').map (S.set a f) := by
  -- as for members
  cases hd' : (S.shape f).decode ref inside d' with
  | ok v =>
    obtain ⟨_, part, hinside', hparts, hfilled⟩ := decode_eq_ok.mp h
    obtain rfl := Except.ok.inj (hinside.symm.trans hinside')
    cases hparts with
    | array hlength =>
      have hpart : Exchanged f d d' _ _ := itemPart_exchanged hf behind
      have hlength' : (before ++ d' :: behind).length ≤ S.size := by simpa using hlength
      exact decode_eq_ok.mpr ⟨inside, _, hinside, .array hlength', hfilled.set hpart
        (fun e => eq_of_itemPart hf) hd'⟩
  | error e =>
    rw [decode, hinside, Decoded.ok_bind, ofItems] at h ⊢
    obtain ⟨found, hfound, -⟩ := Decoded.bind_eq_ok.mp h
    rw [decodeFields_error hf hfound hd']
    rfl

end Schema

/-! ### Lists -/

/-- An item that is refused ends the decoding of a list. -/
theorem decodeList_item_error {α : Type} {decode : Place → Draft → Decoded α}
    {place inside : Place} {before behind : List Draft} {d d' : Draft} {ending : Option Fault}
    {xs : List α} {e : DecodeError}
    (h : decodeList decode place (.array (before ++ d :: behind) ending) = .ok xs)
    (hinside : place.enter = .ok inside) (hd' : decode inside d' = .error e) :
    decodeList decode place (.array (before ++ d' :: behind) ending) = .error e := by
  -- the items before were decoded, and the new one is met next
  rw [decodeList, hinside, Decoded.ok_bind, decodeItems_append] at h ⊢
  obtain ⟨items, hitems, -⟩ := Decoded.bind_eq_ok.mp h
  obtain ⟨done, hdone, -⟩ := Decoded.bind_eq_ok.mp hitems
  rw [hdone, Decoded.ok_bind, decodeItems, hd']
  rfl

/-! ### Reading in full -/

namespace Draft

variable {room : Nat} {ending : Option Fault} {fault : Fault}

/-- An item that cannot be read in full is the fault of the array, if the items before it can. -/
theorem check_item_error {before behind rest : List Draft} {d : Draft}
    (h : check (room + 1) (.array (before ++ rest) ending) = .ok ())
    (hd : check room d = .error fault) :
    check (room + 1) (.array (before ++ d :: behind) ending) = .error fault := by
  have hbefore : checkItems room before = .ok () := by
    obtain ⟨hitems, -⟩ := check_array_eq_ok.mp h
    exact checkItems_eq_ok.mpr (List.forall_mem_append.mp (checkItems_eq_ok.mp hitems)).1
  rw [check, checkItems_append, hbefore]
  show ((checkItems room (d :: behind)) >>= _) = _
  rw [checkItems, hd]
  rfl

/-- A member that cannot be read in full is the fault of the object, if the members before it can.
-/
theorem check_member_error {before behind rest : List (Lexeme String × Draft)} {name : String}
    {d : Draft} (h : check (room + 1) (.object (before ++ rest) ending) = .ok ())
    (hd : check room d = .error fault) :
    check (room + 1) (.object (before ++ (.sound name, d) :: behind) ending) = .error fault := by
  have hbefore : checkMembers room before = .ok () := by
    obtain ⟨hmembers, -⟩ := check_object_eq_ok.mp h
    exact checkMembers_eq_ok.mpr (List.forall_mem_append.mp (checkMembers_eq_ok.mp hmembers)).1
  rw [check, checkMembers_append, hbefore]
  show ((checkMembers room ((.sound name, d) :: behind)) >>= _) = _
  rw [checkMembers, Lexeme.read_sound, hd]
  rfl

end Draft

end Introspect

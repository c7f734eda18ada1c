import Introspect.Proofs.Document.FieldsOnce
import Introspect.Proofs.Document.OnePart

/-!
# Unknown names and the limit of nesting

A member of an unknown name is passed over in a record, and passing over knows no limit. A reference
collects it with its other members, so there it counts like them: with more than 127 arrays and
objects around its deepest part the text is malformed, wherever the reference stands, because
nothing before that part was wrong.

* `Breaks`, `Transmits` — a draft that cannot be read in its place, and a whole that cannot be read
  any more when one of its parts cannot; `Transmits.trans` — parts of parts;
* `Shape.transmits_option`, `Shape.transmits_item`, `Schema.transmits_member`,
  `Schema.transmits_item`, `TypeRef.transmits_member`, `TypeRef.transmits_item` — for each way in
  which one thing is decoded as a part of another;
* `Role.Exchanged.transmits` — the whole transmits the faults of every record and reference in it;
* `Kind.read_of_unknown_member` — what becomes of a text with one more member.
-/

namespace Introspect

/-! ### Parts that cannot be read -/

section Transmits

variable {α β γ : Type}

/-- **A draft that cannot be read in its place**, which has room for so many arrays and objects: a
fault ends its decoding in a stream, and if it is collected, reading it in full. -/
inductive Breaks (decode : Place → Draft → Decoded α) (fault : Fault) (room : Nat) (d : Draft) :
    Place → Prop
  | stream (h : decode (.stream room) d = .error (.fault fault)) :
      Breaks decode fault room d (.stream room)
  | collected (h : d.check room = .error fault) : Breaks decode fault room d .collected

/-- **A whole that transmits the faults of a part**, which has `level` arrays and objects around it.
Where the whole `d` is accepted, its part `e` is; and if `e'` cannot be read there, then neither can
`d'`, which has it in place of `e`, for the same fault. -/
def Transmits (fault : Fault) (part : Place → Draft → Decoded α) (whole : Place → Draft → Decoded β)
    (level : Nat) (e e' d d' : Draft) : Prop :=
  ∀ ⦃place room x⦄, Accepts whole place room d x → ∃ inside left y, room = left + level ∧
    Accepts part inside left e y ∧
      (Breaks part fault left e' inside → Breaks whole fault room d' place)

variable {fault : Fault} {part : Place → Draft → Decoded α} {whole : Place → Draft → Decoded β}

/-- A part of itself. -/
theorem Transmits.refl (e e' : Draft) : Transmits fault part part 0 e e' e e' :=
  fun place room x h => ⟨place, room, x, rfl, h, id⟩

/-- **A part of a part is a part of the whole.** -/
theorem Transmits.trans {middle : Place → Draft → Decoded γ} {level level' : Nat}
    {e e' c c' d d' : Draft} (h : Transmits fault part middle level e e' c c')
    (h' : Transmits fault middle whole level' c c' d d') :
    Transmits fault part whole (level + level') e e' d d' := by
  intro place room x hd
  -- the fault goes from the part to the part around it, and from there to the whole
  obtain ⟨inside, left, y, rfl, hc, hbreaks⟩ := h' hd
  obtain ⟨inside', left', z, rfl, he, hbreaks'⟩ := h hc
  exact ⟨inside', left', z, Nat.add_assoc .., he, fun he' => hbreaks (hbreaks' he')⟩

/-! ### Arrays and objects -/

variable {place inside : Place} {left : Nat} {d' : Draft} {ending : Option Fault}

/-- An array that reports what is wrong with an item cannot be read if the item cannot. -/
theorem Draft.Stands.breaks_item {before rest behind : List Draft}
    (h : (array (before ++ rest) ending).Stands (left + 1) place)
    (hinside : place.enter = .ok inside)
    (hwhole : ∀ e, part inside d' = .error e →
      whole place (array (before ++ d' :: behind) ending) = .error e)
    (hd' : Breaks part fault left d' inside) :
    Breaks whole fault (left + 1) (array (before ++ d' :: behind) ending) place := by
  cases h with
  | stream =>
    -- in a stream the item is decoded inside the array; if the array is collected, so is the item
    cases hinside
    cases hd' with
    | stream hd' => exact .stream (hwhole _ hd')
  | collected hcheck =>
    cases hinside
    cases hd' with
    | collected hd' => exact .collected (check_item_error hcheck hd')

/-- The same for a member of an object. -/
theorem Draft.Stands.breaks_member {before rest behind : List (Lexeme String × Draft)}
    {name : String} (h : (object (before ++ rest) ending).Stands (left + 1) place)
    (hinside : place.enter = .ok inside)
    (hwhole : ∀ e, part inside d' = .error e →
      whole place (object (before ++ (.sound name, d') :: behind) ending) = .error e)
    (hd' : Breaks part fault left d' inside) :
    Breaks whole fault (left + 1) (object (before ++ (.sound name, d') :: behind) ending)
      place := by
  cases h with
  | stream =>
    cases hinside
    cases hd' with
    | stream hd' => exact .stream (hwhole _ hd')
  | collected hcheck =>
    cases hinside
    cases hd' with
    | collected hd' => exact .collected (check_member_error hcheck hd')

end Transmits

/-! ### Values of a shape -/

/-- What is wrong with an optional value is wrong with it where it is optional. -/
theorem decodeOption_error {α : Type} {decode : Draft → Decoded α} {d : Draft} {e : DecodeError}
    (hd : d ≠ .leaf (.sound .null)) (h : decode d = .error e) :
    decodeOption decode d = .error e := by
  unfold decodeOption
  split
  · exact absurd rfl hd
  · rw [h]
    rfl

namespace Shape

variable {s : Shape} {d d' : Draft} {fault : Fault}

/-- An optional value transmits the faults of its value, without a level between them. -/
theorem transmits_option (hd : d ≠ .leaf (.sound .null)) (hd' : d' ≠ .leaf (.sound .null)) :
    Transmits fault (s.decode TypeRef.decode) ((optional s).decode TypeRef.decode) 0 d d' d d' := by
  rintro place room o ⟨hstands, ho⟩
  -- the whole cannot be null, as the part is not
  obtain ⟨hnull, -⟩ | ⟨-, x, hx, rfl⟩ := decodeOption_eq_ok.mp ho
  · exact absurd hnull hd
  · refine ⟨place, room, x, rfl, ⟨hstands, hx⟩, ?_⟩
    -- a fault in the stream is passed on, and collecting looks at the value itself
    rintro (h | hcheck)
    · exact .stream (decodeOption_error hd' h)
    · exact .collected hcheck

/-- **A list transmits the faults of its items.** -/
theorem transmits_item (before behind : List Draft) (ending : Option Fault) :
    Transmits fault (s.decode TypeRef.decode) ((list s).decode TypeRef.decode) 1 d d'
      (.array (before ++ d :: behind) ending) (.array (before ++ d' :: behind) ending) := by
  rintro place room xs ⟨hstands, hdecode⟩
  obtain ⟨items, inside, hitems, hinside, hxs⟩ := decodeList_eq_ok.mp hdecode
  obtain ⟨rfl, rfl⟩ := Draft.array.inj hitems
  obtain ⟨left, rfl, hd, -⟩ := hstands.item hinside
  -- the item was accepted with the others before it
  obtain ⟨x, hx, -⟩ := forall₂_exchanged hxs
  exact ⟨inside, left, x, rfl, ⟨hd, hx⟩,
    hstands.breaks_item hinside fun e he => decodeList_item_error hdecode hinside he⟩

end Shape

/-! ### Records -/

namespace Schema

variable {α : Type} {S : Schema α} {ref : RefDecoder} {f : S.Field} {d d' : Draft} {fault : Fault}

/-- **A record transmits the faults of a member.** -/
theorem transmits_member (before behind : List (Lexeme String × Draft)) (ending : Option Fault) :
    Transmits fault ((S.shape f).decode ref) (S.decode ref) 1 d d'
      (.object (before ++ (.sound (S.key f), d) :: behind) ending)
      (.object (before ++ (.sound (S.key f), d') :: behind) ending) := by
  rintro place room a ⟨hstands, hdecode⟩
  obtain ⟨inside, -, hinside, -⟩ := decode_eq_ok.mp hdecode
  obtain ⟨left, rfl, hd, -⟩ := hstands.member hinside
  -- whatever is put in the place of the member, the outcome is that of the member
  have houtcome (c : Draft) := decode_member hdecode hinside c
  obtain ⟨v, hv, -⟩ := Decoded.map_eq_ok.mp ((houtcome d).symm.trans hdecode)
  refine ⟨inside, left, v, rfl, ⟨hd, hv⟩, hstands.breaks_member hinside fun e he => ?_⟩
  rw [houtcome, he]
  rfl

/-- A record that is given as an array transmits the faults of an item. -/
theorem transmits_item {before : List Draft} (hf : S.fields[before.length]? = some f)
    (behind : List Draft) (ending : Option Fault) :
    Transmits fault ((S.shape f).decode ref) (S.decode ref) 1 d d'
      (.array (before ++ d :: behind) ending) (.array (before ++ d' :: behind) ending) := by
  rintro place room a ⟨hstands, hdecode⟩
  obtain ⟨inside, -, hinside, -⟩ := decode_eq_ok.mp hdecode
  obtain ⟨left, rfl, hd, -⟩ := hstands.item hinside
  have houtcome (c : Draft) := decode_item hf hdecode hinside c
  obtain ⟨v, hv, -⟩ := Decoded.map_eq_ok.mp ((houtcome d).symm.trans hdecode)
  refine ⟨inside, left, v, rfl, ⟨hd, hv⟩, hstands.breaks_item hinside fun e he => ?_⟩
  rw [houtcome, he]
  rfl

end Schema

/-! ### References to types -/

namespace TypeRef

variable {f : TypeInfo.schema.Field} {place : Place} {left : Nat} {ending : Option Fault}
  {d d' : Draft} {t : TypeRef} {fault : Fault}

/-- **A reference cannot be read if another member cannot be collected**, whatever its name, since
the members before it were collected as before. -/
theorem breaks_member {before rest behind : List (Lexeme String × Draft)} {name : String}
    (h : Accepts decode place (left + 1) (.object (before ++ rest) ending) t)
    (hname : name ≠ originKey) (hd' : d'.check left = .error fault) :
    Breaks decode fault (left + 1) (.object (before ++ (.sound name, d') :: behind) ending)
      place := by
  obtain ⟨hstands, hdecode⟩ := h
  cases hstands with
  -- where the reference itself is collected, so is the member
  | collected hcheck => exact .collected (Draft.check_member_error hcheck hd')
  | stream =>
    refine .stream ?_
    rw [decode_eq] at hdecode ⊢
    have hmembers : ofMembers decode (.stream left) (before ++ rest) ending = .ok t := hdecode
    -- the members before were collected, and the fault of the new one is met right behind them
    obtain ⟨found, hfound, -⟩ := Decoded.bind_eq_ok.mp hmembers
    rw [collect_append] at hfound
    obtain ⟨done, hdone, -⟩ := Decoded.bind_eq_ok.mp hfound
    show ofMembers decode (.stream left) (before ++ (.sound name, d') :: behind) ending = _
    rw [ofMembers, collect_append, hdone]
    simp only [Decoded.ok_bind, collect, Lexeme.read_sound, Decoded.ofFault_ok, hname, if_false,
      Place.keep, hd', Decoded.ofFault_error, Decoded.error_bind]

/-- The same for an item behind the origin. -/
theorem breaks_item {origin : Draft} {before rest behind : List Draft}
    (h : Accepts decode place (left + 1) (.array (origin :: before ++ rest) ending) t)
    (hd' : d'.check left = .error fault) :
    Breaks decode fault (left + 1) (.array (origin :: before ++ d' :: behind) ending) place := by
  obtain ⟨hstands, hdecode⟩ := h
  cases hstands with
  | collected hcheck => exact .collected (Draft.check_item_error hcheck hd')
  | stream =>
    refine .stream ?_
    rw [decode_eq] at hdecode ⊢
    have hitems : ofItems decode (.stream left) ending (origin :: (before ++ rest)) = .ok t :=
      hdecode
    obtain ⟨-, _, _, hcons, ho, hkept, -⟩ := ofItems_eq_ok.mp hitems
    obtain ⟨rfl, rfl⟩ := List.cons.inj hcons
    -- the items before were collected, and the fault of the new one is met right behind them
    have hbefore := collectItems_eq_ok.mpr (List.forall_mem_append.mp hkept).1
    show ofItems decode (.stream left) ending (origin :: (before ++ d' :: behind)) = _
    rw [ofItems, ho, Decoded.ok_bind, collectItems_append, hbefore]
    simp only [Decoded.ok_bind, collectItems, Place.keep, hd', Decoded.ofFault_error,
      Decoded.error_bind]

/-- **A reference transmits the faults of a member**, which is among collected values, since the
information of a reference is. -/
theorem transmits_member (before behind : List (Lexeme String × Draft)) (ending : Option Fault) :
    Transmits fault ((TypeInfo.schema.shape f).decode decode) decode 1 d d'
      (.object (before ++ (.sound (TypeInfo.schema.key f), d) :: behind) ending)
      (.object (before ++ (.sound (TypeInfo.schema.key f), d') :: behind) ending) := by
  rintro place room t h
  have hdecode := h.decoded
  rw [decode_eq] at hdecode
  obtain ⟨inside, origin, part, hinside, hparts, -, hfilled⟩ := decodeWith_eq_ok.mp hdecode
  obtain ⟨left, rfl, hd, -⟩ := h.stands.member hinside
  cases hparts with
  | @object _ rest _ hperm hkept _ =>
    have hmem : (.sound (TypeInfo.schema.key f), d) ∈ rest := mem_rest_of_perm hperm
    have hv := hfilled.given f d ⟨_, hmem, TypeInfo.schema.field?_key f⟩
    refine ⟨.collected, left, _, rfl, ⟨hd.collected_of_keep (hkept _ hmem).2, hv⟩, ?_⟩
    -- what is collected is not in a stream, so the fault is met when it is read in full
    rintro (_ | hd')
    exact breaks_member h (key_ne_originKey f) hd'

/-- A reference that is given as an array transmits the faults of an item. -/
theorem transmits_item {before : List Draft}
    (hf : TypeInfo.schema.fields[before.length]? = some f) (origin : Draft) (behind : List Draft)
    (ending : Option Fault) :
    Transmits fault ((TypeInfo.schema.shape f).decode decode) decode 1 d d'
      (.array (origin :: before ++ d :: behind) ending)
      (.array (origin :: before ++ d' :: behind) ending) := by
  rintro place room t h
  have hdecode := h.decoded
  rw [decode_eq] at hdecode
  obtain ⟨inside, _, part, hinside, hparts, -, hfilled⟩ := decodeWith_eq_ok.mp hdecode
  obtain ⟨left, rfl, hd, -⟩ := h.stands.item hinside
  cases hparts with
  | array hkept _ =>
    have hpart : Schema.Exchanged f d d' _ _ := Schema.itemPart_exchanged hf behind
    have hv := hfilled.given f d hpart.given
    refine ⟨.collected, left, _, rfl, ⟨hd.collected_of_keep (hkept d (by simp)), hv⟩, ?_⟩
    rintro (_ | hd')
    exact breaks_item h hd'

end TypeRef

/-! ### Parts, however deep -/

namespace Role

variable {q r : Role} {layout : Layout} {entry : Entry} {e e' d d' : Draft} {level : Nat}
  {fault : Fault}

/-- Every record and reference transmits the faults of a member, unless the member is a text. -/
theorem transmits_member (hr : r.layout? = some layout) (hentry : entry ∈ layout)
    (hshape : entry.shape ≠ .text) (before behind : List (Lexeme String × Draft))
    (ending : Option Fault) :
    Transmits fault (value entry.shape).decode r.decode 1 d d'
      (.object (before ++ (.sound entry.name, d) :: behind) ending)
      (.object (before ++ (.sound entry.name, d') :: behind) ending) := by
  revert hentry
  refine record_cases
    (p := fun decode layout => entry ∈ layout → Transmits fault _ decode 1 d d' _ _)
    ?_ (fun S hentry => ?_) hr
  · -- a reference: the member is its origin, which is a text, or one of its information
    intro hentry
    obtain rfl | hentry := List.mem_cons.mp hentry
    · exact absurd rfl hshape
    · obtain ⟨f, rfl⟩ := Schema.mem_layout_iff.mp hentry
      exact TypeRef.transmits_member before behind ending
  · -- a record: the member is for one of its fields
    obtain ⟨f, rfl⟩ := Schema.mem_layout_iff.mp hentry
    exact Schema.transmits_member before behind ending

/-- Every record and reference transmits the faults of an item, unless the item is a text. -/
theorem transmits_item (hr : r.layout? = some layout) {before : List Draft}
    (hentry : layout[before.length]? = some entry) (hshape : entry.shape ≠ .text)
    (behind : List Draft) (ending : Option Fault) :
    Transmits fault (value entry.shape).decode r.decode 1 d d'
      (.array (before ++ d :: behind) ending) (.array (before ++ d' :: behind) ending) := by
  revert hentry
  refine record_cases
    (p := fun decode layout =>
      layout[before.length]? = some entry → Transmits fault _ decode 1 d d' _ _)
    ?_ (fun S hentry => ?_) hr
  · -- a reference: the first item is its origin, those behind it are of its information
    intro hentry
    cases before with
    | nil =>
      obtain rfl := Option.some.inj hentry
      exact absurd rfl hshape
    | cons origin before =>
      obtain ⟨f, hf, rfl⟩ := Schema.getElem?_layout_eq_some_iff.mp hentry
      exact TypeRef.transmits_item hf origin behind ending
  · -- a record: the item is for the field at its position
    obtain ⟨f, hf, rfl⟩ := Schema.getElem?_layout_eq_some_iff.mp hentry
    exact Schema.transmits_item hf behind ending

/-- **The whole transmits the faults of every part that is a record or a reference**, however
deep. -/
theorem Exchanged.transmits (h : Exchanged q e e' level r d d') (hq : q.layout? = some layout)
    (he : e ≠ .leaf (.sound .null)) (he' : e' ≠ .leaf (.sound .null)) :
    Transmits fault q.decode r.decode level e e' d d' := by
  -- one frame after the other, as for `Exchanged.hinges`
  induction h with
  | here => exact .refl e e'
  | option h ih =>
    obtain ⟨hd, hd'⟩ := h.ne_null he he'
    -- an optional value may not become null on either side
    exact ih.trans (Shape.transmits_option hd hd')
  | listItem before behind ending _ ih =>
    exact ih.trans (Shape.transmits_item before behind ending)
  | member hr hentry before behind ending h ih =>
    exact ih.trans (transmits_member hr hentry (h.shape_ne_text hq) before behind ending)
  | item hr before behind hentry ending h ih =>
    exact ih.trans (transmits_item hr hentry (h.shape_ne_text hq) behind ending)

/-- **Is a reference to a type decoded?** -/
def isReference : Role → Bool
  | value .typeRef | descriptor .typeRef => true
  | _ => false

/-- References are what has an origin among its fields. -/
theorem originKey_mem_names_iff (hq : q.layout? = some layout) :
    TypeRef.originKey ∈ layout.names ↔ q.isReference = true := by
  cases q with
  -- only references have an origin in their layout, so the roles can be gone through
  | value s =>
    cases s with
    | typeRef => cases hq; decide
    | _ => cases hq
  | descriptor k => cases k <;> cases hq <;> decide

/-- What holds of the decoder of references holds of every role of theirs. -/
theorem reference_cases {p : {α : Type} → (Place → Draft → Decoded α) → Prop}
    (reference : p TypeRef.decode) (hq : q.isReference = true) : p q.decode := by
  cases q with
  | value s =>
    cases s with
    | typeRef => exact reference
    | _ => cases hq
  | descriptor k =>
    cases k with
    | typeRef => exact reference
    | _ => cases hq

/-- An object is accepted only where there is room for one. -/
theorem room_pos_of_accepts (hq : q.layout? = some layout) {place : Place} {room : Nat}
    {ms : List (Lexeme String × Draft)} {ending : Option Fault} {x : q.Value}
    (h : Accepts q.decode place room (.object ms ending) x) : 0 < room := by
  have hpos (inside : Place) (hstands : (Draft.object ms ending).Stands room place)
      (hinside : place.enter = .ok inside) : 0 < room := by
    obtain ⟨left, rfl, -⟩ := hstands.members hinside
    exact Nat.succ_pos left
  revert x
  refine record_cases
    (p := fun decode _ => ∀ {x}, Accepts decode place room (.object ms ending) x → 0 < room)
    (fun {t} h => ?_) (fun {α} S {a} h => ?_) hq
  · have hdecode := h.decoded
    rw [TypeRef.decode_eq] at hdecode
    obtain ⟨inside, -, -, hinside, -⟩ := TypeRef.decodeWith_eq_ok.mp hdecode
    exact hpos inside h.stands hinside
  · obtain ⟨inside, -, hinside, -⟩ := Schema.decode_eq_ok.mp h.decoded
    exact hpos inside h.stands hinside

end Role

/-! ### One more member -/

/-- **A reference cannot be read if a member of an unknown name does not fit into it.** -/
theorem Role.breaks_insert {q : Role} {layout : Layout} (hq : q.layout? = some layout)
    (hreference : q.isReference = true) {place : Place} {left : Nat}
    {before behind : List (Lexeme String × Draft)} {ending : Option Fault} {name : String}
    {v : Draft} {fault : Fault} (hname : name ∉ layout.names)
    (hv : v.check left = .error fault) {x : q.Value}
    (h : Accepts q.decode place (left + 1) (.object (before ++ behind) ending) x) :
    Breaks q.decode fault (left + 1) (.object (before ++ (.sound name, v) :: behind) ending)
      place := by
  -- the origin of a reference is among its names, so the new member is not one
  have horigin : name ≠ TypeRef.originKey := by
    rintro rfl
    exact hname ((originKey_mem_names_iff hq).mpr hreference)
  revert x
  exact reference_cases
    (p := fun decode => ∀ {x},
      Accepts decode place (left + 1) (.object (before ++ behind) ending) x →
        Breaks decode fault (left + 1) (.object (before ++ (.sound name, v) :: behind) ending)
          place)
    (fun h => TypeRef.breaks_member h horigin hv) hreference

namespace Kind

variable {k : Kind} {room level : Nat} {q : Role} {layout : Layout} {d d' : Draft}
  {before behind : List (Lexeme String × Draft)} {ending : Option Fault} {name : String}

/-- A member of an unknown name that does not fit into a reference is a fault of the whole. -/
theorem decode_of_unreadable_member {v : Json} {x : k.Value}
    (h : k.decode (.stream room) d = .ok x)
    (hinserted : Role.Exchanged q (.object (before ++ behind) ending)
      (.object (before ++ (.sound name, Draft.ofJson v) :: behind) ending) level (.descriptor k)
      d d')
    (hq : q.layout? = some layout) (hreference : q.isReference = true)
    (hname : name ∉ layout.names) (hdeep : room < level + 1 + v.depth) :
    k.decode (.stream room) d' = .error (.fault .malformed) := by
  have htransmits : Transmits .malformed q.decode k.decode level _ _ d d' :=
    hinserted.transmits hq (by rintro ⟨⟩) (by rintro ⟨⟩)
  -- the text was accepted with the old object, so the fault of the new one comes through
  obtain ⟨inside, left, y, rfl, he, hbreaks⟩ := htransmits ⟨.stream, h⟩
  obtain ⟨left, rfl⟩ := Nat.exists_eq_add_one.mpr (Role.room_pos_of_accepts hq he)
  -- what does not fit into the room that is left is malformed
  have hv : (Draft.ofJson v).check left = .error .malformed := by
    rw [Draft.check_ofJson, if_neg]
    omega
  cases hbreaks (Role.breaks_insert hq hreference hname hv he) with
  | stream hd' => exact hd'

/-- **One more member of an unknown name, with any value**, in an object that decoding comes to: at
nesting level `level + 1`, the outermost object being at level 1. A reference takes the value if its
deepest part is within the limit, and is malformed otherwise; a record takes it however deep it
is. -/
theorem read_of_unknown_member {text text' : String} {x : k.Value} {v : Json}
    (h : k.read text = .ok x) (hd : Draft.Denoted text d) (hd' : Draft.Denoted text' d')
    (hinserted : Role.Exchanged q (.object (before ++ behind) ending)
      (.object (before ++ (.sound name, Draft.ofJson v) :: behind) ending) level (.descriptor k)
      d d')
    (hq : q.layout? = some layout) (hname : name ∉ layout.names) :
    k.read text' =
      if q.isReference = true ∧ nestingLimit < level + 1 + v.depth then
        .error (.fault .malformed)
      else .ok x := by
  rw [read_of_wellFormed k hd] at h
  rw [read_of_wellFormed k hd']
  split
  · -- a reference that is not deep enough inside the limit
    next hdeep => exact decode_of_unreadable_member h hinserted hq hdeep.1 hname hdeep.2
  · next hfits =>
    refine decode_of_extended h (.member before behind ending hinserted hq hname
      (Draft.skip_ofJson v) fun horigin => ?_)
    -- a reference reads it in full, so there it has to fit
    have hreference := (Role.originKey_mem_names_iff hq).mp horigin
    have hfits : level + 1 + v.depth ≤ nestingLimit :=
      Nat.not_lt.mp fun hdeep => hfits ⟨hreference, hdeep⟩
    rw [Draft.check_ofJson, if_pos]
    omega

end Kind

/-- So many arrays inside one another, the innermost around `null`. -/
def Json.nested : Nat → Json
  | 0 => .null
  | n + 1 => .array [nested n]

theorem Json.depth_nested (n : Nat) : (nested n).depth = n := by
  induction n with
  | zero => rfl
  | succ n ih => rw [nested, depth, depthItems, depthItems, ih, Nat.max_zero]

theorem Json.hasNaturals_nested (n : Nat) : (nested n).HasNaturals := by
  induction n with
  | zero => trivial
  | succ n ih => exact ⟨ih, trivial⟩

/-- A variable whose type has one more member, with as many arrays in it as fit and with one more;
and a variable with a member of its own that has 127 arrays in it, 128 levels in all, which are not
too many there. -/
theorem Kind.read_of_unknown_member_nested :
    ∃ x,
      scriptVariable.read
        "\x7b\"name\":\"v\",\"type\":\x7b\"origin\":\"native\",\"name\":\"A\"\x7d\x7d" = .ok x ∧
      scriptVariable.read (Json.object [("name", .string "v"), ("type", .object
        [("origin", .string "native"), ("name", .string "A"), ("x", .nested 125)])]).text = .ok x ∧
      scriptVariable.read (Json.object [("name", .string "v"), ("type", .object
        [("origin", .string "native"), ("name", .string "A"), ("x", .nested 126)])]).text =
          .error (.fault .malformed) ∧
      scriptVariable.read (Json.object [("x", .nested 127), ("name", .string "v"), ("type", .object
        [("origin", .string "native"), ("name", .string "A")])]).text = .ok x := by
  let members : List (String × Json) := [("origin", .string "native"), ("name", .string "A")]
  let i : Json := .object [("name", .string "v"), ("type", .object members)]
  let inType (n : Nat) : Json :=
    .object [("name", .string "v"), ("type", .object (members ++ [("x", .nested n)]))]
  let outside (n : Nat) : Json :=
    .object [("x", .nested n), ("name", .string "v"), ("type", .object members)]
  -- the two ways to insert the member: into the type, and into the variable itself
  have hi : i.text =
      "\x7b\"name\":\"v\",\"type\":\x7b\"origin\":\"native\",\"name\":\"A\"\x7d\x7d" := by
    decide +kernel
  have hdi : Json.Denoted i.text i :=
    Json.denoted_text (by simp [i, members, Json.HasNaturals, Json.MembersHaveNaturals])
  have hdtype (n : Nat) : Json.Denoted (inType n).text (inType n) :=
    Json.denoted_text (by
      simp [inType, members, Json.HasNaturals, Json.MembersHaveNaturals, Json.hasNaturals_nested])
  have hdoutside (n : Nat) : Json.Denoted (outside n).text (outside n) :=
    Json.denoted_text (by
      simp [outside, members, Json.HasNaturals, Json.MembersHaveNaturals, Json.hasNaturals_nested])
  -- the type is optional, so it stands behind a frame without a level of its own
  have htype : (⟨"type", .optional .typeRef, false⟩ : Entry) ∈ ScriptVariable.schema.layout := by
    decide
  have hread : scriptVariable.read i.text =
      .ok ⟨"v", ∅, some ⟨.native, ⟨"A", none, false, ∅, none, []⟩⟩⟩ :=
    Decoded.eq_ok_of_toOption (by decide +kernel)
  have hintype (n : Nat) : Role.Exchanged (.value .typeRef)
      (.object (Draft.ofMembers members ++ []) none)
      (.object (Draft.ofMembers members ++ [(.sound "x", Draft.ofJson (.nested n))]) none) 1
      (.descriptor .scriptVariable) (Draft.ofJson i) (Draft.ofJson (inType n)) :=
    .member rfl htype [(.sound "name", _)] [] none (.option .here)
  have houtside (n : Nat) : Role.Exchanged (.descriptor .scriptVariable)
      (.object ([] ++ Draft.ofMembers i.members) none)
      (.object ([] ++ (.sound "x", Draft.ofJson (.nested n)) :: Draft.ofMembers i.members) none) 0
      (.descriptor .scriptVariable) (Draft.ofJson i) (Draft.ofJson (outside n)) :=
    .here
  -- inside the type the member starts at level 2, and in the variable at level 1
  have hfits (n : Nat) := read_of_unknown_member hread hdi.ofJson (hdtype n).ofJson (hintype n) rfl
    (by decide)
  have hskipped (n : Nat) := read_of_unknown_member hread hdi.ofJson (hdoutside n).ofJson
    (houtside n) rfl (by decide)
  simp only [Json.depth_nested] at hfits hskipped
  exact ⟨_, hi ▸ hread, hfits 125, hfits 126, hskipped 127⟩

end Introspect

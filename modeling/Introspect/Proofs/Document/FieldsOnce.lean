import Introspect.Proofs.Document.Accepted.Text
import Introspect.Proofs.Document.Exchange
import Mathlib.Logic.Relation

/-!
# No field is given twice

Which of two members with the same name counts is a question that an accepted text never raises for
a field: it has no second member for one, in whatever object that decoding comes to, not even in the
references, whose members are collected before they are looked at. Names that are not those of
fields raise no question either. They may come as often as they like, since nothing depends on them.

* `Schema.nodup_fieldNames_of_decode`, `TypeRef.nodup_fieldNames_of_decode` — an accepted object has
  each field at most once; `Role.FieldsOnce`, `Role.fieldsOnce_of_decode` — so has every object
  inside it;
* `Role.Extended` — one more member of an unknown name, in one of these objects;
  `Kind.decode_of_extended` — it leaves the outcome as it is;
* `Kind.fieldsOnce_of_read` — both, for texts.
-/

namespace Introspect

/-! ### Fields of an accepted object -/

/-- An accepted record gives no field twice. -/
theorem Schema.nodup_fieldNames_of_decode {α : Type} {S : Schema α} {ref : RefDecoder}
    {place : Place} {ms : List (Lexeme String × Draft)} {ending : Option Fault} {a : α}
    (h : S.decode ref place (.object ms ending) = .ok a) : (S.layout.fieldNames ms).Nodup := by
  obtain ⟨_, _, -, hparts, -⟩ := decode_eq_ok.mp h
  cases hparts with
  | object hadmits => exact nodup_fieldNames_iff.mpr hadmits.once

namespace TypeRef

/-- The names of fields in a reference: its origin, and the fields of its information. -/
theorem fieldNames_cons_origin {place : Place} {origin : Draft}
    {ms : List (Lexeme String × Draft)} (h : ∀ m ∈ ms, IsCollected place m) :
    layout.fieldNames ((.sound originKey, origin) :: ms) =
      originKey :: TypeInfo.schema.layout.fieldNames ms := by
  have hms : layout.fieldNames ms = TypeInfo.schema.layout.fieldNames ms := by
    refine List.filterMap_congr fun m hm => ?_
    obtain ⟨⟨name, hname, hne⟩, -⟩ := h m hm
    -- no collected member has the name of the origin
    have hnames : name ∈ layout.names ↔ name ∈ TypeInfo.schema.layout.names :=
      List.mem_cons.trans (or_iff_right hne)
    rw [hname]
    show (some name).filter _ = (some name).filter _
    simp only [Option.filter_some, hnames]
  rw [← hms]
  rfl

/-- An accepted reference gives no field twice, its origin included. -/
theorem nodup_fieldNames_of_decode {place : Place} {ms : List (Lexeme String × Draft)}
    {ending : Option Fault} {t : TypeRef} (h : decode place (.object ms ending) = .ok t) :
    (layout.fieldNames ms).Nodup := by
  rw [decode_eq] at h
  obtain ⟨_, _, _, -, hparts, -, -⟩ := decodeWith_eq_ok.mp h
  cases hparts with
  | @object _ rest _ hperm hkept hadmits =>
    have horigin : originKey ∉ TypeInfo.schema.layout.names :=
      (List.nodup_cons.mp nodup_names).1
    rw [(Layout.fieldNames_perm hperm).nodup_iff, fieldNames_cons_origin hkept]
    exact List.nodup_cons.mpr ⟨fun hmem => horigin (Layout.mem_names_of_mem_fieldNames hmem),
      Schema.nodup_fieldNames_iff.mpr hadmits.once⟩

end TypeRef

namespace Role

/-- Whatever is accepted as a record or reference gives no field twice. -/
theorem nodup_fieldNames_of_decode {r : Role} {layout : Layout} (hr : r.layout? = some layout)
    {place : Place} {ms : List (Lexeme String × Draft)} {ending : Option Fault} {x : r.Value}
    (h : r.decode place (.object ms ending) = .ok x) : (layout.fieldNames ms).Nodup := by
  revert x
  exact record_cases
    (p := fun decode layout =>
      ∀ {x}, decode place (.object ms ending) = .ok x → (layout.fieldNames ms).Nodup)
    TypeRef.nodup_fieldNames_of_decode (fun _ => Schema.nodup_fieldNames_of_decode) hr

/-- **No field is given twice** in an object that decoding comes to. The names are compared as what
they stand for, however they are written. -/
def FieldsOnce (r : Role) (d : Draft) : Prop :=
  ∀ q ms ending layout, r.Visits d q (.object ms ending) → q.layout? = some layout →
    (layout.fieldNames ms).Nodup

/-- **What is accepted from a text gives no field twice.** -/
theorem fieldsOnce_of_decode {r : Role} {room : Nat} {d : Draft} {x : r.Value}
    (h : r.decode (.stream room) d = .ok x) : r.FieldsOnce d := by
  rintro q ms ending layout ⟨level, hvisit⟩ hq
  have hobject : Draft.object ms ending ≠ .leaf (.sound .null) := by
    rintro ⟨⟩
  -- the object has been accepted in its turn
  obtain ⟨_, _, y, -, hy, -⟩ := hvisit.hinges hq hobject hobject ⟨.stream, h⟩
  exact nodup_fieldNames_of_decode hq hy.decoded

end Role

/-! ### Unknown names -/

namespace Draft

variable {room : Nat} {place inside : Place} {before behind : List (Lexeme String × Draft)}
  {ending : Option Fault} {name : String} {v : Draft}

/-- A member can be added to an object; to one that was collected, if the value fits. -/
theorem Stands.insert (h : (object (before ++ behind) ending).Stands room place)
    (hv : place = .collected → v.check (room - 1) = .ok ()) :
    (object (before ++ (.sound name, v) :: behind) ending).Stands room place := by
  cases h with
  | stream => exact .stream
  -- what was collected has been read in full, and so has to be what is added to it
  | collected hcheck =>
    obtain ⟨left, rfl, -, hback⟩ := (Stands.collected hcheck).members rfl
    refine hback _ fun m hm => ?_
    obtain rfl | hm := List.mem_cons.mp (List.perm_middle.mem_iff.mp hm)
    · exact .inr ⟨⟨name, rfl⟩, .collected (hv rfl)⟩
    · exact .inl hm

/-- A value that fits into an object can be kept there. -/
theorem Stands.keep_inside (h : (object (before ++ behind) ending).Stands room place)
    (hinside : place.enter = .ok inside) (hv : v.check (room - 1) = .ok ()) :
    inside.keep v = .ok () := by
  cases h with
  -- in a stream it is read in full when it is kept; what was collected is kept as it is
  | stream =>
    cases room with
    | zero => cases hinside
    | succ left =>
      cases hinside
      exact Decoded.ofFault_eq_ok.mpr hv
  | collected _ =>
    cases hinside
    rfl

end Draft

namespace Schema

variable {α : Type} {S : Schema α} {ref : RefDecoder} {place : Place}
  {before behind : List (Lexeme String × Draft)} {ending : Option Fault} {name : String} {v : Draft}

/-- An unknown name is for no field. -/
theorem fieldOf?_eq_none (h : name ∉ S.layout.names) : S.fieldOf? (.sound name) = none := by
  refine Option.eq_none_iff_forall_not_mem.mpr fun f hf => h ?_
  exact mem_names_iff.mpr ⟨f, S.field?_eq_some_iff.mp hf⟩

/-- Members are still admitted with one of an unknown name, if it can be skipped. -/
theorem Admits.cons {ms : List (Lexeme String × Draft)} (h : S.Admits ms)
    (hname : name ∉ S.layout.names) (hv : v.skip = .ok ()) :
    S.Admits ((.sound name, v) :: ms) := by
  have hnone := fieldOf?_eq_none hname
  exact admits_cons.mpr ⟨⟨name, rfl⟩, fun _ => hv, by simp [hnone], h⟩

/-- A member of an unknown name is no part of a record. -/
theorem memberPart_cons {ms : List (Lexeme String × Draft)} (hname : name ∉ S.layout.names) :
    S.MemberPart ((.sound name, v) :: ms) = S.MemberPart ms := by
  funext f d
  refine propext ⟨?_, fun ⟨k, hm, hf⟩ => ⟨k, List.mem_cons_of_mem _ hm, hf⟩⟩
  rintro ⟨k, hm, hf⟩
  obtain hm | hm := List.mem_cons.mp hm
  · obtain ⟨rfl, rfl⟩ := Prod.mk.inj hm
    cases (fieldOf?_eq_none hname).symm.trans hf
  · exact ⟨k, hm, hf⟩

/-- **A record is not changed by a member of an unknown name**, if it can be skipped. -/
theorem decode_insert {a : α} (h : S.decode ref place (.object (before ++ behind) ending) = .ok a)
    (hname : name ∉ S.layout.names) (hv : v.skip = .ok ()) :
    S.decode ref place (.object (before ++ (.sound name, v) :: behind) ending) = .ok a := by
  obtain ⟨inside, part, hinside, hparts, hfilled⟩ := decode_eq_ok.mp h
  cases hparts with
  | object hadmits =>
    have hadmits' := (hadmits.cons hname hv).perm List.perm_middle.symm
    rw [← memberPart_cons (v := v) hname, ← memberPart_perm List.perm_middle] at hfilled
    exact decode_eq_ok.mpr ⟨inside, _, hinside, .object hadmits', hfilled⟩

end Schema

namespace TypeRef

/-- **A reference is not changed by a member of an unknown name**, if it can be kept. -/
theorem decode_insert {place : Place} {before behind : List (Lexeme String × Draft)}
    {ending : Option Fault} {name : String} {v : Draft} {t : TypeRef}
    (h : decode place (.object (before ++ behind) ending) = .ok t) (hname : name ∉ layout.names)
    (hv : v.skip = .ok ())
    (hkeep : ∀ inside, place.enter = .ok inside → inside.keep v = .ok ()) :
    decode place (.object (before ++ (.sound name, v) :: behind) ending) = .ok t := by
  -- an unknown name is that of no field, and not that of the origin either
  obtain ⟨horigin, hfield⟩ : name ≠ originKey ∧ name ∉ TypeInfo.schema.layout.names :=
    not_or.mp (mt List.mem_cons.mpr hname)
  rw [decode_eq] at h ⊢
  obtain ⟨inside, origin, part, hinside, hparts, ho, hfilled⟩ := decodeWith_eq_ok.mp h
  cases hparts with
  | @object _ rest _ hperm hkept hadmits =>
    -- it is collected with the others, as another member for no field
    have hperm' : (before ++ (.sound name, v) :: behind).Perm
        ((.sound originKey, origin) :: (.sound name, v) :: rest) :=
      List.perm_middle.trans ((hperm.cons _).trans (List.Perm.swap ..))
    have hkept' : ∀ m ∈ (.sound name, v) :: rest, IsCollected inside m :=
      List.forall_mem_cons.mpr ⟨⟨⟨name, rfl, horigin⟩, hkeep inside hinside⟩, hkept⟩
    rw [← Schema.memberPart_cons (v := v) hfield] at hfilled
    exact decodeWith_eq_ok.mpr ⟨inside, origin, _, hinside,
      .object hperm' hkept' (hadmits.cons hfield hv), ho, hfilled⟩

end TypeRef

namespace Role

/-- **One more member of an unknown name**, in an object that decoding comes to: one that is for no
field, whether or not its name is there already. A reference collects it, so there it has to be
readable in full, with the room that is left. -/
inductive Extended (room : Nat) (r : Role) (d d' : Draft) : Prop
  | member {q : Role} {layout : Layout} {level : Nat} {name : String} {v : Draft}
      (before behind : List (Lexeme String × Draft)) (ending : Option Fault)
      (h : Exchanged q (.object (before ++ behind) ending)
        (.object (before ++ (.sound name, v) :: behind) ending) level r d d')
      (hq : q.layout? = some layout) (hname : name ∉ layout.names) (hskip : v.skip = .ok ())
      (hcheck : TypeRef.originKey ∈ layout.names → v.check (room - (level + 1)) = .ok ())

/-- A member of an unknown name does not matter to the object that it is added to. -/
theorem accepts_insert {q : Role} {layout : Layout} (hq : q.layout? = some layout) {place : Place}
    {room : Nat} {before behind : List (Lexeme String × Draft)} {ending : Option Fault}
    {name : String} {v : Draft} (hname : name ∉ layout.names) (hskip : v.skip = .ok ())
    (hcheck : TypeRef.originKey ∈ layout.names ∨ place = .collected →
      v.check (room - 1) = .ok ()) {x : q.Value}
    (h : Accepts q.decode place room (.object (before ++ behind) ending) x) :
    Accepts q.decode place room (.object (before ++ (.sound name, v) :: behind) ending) x := by
  revert x hname hcheck
  refine record_cases
    (p := fun decode layout => name ∉ layout.names →
      (TypeRef.originKey ∈ layout.names ∨ place = .collected → v.check (room - 1) = .ok ()) →
      ∀ {x}, Accepts decode place room (.object (before ++ behind) ending) x →
        Accepts decode place room (.object (before ++ (.sound name, v) :: behind) ending) x)
    ?_ ?_ hq
  · -- a reference collects the member, so it has to be readable in full
    intro hname hcheck t h
    have hv := hcheck (.inl (List.mem_cons_self ..))
    exact ⟨h.stands.insert fun _ => hv, TypeRef.decode_insert h.decoded hname hskip
      fun inside hinside => h.stands.keep_inside hinside hv⟩
  · -- a record skips it, which takes no room unless the record itself was collected
    intro α S hname hcheck a h
    exact ⟨h.stands.insert fun hplace => hcheck (.inr hplace),
      Schema.decode_insert h.decoded hname hskip⟩

end Role

namespace Kind

/-- **A member of an unknown name leaves the outcome as it is.** -/
theorem decode_of_extended {k : Kind} {room : Nat} {d d' : Draft} {x : k.Value}
    (h : k.decode (.stream room) d = .ok x) (hd : Role.Extended room (.descriptor k) d d') :
    k.decode (.stream room) d' = .ok x := by
  cases hd with
  | @member q layout level name v before behind ending hd hq hname hskip hcheck =>
    -- the object is the whole, or a reference inside it, as only references have fields inside
    obtain ⟨rfl, rfl, rfl, rfl⟩ | rfl := hd.whole_or_reference hq
    · -- the descriptor itself is still being read, so only a reference reads the value in full
      refine (Role.accepts_insert hq hname hskip (fun h => hcheck ?_) ⟨.stream, h⟩).decoded
      exact h.resolve_right (by rintro ⟨⟩)
    · obtain ⟨_, left, t, hroom, ht, hback⟩ :=
        hd.hinges hq (by rintro ⟨⟩) (by rintro ⟨⟩) ⟨.stream, h⟩
      -- the room that is left to the reference
      have hfits : v.check (left - 1) = .ok () := by
        have hleft : left - 1 = room - (level + 1) := by omega
        rw [hleft]
        cases hq
        exact hcheck (List.mem_cons_self ..)
      exact (hback (Role.accepts_insert hq hname hskip (fun _ => hfits) ht)).decoded

/-- However many there are, wherever they stand. -/
theorem decode_of_extended_all {k : Kind} {room : Nat} {d d' : Draft} {x : k.Value}
    (h : k.decode (.stream room) d = .ok x)
    (hd : Relation.ReflTransGen (Role.Extended room (.descriptor k)) d d') :
    k.decode (.stream room) d' = .ok x := by
  -- one member after the other, each in the text that the last one has left
  induction hd with
  | refl => exact h
  | tail _ hstep ih => exact decode_of_extended ih hstep

/-- **An accepted text gives no field twice**, in any of the objects that are decoded as records or
references, however deep; and no name that is for no field is in the way. With more members of such
names in these objects, repeated or not, the text is read as the same descriptor. -/
theorem fieldsOnce_of_read {k : Kind} {text : String} {x : k.Value} (h : k.read text = .ok x) :
    (∃ d, Draft.Denoted text d) ∧ ∀ d, Draft.Denoted text d →
      (Role.descriptor k).FieldsOnce d ∧
        ∀ d' text', Relation.ReflTransGen (Role.Extended nestingLimit (.descriptor k)) d d' →
          Draft.Denoted text' d' → k.read text' = .ok x := by
  refine ⟨?_, fun d hd => ?_⟩
  · obtain ⟨d, hd, -⟩ := exists_denoted_of_read h
    exact ⟨d, hd⟩
  · rw [read_of_wellFormed k hd] at h
    -- the text that is extended is well formed, so it is read like its draft
    refine ⟨Role.fieldsOnce_of_decode h, fun d' text' hd' htext' => ?_⟩
    rw [read_of_wellFormed k htext']
    exact decode_of_extended_all h hd'

/-- A variable whose type has a member of an unknown name, and then two of them. -/
theorem fieldsOnce_of_read_scriptVariable :
    ∃ d d' x,
      Draft.Denoted ("\x7b\"name\":\"v\",\"type\":" ++
        "\x7b\"x\":null,\"origin\":\"native\",\"name\":\"A\"\x7d\x7d") d ∧
      Draft.Denoted ("\x7b\"name\":\"v\",\"type\":" ++
        "\x7b\"x\":null,\"origin\":\"native\",\"name\":\"A\",\"x\":true\x7d\x7d") d' ∧
      (Role.descriptor .scriptVariable).FieldsOnce d ∧
      Role.Extended nestingLimit (.descriptor .scriptVariable) d d' ∧
      scriptVariable.read ("\x7b\"name\":\"v\",\"type\":" ++
        "\x7b\"x\":null,\"origin\":\"native\",\"name\":\"A\",\"x\":true\x7d\x7d") = .ok x := by
  let members : List (String × Json) :=
    [("x", .null), ("origin", .string "native"), ("name", .string "A")]
  let i : Json := .object [("name", .string "v"), ("type", .object members)]
  let j : Json :=
    .object [("name", .string "v"), ("type", .object (members ++ [("x", .bool true)]))]
  have hi : i.text = "\x7b\"name\":\"v\",\"type\":" ++
      "\x7b\"x\":null,\"origin\":\"native\",\"name\":\"A\"\x7d\x7d" := by
    decide +kernel
  have hj : j.text = "\x7b\"name\":\"v\",\"type\":" ++
      "\x7b\"x\":null,\"origin\":\"native\",\"name\":\"A\",\"x\":true\x7d\x7d" := by
    decide +kernel
  have hdi : Json.Denoted i.text i :=
    Json.denoted_text (by simp [i, members, Json.HasNaturals, Json.MembersHaveNaturals])
  have hdj : Json.Denoted j.text j :=
    Json.denoted_text (by simp [j, members, Json.HasNaturals, Json.MembersHaveNaturals])
  -- the member is added to the type, which stands behind its optional frame
  have hextended : Role.Extended nestingLimit (.descriptor .scriptVariable) (Draft.ofJson i)
      (Draft.ofJson j) := by
    have htype : (⟨"type", .optional .typeRef, false⟩ : Entry) ∈ ScriptVariable.schema.layout := by
      decide
    refine .member (q := .value .typeRef) (Draft.ofMembers members) [] none
      (.member rfl htype [(.sound "name", _)] [] none (.option .here)) rfl ?_ rfl fun _ => rfl
    decide
  have hread : scriptVariable.read i.text =
      .ok ⟨"v", ∅, some ⟨.native, ⟨"A", none, false, ∅, none, []⟩⟩⟩ :=
    Decoded.eq_ok_of_toOption (by decide +kernel)
  obtain ⟨-, htext⟩ := fieldsOnce_of_read hread
  obtain ⟨honce, hmore⟩ := htext _ hdi.ofJson
  rw [← hi, ← hj]
  exact ⟨_, _, _, hdi.ofJson, hdj.ofJson, honce, hextended,
    hmore _ _ (.single hextended) hdj.ofJson⟩

/-- A name is the same name when it is written with an escape. -/
example : (scriptVariable.read
    "\x7b\"name\":\"v\",\"\\u006eame\":\"v\"\x7d").toOption = none := by
  decide +kernel

end Kind

end Introspect

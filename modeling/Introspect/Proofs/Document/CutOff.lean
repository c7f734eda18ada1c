import Introspect.Proofs.Document.RoundTrip
import Introspect.Proofs.Json.CutOff

/-!
# Documents that stop too early

The text of a descriptor that has lost its end is recognised for what it is: reading it fails
because the text has ended, never because of what is there, and it never succeeds.

What a cut leaves of a descriptor are whole fields, at most one field that is cut off, and the end
of the text (`Draft.CutOff`). Whole fields are read as they were written, and what is left of the
last one can at worst be read as something smaller, a number of which the last digits are gone. So a
decoder gets to the end of the text, and that is what it reports: checks that would fail there — a
field that is missing, say — come after the closing brace and are never reached.

* `Decoded.MayEnd`, `Decoded.Stops` — the outcomes that are left to a decoder, for a value and for
  the parts of one;
* `Draft.check_cutOff`, `TypeRef.decode_cutOff` — what is only collected is read up to the end of
  the text, and so a reference has ended, however deep the cut is;
* `Shape.mayEnd_cutOff`, `Schema.decode_cutOff` — values of fields, and records;
* `Kind.read_cutOff` — every text that is cut short has ended.
-/

namespace Introspect

open Draft (CutOff)

/-! ### Outcomes -/

namespace Decoded

variable {α β : Type}

/-- **Nothing is wrong so far**: reading fails because the text has ended, or does not fail. -/
inductive MayEnd : Decoded α → Prop
  | ended : MayEnd (.error (.fault .ended))
  | ok (a : α) : MayEnd (.ok a)

/-- **The text ends in the parts that are read, or behind them**, where a bracket is missing. -/
inductive Stops : Option Fault → Decoded α → Prop
  | inside (ending : Option Fault) : Stops ending (.error (.fault .ended))
  | behind {x : Decoded α} (hx : MayEnd x) : Stops (some .ended) x

variable {x : Decoded α} {f : α → Decoded β}

/-- An outcome that is the end of the text is one of the two. -/
theorem MayEnd.of_eq (h : x = .error (.fault .ended)) : MayEnd x := by
  rw [h]
  exact .ended

/-- Nothing is wrong as long as nothing is wrong with what follows. -/
theorem MayEnd.bind (hx : MayEnd x) (hf : ∀ a, MayEnd (f a)) : MayEnd (x >>= f) := by
  cases hx with
  | ended => exact .ended
  | ok a => exact hf a

/-- Where nothing is wrong so far, and then the text has ended, it has ended. -/
theorem MayEnd.bind_ended (hx : MayEnd x) (hf : ∀ a, f a = .error (.fault .ended)) :
    (x >>= f) = .error (.fault .ended) := by
  cases hx with
  | ended => rfl
  | ok a => exact hf a

/-- The text ends as before when nothing is wrong with what follows. -/
theorem Stops.bind {ending : Option Fault} (hx : Stops ending x) (hf : ∀ a, MayEnd (f a)) :
    Stops ending (x >>= f) := by
  cases hx with
  | inside => exact .inside ending
  | behind hx => exact .behind (hx.bind hf)

/-- Once the parts have been read the bracket is looked for. -/
theorem Stops.bind_ending {ending : Option Fault} {g : α → Unit → Decoded β}
    (hx : Stops ending x) :
    (x >>= fun a => .ofFault (Draft.ending ending) >>= g a) = .error (.fault .ended) := by
  cases hx with
  | inside => rfl
  | behind hx => exact hx.bind_ended fun _ => rfl

end Decoded

open Decoded (MayEnd Stops)

/-! ### Reading in full -/

namespace Draft

/-- Items are read in full one after the other, so those behind a cut come last. -/
theorem checkItems_append (room : Nat) (xs ys : List Draft) :
    checkItems room (xs ++ ys) = checkItems room xs >>= fun _ => checkItems room ys := by
  induction xs with
  | nil => rfl
  | cons d ds ih =>
    rw [List.cons_append, checkItems, checkItems, ih]
    cases check room d <;> rfl

/-- Members are read in full one after the other. -/
theorem checkMembers_append (room : Nat) (xs ys : List (Lexeme String × Draft)) :
    checkMembers room (xs ++ ys) = checkMembers room xs >>= fun _ => checkMembers room ys := by
  induction xs with
  | nil => rfl
  | cons m ms ih =>
    obtain ⟨k, d⟩ := m
    rw [List.cons_append, checkMembers, checkMembers, ih]
    cases k.read with
    | error f => rfl
    | ok name => cases check room d <;> rfl

/-- An array without its bracket has ended, if what is left of its items may have. -/
theorem check_array_cutOff {room : Nat} {done rest : List Json} {tail : List Draft}
    (hdepth : (Json.array (done ++ rest)).depth ≤ room)
    (h : ∀ room, (∀ j ∈ rest, j.depth ≤ room) →
      checkItems room tail = .error .ended ∨ checkItems room tail = .ok ()) :
    check room (.array (ofItems done ++ tail) (some .ended)) = .error .ended := by
  cases room with
  | zero => cases hdepth
  | succ room =>
    -- the whole items are no deeper than the array allows, so that they are read in full
    obtain ⟨hdone, hrest⟩ := List.forall_mem_append.mp (Json.depth_array_le_iff.mp hdepth)
    rw [check, checkItems_append, checkItems_ofItems fun j _ => check_ofJson j room,
      if_pos (Json.depthItems_le_iff.mpr hdone)]
    -- the rest has ended, or all of it was read and the bracket is missing
    rcases h room hrest with htail | htail
    · exact congrArg (· >>= fun _ => ending (some .ended)) htail
    · exact congrArg (· >>= fun _ => ending (some .ended)) htail

/-- An object without its brace has ended, if what is left of its members may have; and so has one
whose last member has. -/
theorem check_object_cutOff {room : Nat} {done rest : List (String × Json)}
    {tail : List (Lexeme String × Draft)} {fault : Option Fault}
    (hdepth : (Json.object (done ++ rest)).depth ≤ room)
    (h : ∀ room, (∀ m ∈ rest, m.2.depth ≤ room) →
      checkMembers room tail = .error .ended ∨
        checkMembers room tail = .ok () ∧ fault = some .ended) :
    check room (.object (ofMembers done ++ tail) fault) = .error .ended := by
  cases room with
  | zero => cases hdepth
  | succ room =>
    -- the whole members are no deeper than the object allows, so that they are read in full
    obtain ⟨hdone, hrest⟩ := List.forall_mem_append.mp (Json.depth_object_le_iff.mp hdepth)
    rw [check, checkMembers_append, checkMembers_ofMembers fun m _ => check_ofJson m.2 room,
      if_pos (Json.depthMembers_le_iff.mpr hdone)]
    rcases h room hrest with htail | ⟨htail, rfl⟩
    · exact congrArg (· >>= fun _ => ending fault) htail
    · exact congrArg (· >>= fun _ => ending (some .ended)) htail

/-- **What is cut off is read up to the end of the text**, if it fits. -/
theorem check_cutOff {j : Json} {d : Draft} (h : CutOff j d) {room : Nat}
    (hdepth : j.depth ≤ room) : check room d = .error .ended ∨ check room d = .ok () := by
  induction h generalizing room with
  -- a cut stands before, in or behind a part, and in a part it is one of that part
  | ended j onSkip => exact .inl rfl
  | number h => exact .inr rfl
  | behindItem done rest =>
    rw [← List.append_nil (ofItems done)]
    exact .inl (check_array_cutOff hdepth fun _ _ => .inr rfl)
  | beforeItem done rest => exact .inl (check_array_cutOff hdepth fun _ _ => .inl rfl)
  | inItem done rest h ih =>
    refine .inl (check_array_cutOff hdepth fun room hrest => ?_)
    -- the item that is cut off has ended, or it is a number and then the bracket is missing
    rcases ih (List.forall_mem_cons.mp hrest).1 with hd | hd
    · exact .inl (congrArg (· >>= fun _ => checkItems room []) hd)
    · exact .inr (congrArg (· >>= fun _ => checkItems room []) hd)
  | behindMember done rest =>
    rw [← List.append_nil (ofMembers done)]
    exact .inl (check_object_cutOff hdepth fun _ _ => .inr ⟨rfl, rfl⟩)
  | inName done rest d => exact .inl (check_object_cutOff hdepth fun _ _ => .inl rfl)
  | behindName done rest k j => exact .inl (check_object_cutOff hdepth fun _ _ => .inl rfl)
  | inMember done rest k h ih =>
    refine .inl (check_object_cutOff hdepth fun room hrest => ?_)
    -- the member that is cut off has ended, or it is a number and then the brace is missing
    rcases ih (List.forall_mem_cons.mp hrest).1 with hd | hd
    · exact .inl (congrArg (· >>= fun _ => checkMembers room []) hd)
    · exact .inr ⟨congrArg (· >>= fun _ => checkMembers room []) hd, rfl⟩

/-- A cut never leaves a whole `null`. -/
theorem CutOff.ne_null {j : Json} {d : Draft} (h : CutOff j d) : d ≠ .leaf (.sound .null) := by
  intro hd
  cases h with
  | ended j onSkip => cases hd
  | number h => simp [ofJson] at hd
  | _ => cases hd

end Draft

/-- What is cut off is collected up to the end of the text. -/
theorem Place.keep_cutOff {j : Json} {d : Draft} (h : CutOff j d) {room : Nat}
    (hdepth : j.depth ≤ room) : MayEnd ((stream room).keep d) := by
  rw [keep]
  -- reading in full ends or succeeds, and keeping does no more than that
  rcases Draft.check_cutOff h hdepth with hd | hd
  · rw [hd]
    exact .ended
  · rw [hd]
    exact .ok ()

/-! ### References to types -/

namespace TypeRef

/-- Members are collected one after the other; what the first ones leave is an origin or none. -/
theorem collect_append (place : Place) (origin : Option Origin)
    (xs ys : List (Lexeme String × Draft)) :
    collect place origin (xs ++ ys) = do
      let found ← collect place origin xs
      let more ← collect place found.1 ys
      return (more.1, found.2 ++ more.2) := by
  -- induction on the first members, for every origin that has been found so far
  induction xs generalizing origin with
  | nil =>
    show collect place origin ys = collect place origin ys >>= fun more => .ok (more.1, more.2)
    cases collect place origin ys <;> rfl
  | cons m ms ih =>
    obtain ⟨k, d⟩ := m
    rw [List.cons_append, collect, collect]
    cases k.read with
    | error f => rfl
    | ok name =>
      simp only [Decoded.ofFault_ok, Decoded.ok_bind]
      split
      · split
        · rfl
        · cases Origin.decode place d with
          | error e => rfl
          | ok o => exact ih (some o)
      · -- what is kept stands before what is found behind it
        rw [ih]
        cases place.keep d with
        | error e => rfl
        | ok =>
          cases collect place origin ms with
          | error e => rfl
          | ok found =>
            simp only [Decoded.ok_bind, Decoded.pure_eq_ok]
            cases collect place found.1 ys <;> rfl

/-- Items are collected one after the other. -/
theorem collectItems_append (place : Place) (xs ys : List Draft) :
    collectItems place (xs ++ ys) = collectItems place xs >>= fun _ => collectItems place ys := by
  induction xs with
  | nil => rfl
  | cons d ds ih =>
    rw [List.cons_append, collectItems, collectItems, ih]
    cases place.keep d <;> rfl

/-- Whole members behind the origin are collected if they fit. -/
theorem collect_done {room : Nat} {done : List (String × Json)}
    (hnames : ∀ m ∈ done, m.1 ≠ originKey) (hdepth : ∀ m ∈ done, m.2.depth ≤ room) (o : Origin)
    (tail : List (Lexeme String × Draft)) :
    collect (.stream room) (some o) (Draft.ofMembers done ++ tail) = do
      let more ← collect (.stream room) (some o) tail
      return (more.1, Draft.ofMembers done ++ more.2) := by
  have hfits : (Place.stream room).Fits (Json.depthMembers done) :=
    -- whole members need room, and there is enough
    Json.depthMembers_le_iff.mpr hdepth
  rw [collect_append, collect_ofMembers hnames, Place.limited_of_fits hfits, Decoded.ok_bind]

/-- The origin is decoded where it stands. -/
theorem collect_origin (place : Place) (d : Draft) :
    collect place none [(.sound originKey, d)] = do
      let o ← Origin.decode place d
      return (some o, []) := by
  rw [collect]
  cases Origin.decode place d <;> rfl

/-- Any other member is kept. -/
theorem collect_other {k : String} (hk : k ≠ originKey) (place : Place) (o : Origin) (d : Draft) :
    collect place (some o) [(.sound k, d)] = do
      place.keep d
      return (some o, [(.sound k, d)]) := by
  simp only [collect, Lexeme.read_sound, Decoded.ofFault_ok, Decoded.ok_bind, hk, if_false]

/-- Collecting stops where the text does, in the origin or in one of the members behind it. -/
theorem collect_cutOff {room : Nat} {o : Origin} {ms done rest : List (String × Json)}
    {tail : List (Lexeme String × Draft)} {ending : Option Fault}
    (hall : (originKey, Json.string o.word) :: ms = done ++ rest)
    (hms : ∀ m ∈ ms, m.1 ≠ originKey ∧ m.2.depth ≤ room)
    (hfirst : (originKey, Json.string o.word) :: ms = rest →
      Stops ending (collect (.stream room) none tail))
    (hothers : (∀ m ∈ rest, m.1 ≠ originKey ∧ m.2.depth ≤ room) →
      Stops ending (collect (.stream room) (some o) tail)) :
    Stops ending (collect (.stream room) none (Draft.ofMembers done ++ tail)) := by
  -- the cut is in the origin, or the origin is whole and the cut is in a member behind it
  cases done with
  | nil => exact hfirst hall
  | cons m done =>
    obtain ⟨rfl, rfl⟩ := List.cons.inj hall
    obtain ⟨hdone, hrest⟩ := List.forall_mem_append.mp hms
    have horigin : collect (.stream room) none
          (Draft.ofMembers ((originKey, Json.string o.word) :: done) ++ tail) =
        collect (.stream room) (some o) (Draft.ofMembers done ++ tail) := by
      simp only [Draft.ofMembers, List.cons_append, collect, Lexeme.read_sound, Decoded.ofFault_ok,
        Decoded.ok_bind, if_true, Option.isSome_none, Bool.false_eq_true, if_false, decode_word]
    rw [horigin, collect_done (fun m hm => (hdone m hm).1) fun m hm => (hdone m hm).2]
    exact (hothers hrest).bind fun _ => .ok _

/-- **A reference that is cut off has ended.** All but its origin is only collected. -/
theorem decode_cutOff {t : TypeRef} {d : Draft} (h : CutOff t.encode d) {room : Nat}
    (hdepth : t.encode.depth ≤ room) : decode (.stream room) d = .error (.fault .ended) := by
  rw [encode_eq] at h hdepth
  rw [decode_eq]
  cases room with
  | zero => cases hdepth
  | succ room =>
    -- the members behind the origin have other names and are less deep than the reference
    have hfits := (List.forall_mem_cons.mp (Json.depth_object_le_iff.mp hdepth)).2
    have hms : ∀ m ∈ TypeInfo.schema.members t.info, m.1 ≠ originKey ∧ m.2.depth ≤ room :=
      fun m hm => ⟨fst_ne_originKey hm, hfits m hm⟩
    -- the members are collected up to the end of the text
    have hstops {done rest : List (String × Json)} {tail : List (Lexeme String × Draft)}
        {ending : Option Fault}
        (hall : (originKey, Json.string t.origin.word) :: TypeInfo.schema.members t.info =
          done ++ rest)
        (hfirst : (originKey, Json.string t.origin.word) :: TypeInfo.schema.members t.info = rest →
          Stops ending (collect (.stream room) none tail))
        (hothers : (∀ m ∈ rest, m.1 ≠ originKey ∧ m.2.depth ≤ room) →
          Stops ending (collect (.stream room) (some t.origin) tail)) :
        decodeWith decode (.stream (room + 1)) (.object (Draft.ofMembers done ++ tail) ending) =
          .error (.fault .ended) :=
      (collect_cutOff hall hms hfirst hothers).bind_ending
    -- the list of all members is named, so that the cut can be taken apart
    generalize hall : (originKey, Json.string t.origin.word) :: TypeInfo.schema.members t.info =
      all at h hstops
    cases h with
    | ended j onSkip => rfl
    | behindMember done rest =>
      rw [← List.append_nil (Draft.ofMembers done)]
      -- every member that is there is whole, so the brace is missing
      exact hstops rfl (fun _ => .behind (.ok _)) fun _ => .behind (.ok _)
    | inName done rest d => exact hstops rfl (fun _ => .inside _) fun _ => .inside _
    | behindName done rest k j =>
      refine hstops rfl ?_ ?_
      · -- cut behind the name of the origin
        intro hfirst
        obtain ⟨hm, -⟩ := List.cons.inj (hall.trans hfirst)
        cases hm
        rw [collect_origin]
        exact .inside _
      · -- cut behind the name of another member
        intro hrest
        rw [collect_other (List.forall_mem_cons.mp hrest).1.1]
        exact .inside _
    | inMember done rest k h =>
      refine hstops rfl ?_ ?_
      · -- cut in the origin
        intro hfirst
        obtain ⟨hm, -⟩ := List.cons.inj (hall.trans hfirst)
        cases hm
        -- an origin is written as a string
        cases h with
        | ended j onSkip =>
          rw [collect_origin]
          exact .inside _
      · -- cut in another member
        intro hrest
        obtain ⟨hk, hj⟩ := (List.forall_mem_cons.mp hrest).1
        rw [collect_other hk]
        exact .behind ((Place.keep_cutOff h hj).bind fun _ => .ok _)

end TypeRef

/-! ### Values of a shape -/

section Shapes

variable {α : Type}

/-- Items are decoded one after the other. -/
theorem decodeItems_append (decode : Draft → Decoded α) (xs ys : List Draft) :
    decodeItems decode (xs ++ ys) = do
      let done ← decodeItems decode xs
      let more ← decodeItems decode ys
      return done ++ more := by
  induction xs with
  | nil =>
    rw [List.nil_append]
    cases decodeItems decode ys <;> rfl
  | cons d ds ih =>
    rw [List.cons_append, decodeItems, decodeItems, ih]
    cases decode d with
    | error e => rfl
    | ok x =>
      simp only [Decoded.ok_bind]
      cases decodeItems decode ds with
      | error e => rfl
      | ok xs => cases decodeItems decode ys <;> rfl

/-- A list without its bracket has ended, if what is left of its items may have. -/
theorem decodeList_ended {decode : Place → Draft → Decoded α} {encode : α → Json} {done : List α}
    (hdone : ∀ x ∈ done, ComesBack decode encode x) {room : Nat}
    (hdepth : ∀ x ∈ done, (encode x).depth ≤ room) {tail : List Draft}
    (htail : MayEnd (decodeItems (decode (.stream room)) tail)) :
    decodeList decode (.stream (room + 1))
        (.array (Draft.ofItems (done.map encode) ++ tail) (some .ended)) =
      .error (.fault .ended) := by
  -- each of the whole items is no deeper than the list allows
  have hfits : (Place.stream room).Fits (Json.depthItems (done.map encode)) := by
    refine Json.depthItems_le_iff.mpr ?_
    intro j hj
    obtain ⟨x, hx, rfl⟩ := List.mem_map.mp hj
    exact hdepth x hx
  have hitems : MayEnd (decodeItems (decode (.stream room))
      (Draft.ofItems (done.map encode) ++ tail)) := by
    rw [decodeItems_append, decodeItems_encode hdone, Place.limited_of_fits hfits, Decoded.ok_bind]
    exact htail.bind fun _ => .ok _
  exact hitems.bind_ended fun _ => rfl

/-- **A list that is cut off has ended**, if its items may have when they are cut off. -/
theorem decodeList_cutOff {decode : Place → Draft → Decoded α} {encode : α → Json} {xs : List α}
    (hxs : ∀ x ∈ xs, ComesBack decode encode x) {room : Nat}
    (hended : decode (.stream room) (.broken .ended) = .error (.fault .ended))
    (hcut : ∀ x ∈ xs, ∀ d, CutOff (encode x) d → MayEnd (decode (.stream room) d))
    (hdepth : ∀ x ∈ xs, (encode x).depth ≤ room) {d : Draft}
    (h : CutOff (.array (xs.map encode)) d) :
    decodeList decode (.stream (room + 1)) d = .error (.fault .ended) := by
  -- the items before the cut come back
  have hdone {done rest : List α} {tail : List Draft} (hdone : done ++ rest = xs)
      (htail : MayEnd (decodeItems (decode (.stream room)) tail)) :
      decodeList decode (.stream (room + 1))
          (.array (Draft.ofItems (done.map encode) ++ tail) (some .ended)) =
        .error (.fault .ended) := by
    have hsub : ∀ x ∈ done, x ∈ xs := fun x hx => hdone ▸ List.mem_append_left rest hx
    exact decodeList_ended (fun x hx => hxs x (hsub x hx)) (fun x hx => hdepth x (hsub x hx)) htail
  generalize hjs : xs.map encode = js at h
  cases h with
  -- the cut stands before the list, behind an item, before one or in one
  | ended j onSkip => rfl
  | behindItem done rest =>
    obtain ⟨done, rest, hsplit, rfl, rfl⟩ := List.map_eq_append_iff.mp hjs
    rw [← List.append_nil (Draft.ofItems _)]
    exact hdone hsplit.symm (.ok [])
  | beforeItem done rest =>
    obtain ⟨done, rest, hsplit, rfl, rfl⟩ := List.map_eq_append_iff.mp hjs
    -- a value is wanted behind the comma, and there is none
    refine hdone hsplit.symm ?_
    rw [decodeItems, hended]
    exact .ended
  | inItem done rest h =>
    obtain ⟨done, rest, hsplit, rfl, hrest⟩ := List.map_eq_append_iff.mp hjs
    obtain ⟨x, rest, rfl, rfl, rfl⟩ := List.map_eq_cons_iff.mp hrest
    -- the item that is cut off is one of the list, so the assumption on cuts applies to it
    have hx : x ∈ xs := hsplit ▸ List.mem_append_right done (List.mem_cons_self ..)
    exact hdone hsplit.symm ((hcut x hx _ h).bind fun _ => .ok _)

end Shapes

namespace Shape

/-- A value that has not begun has ended. -/
theorem decode_ended (s : Shape) (place : Place) (onSkip : Option Fault) :
    s.decode TypeRef.decode place (.leaf (.faulty .ended onSkip)) = .error (.fault .ended) := by
  induction s with
  -- scalars and lists look at the lexeme first, and report that the text has ended
  | text | flag | word | modifiers | list => rfl
  | typeRef =>
    rw [decode, TypeRef.decode_eq]
    rfl
  | optional s ih =>
    show decodeOption (s.decode TypeRef.decode place) (.leaf (.faulty .ended onSkip)) =
      .error (.fault .ended)
    rw [decodeOption.eq_2 _ _ (by intro h; cases h), ih]
    rfl

/-- **Of a value that is cut off nothing is wrong**, whatever its shape. -/
theorem mayEnd_cutOff {s : Shape} (hs : s.IsRegular) {v : s.Value} {d : Draft}
    (h : CutOff (s.encode v) d) {room : Nat} (hdepth : (s.encode v).depth ≤ room) :
    MayEnd (s.decode TypeRef.decode (.stream room) d) := by
  -- induction on the shape: a list may be of references, which are dealt with before
  induction s generalizing d room with
  -- these are written as one lexeme, and cut off it is none
  | text | flag | modifiers =>
    cases h with
    | ended j onSkip => exact .ended
  | word =>
    cases h with
    | ended j onSkip => exact .ended
    | @number m n h =>
      -- no greater than a word, hence a word
      have hrange : m < UInt16.size := Nat.lt_of_le_of_lt h v.toNat_lt_size
      have hword := asWord_toNat (UInt16.ofNat m)
      rw [UInt16.toNat_ofNat_of_lt' hrange] at hword
      show MayEnd (Decoded.ofData (Scalar.asWord (.number (.integer m))))
      rw [hword]
      exact .ok (UInt16.ofNat m)
  | typeRef => exact .of_eq (TypeRef.decode_cutOff h hdepth)
  | optional s ih =>
    cases v with
    | none =>
      cases h with
      | ended j onSkip => exact .of_eq (decode_ended (optional s) _ onSkip)
    | some x =>
      show MayEnd (decodeOption (s.decode TypeRef.decode (.stream room)) d)
      -- what is left is not null, so the value inside is decoded
      rw [decodeOption.eq_2 _ _ h.ne_null]
      exact (ih hs.2 h hdepth).bind fun _ => .ok _
  | list s ih =>
    have hs : s.IsRegular := hs
    cases room with
    | zero => exact absurd hdepth (Nat.not_succ_le_zero _)
    | succ room =>
      have hdepth : ∀ x ∈ v, (s.encode x).depth ≤ room := fun x hx =>
        Json.depth_array_le_iff.mp hdepth _ (List.mem_map_of_mem hx)
      have hended : s.decode TypeRef.decode (.stream room) (.broken .ended) =
          .error (.fault .ended) := decode_ended s _ _
      refine .of_eq (decodeList_cutOff (fun x _ => ?_) hended (fun x hx d hd => ?_) hdepth h)
      · exact comesBack hs fun t _ => t.comesBack
      · exact ih hs hd (hdepth x hx)

end Shape

/-! ### Records -/

namespace Schema

variable {α : Type} {S : Schema α} {ref : RefDecoder}

/-- Members are decoded one after the other, into the slots that the first ones leave. -/
theorem decodeMembers_append (place : Place) (slots : S.Slots)
    (xs ys : List (Lexeme String × Draft)) :
    S.decodeMembers ref place slots (xs ++ ys) =
      S.decodeMembers ref place slots xs >>= fun slots => S.decodeMembers ref place slots ys := by
  induction xs generalizing slots with
  | nil => rfl
  | cons m ms ih =>
    obtain ⟨k, d⟩ := m
    rw [List.cons_append, decodeMembers, decodeMembers]
    cases k.read with
    | error f => rfl
    | ok name =>
      simp only [Decoded.ofFault_ok, Decoded.ok_bind]
      cases S.field? name with
      | none =>
        cases d.skip with
        | error f => rfl
        | ok => exact ih slots
      | some f =>
        simp only []
        split
        · rfl
        · cases (S.shape f).decode ref place d with
          | error e => rfl
          | ok v => exact ih (slots.put f v)

/-- The member of a field that has not been given yet. -/
theorem decodeMembers_member {slots : S.Slots} {f : S.Field} (hf : slots f = none) (place : Place)
    (d : Draft) :
    S.decodeMembers ref place slots [(.sound (S.key f), d)] = do
      let v ← (S.shape f).decode ref place d
      return slots.put f v := by
  simp only [decodeMembers, Lexeme.read_sound, Decoded.ofFault_ok, Decoded.ok_bind, S.field?_key,
    hf, Option.isSome_none, Bool.false_eq_true, if_false, Decoded.pure_eq_ok]

/-- Whole members are read as they were written, and leave room for the fields behind them. -/
theorem exists_slots {a : α} (hS : ∀ f, (S.shape f).IsRegular) {fs gs : List S.Field}
    (hfs : (fs ++ gs).Nodup) {room : Nat}
    (hdepth : ∀ f ∈ fs, ((S.shape f).encode (S.get a f)).depth ≤ room) :
    ∃ slots : S.Slots, (∀ g ∈ gs, slots g = none) ∧
      ∀ tail, S.decodeMembers TypeRef.decode (.stream room) .empty
          (Draft.ofMembers (fs.map fun f => (S.key f, (S.shape f).encode (S.get a f))) ++ tail) =
        S.decodeMembers TypeRef.decode (.stream room) slots tail := by
  obtain ⟨hnodup, -, hdisjoint⟩ := List.nodup_append.mp hfs
  have hfits : (Place.stream room).Fits
      (Json.depthMembers (fs.map fun f => (S.key f, (S.shape f).encode (S.get a f)))) := by
    refine Json.depthMembers_le_iff.mpr ?_
    intro m hm
    obtain ⟨f, hf, rfl⟩ := List.mem_map.mp hm
    exact hdepth f hf
  refine ⟨fs.foldl (fun slots f => slots.put f (S.get a f)) .empty, ?_, ?_⟩
  · -- the fields behind are none of those that were put
    intro g hg
    rw [foldl_put_apply, if_neg fun hf => hdisjoint g hf g hg rfl]
    rfl
  · -- the whole members come back, which is what they were written for
    intro tail
    have hempty : ∀ f ∈ fs, (Slots.empty : S.Slots) f = none := fun _ _ => rfl
    have hread := decodeMembers_encode hnodup
      (fun f _ => Shape.comesBack (hS f) fun t _ => t.comesBack) hempty (.stream room) (a := a)
    rw [decodeMembers_append, hread, Place.limited_of_fits hfits, Decoded.ok_bind]

/-- **A record that is cut off has ended**, whichever of its fields are missing. -/
theorem decode_cutOff (hS : ∀ f, (S.shape f).IsRegular) {a : α} {d : Draft}
    (h : CutOff (S.encode a) d) {room : Nat} (hdepth : (S.encode a).depth ≤ room) :
    S.decode TypeRef.decode (.stream room) d = .error (.fault .ended) := by
  cases room with
  | zero => exact absurd hdepth (Nat.not_succ_le_zero _)
  | succ room =>
    have hfits : ∀ f ∈ S.fields.filter (S.isWritten a),
        ((S.shape f).encode (S.get a f)).depth ≤ room := by
      intro f hf
      -- what is written of a record is less deep than the record
      have hlt := depth_lt_of_isWritten (List.mem_filter.mp hf).2
      exact Nat.le_of_lt_succ (Nat.lt_of_lt_of_le hlt hdepth)
    have hnodup := S.nodup_fields.filter (S.isWritten a)
    have hwritten : S.members a = (S.fields.filter (S.isWritten a)).map
      fun f => (S.key f, (S.shape f).encode (S.get a f)) := rfl
    -- the members are read up to the end of the text
    have hstops {fs gs : List S.Field} (hfs : fs ++ gs = S.fields.filter (S.isWritten a))
        {tail : List (Lexeme String × Draft)} {ending : Option Fault}
        (htail : ∀ slots : S.Slots, (∀ g ∈ gs, slots g = none) →
          Stops ending (S.decodeMembers TypeRef.decode (.stream room) slots tail)) :
        S.decode TypeRef.decode (.stream (room + 1)) (.object (Draft.ofMembers
            (fs.map fun f => (S.key f, (S.shape f).encode (S.get a f))) ++ tail) ending) =
          .error (.fault .ended) := by
      rw [← hfs] at hnodup hfits
      obtain ⟨slots, hfree, hslots⟩ := exists_slots (a := a) hS hnodup fun f hf =>
        hfits f (List.mem_append_left gs hf)
      have hmembers := htail slots hfree
      rw [← hslots] at hmembers
      exact hmembers.bind_ending
    rw [encode] at h
    generalize S.members a = ms at h hwritten
    cases h with
    | ended j onSkip => rfl
    | behindMember done rest =>
      obtain ⟨fs, gs, hfs, rfl, rfl⟩ := List.map_eq_append_iff.mp hwritten.symm
      rw [← List.append_nil (Draft.ofMembers _)]
      exact hstops hfs.symm fun slots _ => .behind (.ok slots)
    | inName done rest d =>
      obtain ⟨fs, gs, hfs, rfl, rfl⟩ := List.map_eq_append_iff.mp hwritten.symm
      exact hstops hfs.symm fun slots _ => .inside _
    | behindName done rest k j =>
      obtain ⟨fs, gs, hfs, rfl, hgs⟩ := List.map_eq_append_iff.mp hwritten.symm
      obtain ⟨g, gs, rfl, hg, rfl⟩ := List.map_eq_cons_iff.mp hgs
      cases hg
      -- the name is there without a value, so the value has ended
      refine hstops hfs.symm fun slots hfree => ?_
      rw [decodeMembers_member (hfree g (List.mem_cons_self ..)), Draft.broken, Lexeme.broken,
        Shape.decode_ended]
      exact .inside none
    | inMember done rest k h =>
      obtain ⟨fs, gs, hfs, rfl, hgs⟩ := List.map_eq_append_iff.mp hwritten.symm
      obtain ⟨g, gs, rfl, hg, rfl⟩ := List.map_eq_cons_iff.mp hgs
      cases hg
      -- the value of the field is cut off, of which nothing is wrong
      refine hstops hfs.symm fun slots hfree => .behind ?_
      have hg := hfits g (hfs ▸ List.mem_append_right fs (List.mem_cons_self ..))
      rw [decodeMembers_member (hfree g (List.mem_cons_self ..))]
      exact (Shape.mayEnd_cutOff (hS g) h hg).bind fun _ => .ok _

end Schema

/-! ### Descriptors -/

namespace Kind

/-- **A descriptor that is cut off has ended**, where there was room for all of it. -/
theorem decode_cutOff (k : Kind) {x : k.Value} {d : Draft} (h : CutOff (k.encode x) d) {room : Nat}
    (hdepth : (k.encode x).depth ≤ room) : k.decode (.stream room) d = .error (.fault .ended) := by
  cases k with
  | typeRef => exact TypeRef.decode_cutOff h hdepth
  | modifiers =>
    cases h with
    -- a set of modifiers is one string, and cut off it is none
    | ended j onSkip => rfl
  | typeInfo => exact Schema.decode_cutOff TypeRef.isRegular_shape h hdepth
  | _ =>
    refine Schema.decode_cutOff (fun f => ?_) h hdepth
    cases f <;> trivial

/-- **A text that is cut short has ended.** Whatever is left of the text of a descriptor that nests
at most 127 deep, even nothing at all, reading it fails for that reason and for no other. -/
theorem read_cutOff (k : Kind) (x : k.Value) (hdepth : (k.encode x).depth ≤ nestingLimit)
    {text : String} (htext : text.toList <+: (k.write x).toList) (hne : text ≠ k.write x) :
    k.read text = .error (.fault .ended) := by
  -- the text is a beginning of the written one, and not all of it
  have hcut : CutShort text.toList (k.encode x).compact := by
    rw [write, Json.text, String.toList_ofList] at htext
    refine ⟨htext, fun h => hne ?_⟩
    rw [write, Json.text, ← h, String.ofList_toList]
  obtain ⟨d, hscan, hd⟩ := Draft.scan_cutOff (k.isEncoded_encode x).hasNaturals hcut
  rw [read, readChars, hscan]
  show (k.decode (.stream nestingLimit) d >>= _) = _
  rw [k.decode_cutOff hd hdepth]
  rfl

/-- A field whose access flags, 513, have lost two digits. What is left of them is a number, and no
type follows. -/
theorem read_cutOff_accessFlags :
    hostField.read "\x7b\"name\":\"count\",\"access_flags\":5" = .error (.fault .ended) := by
  let count : HostField := ⟨"count", 513, (TypeInfo.ofClass "int").native⟩
  have hwrite : hostField.write count = "\x7b\"name\":\"count\",\"access_flags\":5" ++
      "13,\"field_type\":\x7b\"origin\":\"native\",\"name\":\"int\",\"is_interface\":false," ++
      "\"modifiers\":\"\"\x7d\x7d" := by
    decide +kernel
  -- what is left is less than what was written
  refine hostField.read_cutOff count (by decide) ?_ ?_
  · rw [hwrite, String.append_assoc, String.toList_append]
    exact List.prefix_append _ _
  · rw [hwrite]
    decide

end Kind

end Introspect

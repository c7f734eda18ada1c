import Introspect.Json.Draft

/-!
# Trees and their drafts

Arrays and objects are described by companion functions on lists. Here these functions are read as
the operations on lists that they are, so that proofs about trees go by one induction
(`Json.induction`) and need no companions.

* `Draft.ofItems_eq_map`, `Draft.ofMembers_eq_map`, `Json.sortedItems_eq_map`,
  `Json.sortedMembers_eq_map` — companions as maps;
* `Json.depth_array_le_iff`, `Json.depth_object_le_iff` and their siblings on drafts — a depth is
  bounded when those of the parts are;
* `Draft.check_ofJson`, `Draft.skip_ofJson` — the draft of a tree is read in full exactly when the
  tree is not too deep, and can always be skipped;
* `Draft.depth_le_of_check` — what has been read in full is not too deep;
* `Draft.skipItems_eq_ok`, `Draft.checkItems_eq_ok` and their siblings — a draft is passed over, or
  read in full, when its parts are; `Draft.skip_of_check` — the one follows from the other.
-/

namespace Introspect

namespace Json

/-! ### Induction -/

/-- **Induction over the parts of a value.** -/
@[elab_as_elim]
theorem induction {motive : Json → Prop} (scalar : ∀ s, motive (.scalar s))
    (array : ∀ items, (∀ j ∈ items, motive j) → motive (.array items))
    (object : ∀ members, (∀ m ∈ members, motive m.2) → motive (.object members)) :
    ∀ j, motive j
  | .scalar s => scalar s
  | .array items => array items fun j hj => by
    -- an item is part of its array, so it is smaller
    have hlt := List.sizeOf_lt_of_mem hj
    exact induction scalar array object j
  | .object members => object members fun m hm => by
    have hlt := List.sizeOf_lt_of_mem hm
    -- the value of a member is smaller than the member, and that than its object
    have hlt' : sizeOf m.2 < sizeOf m := by
      cases m
      simp only [Prod.mk.sizeOf_spec]
      omega
    exact induction scalar array object m.2
termination_by j => sizeOf j

/-! ### Companions as operations on lists -/

/-- Sorting goes into each item. -/
theorem sortedItems_eq_map (js : List Json) : sortedItems js = js.map sorted := by
  induction js with
  | nil => rfl
  | cons j js ih => rw [sortedItems, ih, List.map_cons]

/-- Sorting goes into the value of each member, and keeps its name. -/
theorem sortedMembers_eq_map (ms : List (String × Json)) :
    sortedMembers ms = ms.map fun m => (m.1, m.2.sorted) := by
  induction ms with
  | nil => rfl
  | cons m ms ih => rw [sortedMembers, ih, List.map_cons]

/-- Items are no deeper than a bound when each of them is not. -/
theorem depthItems_le_iff {js : List Json} {n : Nat} :
    depthItems js ≤ n ↔ ∀ j ∈ js, j.depth ≤ n := by
  induction js with
  | nil => simp [depthItems]
  | cons j js ih => rw [depthItems, Nat.max_le, ih, List.forall_mem_cons]

/-- Members are no deeper than a bound when the value of each is not. -/
theorem depthMembers_le_iff {ms : List (String × Json)} {n : Nat} :
    depthMembers ms ≤ n ↔ ∀ m ∈ ms, m.2.depth ≤ n := by
  induction ms with
  | nil => simp [depthMembers]
  | cons m ms ih => rw [depthMembers, Nat.max_le, ih, List.forall_mem_cons]

/-- An array is one level deeper than its items. -/
theorem depth_array_le_iff {js : List Json} {n : Nat} :
    (array js).depth ≤ n + 1 ↔ ∀ j ∈ js, j.depth ≤ n := by
  rw [depth, Nat.add_le_add_iff_right, depthItems_le_iff]

/-- An object is one level deeper than the values of its members. -/
theorem depth_object_le_iff {ms : List (String × Json)} {n : Nat} :
    (object ms).depth ≤ n + 1 ↔ ∀ m ∈ ms, m.2.depth ≤ n := by
  rw [depth, Nat.add_le_add_iff_right, depthMembers_le_iff]

/-- The bound of an array from that of its items; even the empty array has a level. -/
theorem depth_array_le {js : List Json} {n : Nat} (hn : 0 < n) (h : ∀ j ∈ js, j.depth < n) :
    (array js).depth ≤ n := by
  cases n with
  | zero => exact absurd hn (Nat.lt_irrefl 0)
  | succ n => exact depth_array_le_iff.mpr fun j hj => Nat.le_of_lt_succ (h j hj)

/-- The bound of an object from that of its values; even the empty object has a level. -/
theorem depth_object_le {ms : List (String × Json)} {n : Nat} (hn : 0 < n)
    (h : ∀ m ∈ ms, m.2.depth < n) : (object ms).depth ≤ n := by
  cases n with
  | zero => exact absurd hn (Nat.lt_irrefl 0)
  | succ n => exact depth_object_le_iff.mpr fun m hm => Nat.le_of_lt_succ (h m hm)

/-- An item is less deep than its array. -/
theorem depth_lt_of_mem_items {js : List Json} {j : Json} (h : j ∈ js) :
    j.depth < (array js).depth :=
  Nat.lt_succ_of_le (depthItems_le_iff.mp (Nat.le_refl _) j h)

/-- The value of a member is less deep than its object. -/
theorem depth_lt_of_mem_members {ms : List (String × Json)} {m : String × Json} (h : m ∈ ms) :
    m.2.depth < (object ms).depth :=
  Nat.lt_succ_of_le (depthMembers_le_iff.mp (Nat.le_refl _) m h)

end Json

namespace Draft

/-- The draft of an array has the drafts of its items. -/
theorem ofItems_eq_map (js : List Json) : ofItems js = js.map ofJson := by
  induction js with
  | nil => rfl
  | cons j js ih => rw [ofItems, ih, List.map_cons]

theorem length_ofItems (js : List Json) : (ofItems js).length = js.length := by
  rw [ofItems_eq_map, List.length_map]

/-- The draft of an object has the drafts of its values, under sound names. -/
theorem ofMembers_eq_map (ms : List (String × Json)) :
    ofMembers ms = ms.map fun m => (.sound m.1, ofJson m.2) := by
  induction ms with
  | nil => rfl
  | cons m ms ih => rw [ofMembers, ih, List.map_cons]

/-- The draft of an object may be split between two of its members. -/
theorem ofMembers_append (ms ns : List (String × Json)) :
    ofMembers (ms ++ ns) = ofMembers ms ++ ofMembers ns := by
  rw [ofMembers_eq_map, ofMembers_eq_map, ofMembers_eq_map, List.map_append]

/-- Drafts of items are no deeper than a bound when each of them is not. -/
theorem depthItems_le_iff {ds : List Draft} {n : Nat} :
    depthItems ds ≤ n ↔ ∀ d ∈ ds, d.depth ≤ n := by
  induction ds with
  | nil => simp [depthItems]
  | cons d ds ih => rw [depthItems, Nat.max_le, ih, List.forall_mem_cons]

/-- Drafts of members are no deeper than a bound when the value of each is not. -/
theorem depthMembers_le_iff {ms : List (Lexeme String × Draft)} {n : Nat} :
    depthMembers ms ≤ n ↔ ∀ m ∈ ms, m.2.depth ≤ n := by
  induction ms with
  | nil => simp [depthMembers]
  | cons m ms ih => rw [depthMembers, Nat.max_le, ih, List.forall_mem_cons]

/-- An item is less deep than its array. -/
theorem depth_lt_of_mem_items {ds : List Draft} {ending : Option Fault} {d : Draft}
    (h : d ∈ ds) : d.depth < (array ds ending).depth :=
  Nat.lt_succ_of_le (depthItems_le_iff.mp (Nat.le_refl _) d h)

/-- The value of a member is less deep than its object. -/
theorem depth_lt_of_mem_members {ms : List (Lexeme String × Draft)} {ending : Option Fault}
    {m : Lexeme String × Draft} (h : m ∈ ms) : m.2.depth < (object ms ending).depth := by
  rw [depth]
  exact Nat.lt_succ_of_le (depthMembers_le_iff.mp (Nat.le_refl _) m h)

/-! ### Drafts of trees -/

/-- **The draft of a tree can be passed over**: nothing in a tree is at fault. -/
theorem skip_ofJson (j : Json) : (ofJson j).skip = .ok () := by
  induction j using Json.induction with
  | scalar s => rfl
  | array items ih =>
    -- the items one after the other; the hypothesis on the parts shrinks with the list
    have hitems : skipItems (ofItems items) = .ok () := by
      induction items with
      | nil => rfl
      | cons j js ih' =>
        rw [ofItems, skipItems, ih j (List.mem_cons_self ..),
          ih' fun k hk => ih k (List.mem_cons_of_mem _ hk)]
        rfl
    rw [ofJson, skip, hitems]
    rfl
  | object members ih =>
    have hmembers : skipMembers (ofMembers members) = .ok () := by
      induction members with
      | nil => rfl
      | cons m ms ih' =>
        -- the name of a member is sound, so that only its value is to be passed over
        rw [ofMembers, skipMembers, Lexeme.skip_sound, ih m (List.mem_cons_self ..),
          ih' fun k hk => ih k (List.mem_cons_of_mem _ hk)]
        rfl
    rw [ofJson, skip, hmembers]
    rfl

/-! ### Reading in full -/

/-- The items of a tree are read in full when none of them is too deep. The outcome of each is
given, so that the lemma can serve in the induction on trees. -/
theorem checkItems_ofItems {room : Nat} {js : List Json}
    (h : ∀ j ∈ js, check room (ofJson j) = if j.depth ≤ room then .ok () else .error .malformed) :
    checkItems room (ofItems js) =
      if Json.depthItems js ≤ room then .ok () else .error .malformed := by
  induction js with
  | nil => rfl
  | cons j js ih =>
    rw [ofItems, checkItems, h j (List.mem_cons_self ..),
      ih fun k hk => h k (List.mem_cons_of_mem _ hk)]
    simp only [Json.depthItems, Nat.max_le]
    by_cases hj : j.depth ≤ room
    · -- the outcome is that of the other items
      simp only [hj, if_true, true_and]
      rfl
    · -- this item is malformed already
      simp only [hj, if_false, false_and]
      rfl

/-- The same for the members of a tree, whose names are sound. -/
theorem checkMembers_ofMembers {room : Nat} {ms : List (String × Json)}
    (h : ∀ m ∈ ms, check room (ofJson m.2) =
      if m.2.depth ≤ room then .ok () else .error .malformed) :
    checkMembers room (ofMembers ms) =
      if Json.depthMembers ms ≤ room then .ok () else .error .malformed := by
  induction ms with
  | nil => rfl
  | cons m ms ih =>
    rw [ofMembers, checkMembers, Lexeme.read_sound, h m (List.mem_cons_self ..),
      ih fun k hk => h k (List.mem_cons_of_mem _ hk)]
    simp only [Json.depthMembers, Nat.max_le]
    by_cases hm : m.2.depth ≤ room
    · -- the outcome is that of the other members
      simp only [hm, if_true, true_and]
      rfl
    · -- the value of this member is malformed already
      simp only [hm, if_false, false_and]
      rfl

/-- **A tree is read in full exactly when it is not too deep.** -/
theorem check_ofJson (j : Json) (room : Nat) :
    check room (ofJson j) = if j.depth ≤ room then .ok () else .error .malformed := by
  induction j using Json.induction generalizing room with
  -- a scalar opens no level, so there is always room for it
  | scalar s => simp [ofJson, check, Json.depth, Except.map]
  | array items ih =>
    cases room with
    -- without room an array is refused before its items are looked at
    | zero => simp [ofJson, check, Json.depth]
    | succ room =>
      -- inside there is room for one level less
      rw [ofJson, check, checkItems_ofItems fun j hj => ih j hj room, Json.depth]
      simp only [Nat.add_le_add_iff_right]
      split <;> rfl
  | object members ih =>
    cases room with
    | zero => simp [ofJson, check, Json.depth]
    | succ room =>
      rw [ofJson, check, checkMembers_ofMembers fun m hm => ih m hm room, Json.depth]
      simp only [Nat.add_le_add_iff_right]
      split <;> rfl

mutual

/-- **What has been read in full is not too deep.** -/
theorem depth_le_of_check {room : Nat} : ∀ {d : Draft}, check room d = .ok () → d.depth ≤ room
  | .leaf x, _ => Nat.zero_le _
  | .array items ending, h => by
    -- the reader that has no room refuses the array
    cases room with
    | zero => cases h
    | succ room =>
      rw [check] at h
      cases hitems : checkItems room items with
      -- a fault among the items would be the fault of the array
      | error f => rw [hitems] at h; cases h
      | ok => exact Nat.succ_le_succ (depthItems_le_of_check hitems)
  | .object members ending, h => by
    cases room with
    | zero => cases h
    | succ room =>
      rw [check] at h
      cases hmembers : checkMembers room members with
      | error f => rw [hmembers] at h; cases h
      | ok => exact Nat.succ_le_succ (depthMembers_le_of_check hmembers)

/-- Items that have been read in full are not too deep. -/
theorem depthItems_le_of_check {room : Nat} :
    ∀ {ds : List Draft}, checkItems room ds = .ok () → depthItems ds ≤ room
  | [], _ => Nat.zero_le _
  | d :: ds, h => by
    rw [checkItems] at h
    cases hd : check room d with
    | error f => rw [hd] at h; cases h
    | ok =>
      rw [hd] at h
      exact Nat.max_le.mpr ⟨depth_le_of_check hd, depthItems_le_of_check h⟩

/-- Members that have been read in full are not too deep. -/
theorem depthMembers_le_of_check {room : Nat} :
    ∀ {ms : List (Lexeme String × Draft)}, checkMembers room ms = .ok () →
      depthMembers ms ≤ room
  | [], _ => Nat.zero_le _
  | (k, d) :: ms, h => by
    rw [checkMembers] at h
    -- the name comes first, and must have been read too
    cases hk : k.read with
    | error f => rw [hk] at h; cases h
    | ok name =>
      rw [hk] at h
      cases hd : check room d with
      | error f => rw [hd] at h; cases h
      | ok =>
        rw [hd] at h
        exact Nat.max_le.mpr ⟨depth_le_of_check hd, depthMembers_le_of_check h⟩

end

/-! ### Part by part

A draft can be passed over, or read in full, when all of its parts can and no fault stands at its
end. -/

/-- An array can be passed over when its items can and it is closed. -/
theorem skip_array_eq_ok {ds : List Draft} {fault : Option Fault} :
    (array ds fault).skip = .ok () ↔ skipItems ds = .ok () ∧ fault = none := by
  rw [skip]
  cases skipItems ds with
  -- a fault among the items is the fault of the array, whatever stands at its end
  | error f => exact ⟨by rintro ⟨⟩, by rintro ⟨⟨⟩, -⟩⟩
  | ok => exact ending_eq_ok.trans (and_iff_right rfl).symm

/-- An object can be passed over when its members can and it is closed. -/
theorem skip_object_eq_ok {ms : List (Lexeme String × Draft)} {fault : Option Fault} :
    (object ms fault).skip = .ok () ↔ skipMembers ms = .ok () ∧ fault = none := by
  rw [skip]
  cases skipMembers ms with
  | error f => exact ⟨by rintro ⟨⟩, by rintro ⟨⟨⟩, -⟩⟩
  | ok => exact ending_eq_ok.trans (and_iff_right rfl).symm

/-- Items are passed over from the first to the last. -/
theorem skipItems_cons_eq_ok {d : Draft} {ds : List Draft} :
    skipItems (d :: ds) = .ok () ↔ d.skip = .ok () ∧ skipItems ds = .ok () := by
  rw [skipItems]
  cases d.skip with
  | error f => exact ⟨by rintro ⟨⟩, by rintro ⟨⟨⟩, -⟩⟩
  | ok => exact (and_iff_right rfl).symm

/-- Members are passed over from the first to the last, the name of each before its value. -/
theorem skipMembers_cons_eq_ok {k : Lexeme String} {d : Draft}
    {ms : List (Lexeme String × Draft)} :
    skipMembers ((k, d) :: ms) = .ok () ↔
      k.skip = .ok () ∧ d.skip = .ok () ∧ skipMembers ms = .ok () := by
  rw [skipMembers]
  cases k.skip with
  | error f => exact ⟨by rintro ⟨⟩, by rintro ⟨⟨⟩, -⟩⟩
  | ok =>
    cases d.skip with
    | error f => exact ⟨by rintro ⟨⟩, by rintro ⟨-, ⟨⟩, -⟩⟩
    | ok => exact (and_iff_right rfl).symm.trans (and_iff_right rfl).symm

/-- **Items can be passed over when each of them can.** -/
theorem skipItems_eq_ok {ds : List Draft} :
    skipItems ds = .ok () ↔ ∀ d ∈ ds, d.skip = .ok () := by
  induction ds with
  | nil => simp [skipItems]
  | cons d ds ih => rw [skipItems_cons_eq_ok, ih, List.forall_mem_cons]

/-- **Members can be passed over when each name and each value can.** -/
theorem skipMembers_eq_ok {ms : List (Lexeme String × Draft)} :
    skipMembers ms = .ok () ↔ ∀ m ∈ ms, m.1.skip = .ok () ∧ m.2.skip = .ok () := by
  induction ms with
  | nil => simp [skipMembers]
  | cons m ms ih => rw [skipMembers_cons_eq_ok, ih, List.forall_mem_cons, and_assoc]

/-- An array is read in full when its items are, with one level less, and it is closed. -/
theorem check_array_eq_ok {room : Nat} {ds : List Draft} {fault : Option Fault} :
    check (room + 1) (.array ds fault) = .ok () ↔ checkItems room ds = .ok () ∧ fault = none := by
  rw [check]
  cases checkItems room ds with
  | error f => exact ⟨by rintro ⟨⟩, by rintro ⟨⟨⟩, -⟩⟩
  | ok => exact ending_eq_ok.trans (and_iff_right rfl).symm

/-- An object is read in full when its members are, with one level less, and it is closed. -/
theorem check_object_eq_ok {room : Nat} {ms : List (Lexeme String × Draft)}
    {fault : Option Fault} :
    check (room + 1) (.object ms fault) = .ok () ↔
      checkMembers room ms = .ok () ∧ fault = none := by
  rw [check]
  cases checkMembers room ms with
  | error f => exact ⟨by rintro ⟨⟩, by rintro ⟨⟨⟩, -⟩⟩
  | ok => exact ending_eq_ok.trans (and_iff_right rfl).symm

/-- **Items are read in full when each of them is.** -/
theorem checkItems_eq_ok {room : Nat} {ds : List Draft} :
    checkItems room ds = .ok () ↔ ∀ d ∈ ds, check room d = .ok () := by
  induction ds with
  | nil => simp [checkItems]
  | cons d ds ih =>
    rw [List.forall_mem_cons, ← ih, checkItems]
    cases check room d with
    | error f => exact ⟨by rintro ⟨⟩, by rintro ⟨⟨⟩, -⟩⟩
    | ok => exact (and_iff_right rfl).symm

/-- **Members are read in full when each name is sound and each value is read in full.** -/
theorem checkMembers_eq_ok {room : Nat} {ms : List (Lexeme String × Draft)} :
    checkMembers room ms = .ok () ↔
      ∀ m ∈ ms, (∃ name, m.1 = .sound name) ∧ check room m.2 = .ok () := by
  induction ms with
  | nil => simp [checkMembers]
  | cons m ms ih =>
    obtain ⟨k, d⟩ := m
    rw [List.forall_mem_cons, ← ih, checkMembers]
    cases k with
    -- a name at fault is refused by the reader, and is no sound name
    | faulty onRead onSkip => exact ⟨by rintro ⟨⟩, by rintro ⟨⟨⟨_, ⟨⟩⟩, -⟩, -⟩⟩
    | sound name =>
      cases check room d with
      | error f => exact ⟨by rintro ⟨⟩, by rintro ⟨⟨-, ⟨⟩⟩, -⟩⟩
      | ok => exact (and_iff_right ⟨⟨name, rfl⟩, rfl⟩).symm

mutual

/-- **What can be read in full can be passed over.** -/
theorem skip_of_check {room : Nat} : ∀ {d : Draft}, check room d = .ok () → d.skip = .ok ()
  | .leaf x, h => by
    cases x with
    | sound s => rfl
    -- a scalar that has no value cannot be read, even if it could be passed over
    | faulty onRead onSkip => cases h
  | .array ds fault, h => by
    cases room with
    | zero => cases h
    | succ room =>
      obtain ⟨hds, hfault⟩ := check_array_eq_ok.mp h
      exact skip_array_eq_ok.mpr ⟨skipItems_of_check hds, hfault⟩
  | .object ms fault, h => by
    cases room with
    | zero => cases h
    | succ room =>
      obtain ⟨hms, hfault⟩ := check_object_eq_ok.mp h
      exact skip_object_eq_ok.mpr ⟨skipMembers_of_check hms, hfault⟩

/-- Items that can be read in full can be passed over. -/
theorem skipItems_of_check {room : Nat} :
    ∀ {ds : List Draft}, checkItems room ds = .ok () → skipItems ds = .ok ()
  | [], _ => rfl
  | d :: ds, h => by
    obtain ⟨hd, hds⟩ := List.forall_mem_cons.mp (checkItems_eq_ok.mp h)
    exact skipItems_cons_eq_ok.mpr
      ⟨skip_of_check hd, skipItems_of_check (checkItems_eq_ok.mpr hds)⟩

/-- Members that can be read in full can be passed over. -/
theorem skipMembers_of_check {room : Nat} :
    ∀ {ms : List (Lexeme String × Draft)}, checkMembers room ms = .ok () →
      skipMembers ms = .ok ()
  | [], _ => rfl
  | (k, d) :: ms, h => by
    obtain ⟨⟨⟨name, hname⟩, hd⟩, hms⟩ := List.forall_mem_cons.mp (checkMembers_eq_ok.mp h)
    obtain rfl : k = .sound name := hname
    exact skipMembers_cons_eq_ok.mpr
      ⟨rfl, skip_of_check hd, skipMembers_of_check (checkMembers_eq_ok.mpr hms)⟩

end

end Draft

end Introspect

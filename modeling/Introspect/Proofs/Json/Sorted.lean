import Introspect.Proofs.Json.Grammar
import Introspect.Proofs.Json.Tree
import Mathlib.Data.List.Nodup

/-!
# Sorting members

In the sorted form of a tree every object has its members in the order of their names, and of
several members of one name only the last is left. Where no name is repeated nothing is lost.

* `Json.isSorted_sorted` — the sorted form has members in the order of their names, at every depth;
* `Json.sortMembers_perm` — the members are the same in another order;
* `Json.rearranged_sorted` — the sorted form has the sorted parts, members in another order;
* `Json.get?_sorted` — hence under every name what stands there, in sorted form.
-/

namespace Introspect

namespace Json

/-! ### The order of members -/

section Members

variable {α : Type}

/-- A member that is put among others brings nothing else with it. -/
theorem mem_insertMember {name : String} {value : α} {ms : List (String × α)} {m : String × α}
    (h : m ∈ insertMember name value ms) : m = (name, value) ∨ m ∈ ms := by
  induction ms with
  | nil => exact .inl (List.mem_singleton.mp h)
  | cons first ms ih =>
    obtain ⟨other, x⟩ := first
    unfold insertMember at h
    split at h
    · exact List.mem_cons.mp h
    · split at h
      · -- the first member has given way
        exact (List.mem_cons.mp h).imp id (List.mem_cons_of_mem _)
      · -- it goes behind the first member
        rcases List.mem_cons.mp h with rfl | h
        · exact .inr (List.mem_cons_self ..)
        · exact (ih h).imp id (List.mem_cons_of_mem _)

/-- **Members stay in the order of their names** when one more is put among them. -/
theorem insertMember_pairwise (name : String) (value : α) {ms : List (String × α)}
    (h : ms.Pairwise fun m n => m.1 < n.1) :
    (insertMember name value ms).Pairwise fun m n => m.1 < n.1 := by
  induction ms with
  | nil => exact List.pairwise_singleton _ _
  | cons first ms ih =>
    obtain ⟨other, x⟩ := first
    obtain ⟨hfirst, hms⟩ := List.pairwise_cons.mp h
    unfold insertMember
    split
    · next hlt =>
      -- what comes behind the first member comes behind the new one too
      refine List.pairwise_cons.mpr ⟨?_, h⟩
      intro m hm
      rcases List.mem_cons.mp hm with rfl | hm
      · exact hlt
      · exact String.lt_trans hlt (hfirst m hm)
    · next hlt =>
      split
      · next heq =>
        -- the name is there already, and its member gives way
        subst heq
        exact List.pairwise_cons.mpr ⟨hfirst, hms⟩
      · next hne =>
        -- it goes behind the first member, which has a smaller name
        have hgt : other < name := Std.lt_of_le_of_ne (String.not_lt.mp hlt) (Ne.symm hne)
        refine List.pairwise_cons.mpr ⟨?_, ih hms⟩
        intro m hm
        rcases mem_insertMember hm with rfl | hm
        · exact hgt
        · exact hfirst m hm

/-- Sorting invents no members. -/
theorem mem_sortMembers {ms : List (String × α)} {m : String × α} (h : m ∈ sortMembers ms) :
    m ∈ ms := by
  -- by the members that are still to be put in, with those that have been already as `acc`
  have key : ∀ ms acc : List (String × α),
      m ∈ ms.foldl (fun acc n => insertMember n.1 n.2 acc) acc → m ∈ ms ∨ m ∈ acc := by
    intro ms
    induction ms with
    | nil => exact fun acc hm => .inr hm
    | cons n ms ih =>
      intro acc hm
      rcases ih _ hm with hm | hm
      · exact .inl (List.mem_cons_of_mem n hm)
      · -- it is the member just put in, or was there before
        rcases mem_insertMember hm with rfl | hm
        · exact .inl (List.mem_cons_self ..)
        · exact .inr hm
  exact (key ms [] h).resolve_right List.not_mem_nil

/-- **Sorted members stand in the order of their names.** -/
theorem sortMembers_pairwise (ms : List (String × α)) :
    (sortMembers ms).Pairwise fun m n => m.1 < n.1 := by
  -- each member that is put in keeps the order of those before
  have key : ∀ ms acc : List (String × α), acc.Pairwise (fun m n => m.1 < n.1) →
      (ms.foldl (fun acc n => insertMember n.1 n.2 acc) acc).Pairwise fun m n => m.1 < n.1 := by
    intro ms
    induction ms with
    | nil => exact fun acc h => h
    | cons n ms ih => exact fun acc h => ih _ (insertMember_pairwise n.1 n.2 h)
  exact key ms [] List.Pairwise.nil

/-- A new name adds a member to those that are there. -/
theorem insertMember_perm {name : String} {value : α} {ms : List (String × α)}
    (h : name ∉ ms.map Prod.fst) : (insertMember name value ms).Perm ((name, value) :: ms) := by
  induction ms with
  | nil => exact List.Perm.refl _
  | cons m ms ih =>
    obtain ⟨other, x⟩ := m
    rw [List.map_cons, List.mem_cons, not_or] at h
    obtain ⟨hne, h⟩ := h
    unfold insertMember
    rw [if_neg hne]
    split
    · -- it goes in front of the first member
      exact List.Perm.refl _
    · -- it goes somewhere behind the first member
      exact ((ih h).cons (other, x)).trans (List.Perm.swap _ _ _)

/-- Members with names of their own are all kept, in whatever order they are put in. -/
theorem foldl_insertMember_perm {ms acc : List (String × α)}
    (h : ((ms ++ acc).map Prod.fst).Nodup) :
    (ms.foldl (fun acc m => insertMember m.1 m.2 acc) acc).Perm (ms ++ acc) := by
  induction ms generalizing acc with
  | nil => exact List.Perm.refl _
  | cons m ms ih =>
    -- the first of them is put among those that are there, and none gives way
    have hperm : (ms ++ insertMember m.1 m.2 acc).Perm (m :: ms ++ acc) := by
      have hnew : m.1 ∉ acc.map Prod.fst := fun hmem =>
        (List.nodup_cons.mp h).1 (by simp [List.mem_map.mp hmem])
      exact ((insertMember_perm hnew).append_left ms).trans List.perm_middle
    refine (ih ?_).trans hperm
    -- a permutation repeats no name either
    exact (hperm.map Prod.fst).nodup_iff.mpr h

/-- **Sorting keeps all members** where no name is repeated. -/
theorem sortMembers_perm {ms : List (String × α)} (h : (ms.map Prod.fst).Nodup) :
    (sortMembers ms).Perm ms := by
  have hperm : (sortMembers ms).Perm (ms ++ []) :=
    foldl_insertMember_perm (by rwa [List.append_nil])
  rwa [List.append_nil] at hperm

end Members

/-! ### Trees without repeated names -/

/-- An array repeats no name just when its items repeat none. -/
theorem hasUniqueKeys_array_iff {js : List Json} :
    (array js).HasUniqueKeys ↔ ∀ j ∈ js, j.HasUniqueKeys := by
  rw [HasUniqueKeys]
  induction js with
  | nil => simp [ItemsHaveUniqueKeys]
  | cons j js ih => rw [ItemsHaveUniqueKeys, ih, List.forall_mem_cons]

/-- An object repeats no name just when neither its own members nor those inside them do. -/
theorem hasUniqueKeys_object_iff {ms : List (String × Json)} :
    (object ms).HasUniqueKeys ↔ (ms.map Prod.fst).Nodup ∧ ∀ m ∈ ms, m.2.HasUniqueKeys := by
  have hmembers : MembersHaveUniqueKeys ms ↔ ∀ m ∈ ms, m.2.HasUniqueKeys := by
    induction ms with
    | nil => simp [MembersHaveUniqueKeys]
    | cons m ms ih => rw [MembersHaveUniqueKeys, ih, List.forall_mem_cons]
  rw [HasUniqueKeys, hmembers]

/-! ### Looking up members -/

/-- There is nothing under a name that no member has. -/
theorem get?_object_eq_none_iff {ms : List (String × Json)} {name : String} :
    (object ms).get? name = none ↔ ∀ m ∈ ms, m.1 ≠ name := by
  rw [get?, members, Option.map_eq_none_iff, List.find?_eq_none]
  simp

/-- What stands under a name is the value of a member with that name. -/
theorem mem_of_get?_object {ms : List (String × Json)} {name : String} {j : Json}
    (h : (object ms).get? name = some j) : (name, j) ∈ ms := by
  obtain ⟨⟨k, i⟩, hfind, rfl⟩ := Option.map_eq_some_iff.mp h
  obtain rfl : k = name := by simpa using List.find?_some hfind
  exact List.mem_of_find?_eq_some hfind

/-- Where no name is repeated, every member is found under its name. -/
theorem get?_object_eq_some_iff {ms : List (String × Json)} (h : (ms.map Prod.fst).Nodup)
    {name : String} {j : Json} : (object ms).get? name = some j ↔ (name, j) ∈ ms := by
  refine ⟨mem_of_get?_object, fun hmem => ?_⟩
  cases hget : (object ms).get? name with
  | none => exact absurd rfl (get?_object_eq_none_iff.mp hget _ hmem)
  | some i =>
    -- two members with one name would be the same member
    have heq := List.inj_on_of_nodup_map h (mem_of_get?_object hget) hmem rfl
    rw [(Prod.mk.inj heq).2]

/-! ### Trees in the order of names -/

/-- **Every object of the value has its members in the order of their names**, each name once. -/
inductive IsSorted : Json → Prop
  | scalar (s : Scalar) : IsSorted (.scalar s)
  | array {js : List Json} (hitems : ∀ j ∈ js, IsSorted j) : IsSorted (.array js)
  | object {ms : List (String × Json)} (horder : ms.Pairwise fun m n => m.1 < n.1)
      (hmembers : ∀ m ∈ ms, IsSorted m.2) : IsSorted (.object ms)

/-- **The sorted form is sorted.** -/
theorem isSorted_sorted (j : Json) : j.sorted.IsSorted := by
  induction j using Json.induction with
  | scalar s => exact .scalar s
  | array js ih =>
    rw [sorted, sortedItems_eq_map]
    -- the items are sorted each by itself
    refine .array ?_
    intro i hi
    obtain ⟨j, hj, rfl⟩ := List.mem_map.mp hi
    exact ih j hj
  | object ms ih =>
    rw [sorted]
    refine .object (sortMembers_pairwise _) ?_
    intro m hm
    -- sorting brings in no new member
    have hm := mem_sortMembers hm
    rw [sortedMembers_eq_map] at hm
    obtain ⟨n, hn, rfl⟩ := List.mem_map.mp hm
    exact ih n hn

/-! ### Rearrangements -/

/-- **A value of which the direct parts have been changed by `g`**, the members of an object
standing in any order. -/
inductive Rearranged (g : Json → Json) : Json → Json → Prop
  | scalar (s : Scalar) : Rearranged g (.scalar s) (.scalar s)
  | array (js : List Json) : Rearranged g (.array js) (.array (js.map g))
  | object {ms ms' : List (String × Json)} (hperm : ms'.Perm (ms.map fun m => (m.1, g m.2))) :
      Rearranged g (.object ms) (.object ms')

theorem rearranged_self (j : Json) : Rearranged id j j := by
  cases j with
  | scalar s => exact .scalar s
  | array js => simpa using Rearranged.array (g := id) js
  | object ms => exact .object (by simp)

/-- **The sorted form is a rearrangement** of the sorted parts, where no name is repeated. -/
theorem rearranged_sorted {j : Json} (h : j.HasUniqueKeys) : Rearranged sorted j j.sorted := by
  cases j with
  | scalar s => exact .scalar s
  | array js =>
    rw [sorted, sortedItems_eq_map]
    exact .array js
  | object ms =>
    -- sorting the values inside the members changes no name
    have hkeys : ((sortedMembers ms).map Prod.fst).Nodup := by
      rw [sortedMembers_eq_map, List.map_map]
      exact (hasUniqueKeys_object_iff.mp h).1
    have hperm := sortMembers_perm hkeys
    rw [sorted]
    exact .object (hperm.trans (by rw [sortedMembers_eq_map]))

/-- **The sorted form has the same members**, each in sorted form. -/
theorem get?_sorted {ms : List (String × Json)} (h : (ms.map Prod.fst).Nodup) (name : String) :
    (object ms).sorted.get? name = ((object ms).get? name).map sorted := by
  have hkeys : ((sortedMembers ms).map Prod.fst).Nodup := by
    rwa [sortedMembers_eq_map, List.map_map]
  have hperm := sortMembers_perm hkeys
  have hkeys' : ((sortMembers (sortedMembers ms)).map Prod.fst).Nodup :=
    (hperm.map Prod.fst).nodup_iff.mpr hkeys
  -- found before sorting or after it, it is the same member
  refine Option.ext fun i => ?_
  rw [sorted, get?_object_eq_some_iff hkeys', hperm.mem_iff, sortedMembers_eq_map,
    Option.map_eq_some_iff]
  simp only [get?_object_eq_some_iff h, List.mem_map, Prod.exists, Prod.mk.injEq]
  refine ⟨?_, ?_⟩
  · rintro ⟨_, j, hj, rfl, rfl⟩
    exact ⟨j, hj, rfl⟩
  · rintro ⟨j, hj, rfl⟩
    exact ⟨name, j, hj, rfl, rfl⟩

end Json

end Introspect

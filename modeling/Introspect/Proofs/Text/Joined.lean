/-!
# Joined texts are taken apart again

A text that was joined from pieces tells its pieces, as long as none of them contains the character
that the separator starts with.

* `Text.append_cons_inj` — a list up to its first element of some kind: what comes before that
  element, the element, and what comes behind it are determined;
* `Text.exists_first_cons_iff` — where that element is;
* `Text.intercalate_inj` — pieces that were joined, which `append_cons_inj` cuts off one by one;
* `Text.exists_infix_of_infix_intercalate` — what is found in joined pieces is found in one of them,
  unless it has the separator in it;
* `Text.joined_inj`, `Text.joined_inj_of_ne_empty` — the same for texts, the second one also for no
  pieces at all, where none of them is empty;
* `Text.listed` — pieces joined by a comma and a space, as words with a space between them: each but
  the last takes its comma along.
-/

namespace Introspect.Text

/-! ### Up to the first element of a kind -/

section Lists

variable {α : Type}

/-- **The first element of a kind cuts a list in two**, in one way only. -/
theorem append_cons_inj {p : α → Prop} {us vs rs ss : List α} {a b : α} (hus : ∀ u ∈ us, ¬p u)
    (hvs : ∀ v ∈ vs, ¬p v) (ha : p a) (hb : p b) (h : us ++ a :: rs = vs ++ b :: ss) :
    us = vs ∧ a = b ∧ rs = ss := by
  -- by the first list; the one that ends first has the element where the other goes on
  induction us generalizing vs with
  | nil =>
    cases vs with
    | nil =>
      obtain ⟨rfl, rfl⟩ := List.cons.inj h
      exact ⟨rfl, rfl, rfl⟩
    | cons v vs =>
      obtain ⟨rfl, -⟩ := List.cons.inj h
      exact absurd ha (hvs a (List.mem_cons_self ..))
  | cons u us ih =>
    cases vs with
    | nil =>
      obtain ⟨rfl, -⟩ := List.cons.inj h
      exact absurd hb (hus u (List.mem_cons_self ..))
    | cons v vs =>
      obtain ⟨hhead, htail⟩ := List.cons.inj h
      obtain ⟨-, hus⟩ := List.forall_mem_cons.mp hus
      obtain ⟨-, hvs⟩ := List.forall_mem_cons.mp hvs
      obtain ⟨rfl, hab, hrest⟩ := ih hus hvs htail
      exact ⟨by rw [hhead], hab, hrest⟩

/-- The same when the element is known. -/
theorem append_cons_inj_of_notMem {c : α} {us vs rs ss : List α} (hus : c ∉ us) (hvs : c ∉ vs)
    (h : us ++ c :: rs = vs ++ c :: ss) : us = vs ∧ rs = ss := by
  have hother {ws : List α} (hws : c ∉ ws) : ∀ w ∈ ws, ¬w = c := fun w hw hwc => hws (hwc ▸ hw)
  obtain ⟨rfl, -, rfl⟩ := append_cons_inj (hother hus) (hother hvs) rfl rfl h
  exact ⟨rfl, rfl⟩

/-- **The first element of which one thing holds**, while another holds of all before it, is the
head of the list or the first in its tail. -/
theorem exists_first_cons_iff {good bad : α → Prop} {x : α} {xs : List α} :
    (∃ before y after, x :: xs = before ++ y :: after ∧ (∀ z ∈ before, good z) ∧ bad y) ↔
      bad x ∨ good x ∧
        ∃ before y after, xs = before ++ y :: after ∧ (∀ z ∈ before, good z) ∧ bad y := by
  refine ⟨?_, ?_⟩
  · rintro ⟨before, y, after, h, hbefore, hy⟩
    cases before with
    | nil =>
      obtain ⟨rfl, -⟩ := List.cons.inj h
      exact .inl hy
    | cons z before =>
      obtain ⟨rfl, htail⟩ := List.cons.inj h
      obtain ⟨hz, hbefore⟩ := List.forall_mem_cons.mp hbefore
      exact .inr ⟨hz, before, y, after, htail, hbefore, hy⟩
  · rintro (hx | ⟨hx, before, y, after, rfl, hbefore, hy⟩)
    · exact ⟨[], x, xs, rfl, List.forall_mem_nil _, hx⟩
    · exact ⟨x :: before, y, after, rfl, List.forall_mem_cons.mpr ⟨hx, hbefore⟩, hy⟩

/-! ### Joined pieces -/

/-- **Joined pieces are determined**, where no piece contains the first element of the separator. -/
theorem intercalate_inj {c : α} {sep : List α} {us vs : List (List α)} (hus : ∀ u ∈ us, c ∉ u)
    (hvs : ∀ v ∈ vs, c ∉ v) (hne : us ≠ []) (hne' : vs ≠ [])
    (h : (c :: sep).intercalate us = (c :: sep).intercalate vs) : us = vs := by
  -- one piece has no separator, more than one piece start with one piece and a separator
  have hmore (u : List α) {ws : List (List α)} (hws : ws ≠ []) :
      (c :: sep).intercalate (u :: ws) = u ++ c :: (sep ++ (c :: sep).intercalate ws) := by
    rw [List.intercalate_cons_of_ne_nil hws, List.append_assoc, List.cons_append]
  induction us generalizing vs with
  | nil => exact absurd rfl hne
  | cons u us ih =>
    obtain ⟨hu, hus⟩ := List.forall_mem_cons.mp hus
    cases vs with
    | nil => exact absurd rfl hne'
    | cons v vs =>
      obtain ⟨hv, hvs⟩ := List.forall_mem_cons.mp hvs
      -- either side may have one piece or more
      by_cases hnil : us = [] <;> by_cases hnil' : vs = []
      · subst hnil hnil'
        rw [List.intercalate_singleton, List.intercalate_singleton] at h
        rw [h]
      · -- a separator on the right only
        subst hnil
        rw [List.intercalate_singleton, hmore v hnil'] at h
        exact absurd (by rw [h]; simp) hu
      · -- a separator on the left only
        subst hnil'
        rw [List.intercalate_singleton, hmore u hnil] at h
        exact absurd (by rw [← h]; simp) hv
      · -- the first separators stand at the same place
        rw [hmore u hnil, hmore v hnil'] at h
        obtain ⟨hhead, hrest⟩ := append_cons_inj_of_notMem hu hv h
        rw [hhead, ih hus hvs hnil hnil' (List.append_cancel_left hrest)]

/-- What stands neither in the separator nor in a piece does not stand in what is joined. -/
theorem notMem_intercalate {c : α} {sep : List α} {us : List (List α)} (hsep : c ∉ sep)
    (hus : ∀ u ∈ us, c ∉ u) : c ∉ sep.intercalate us := by
  -- by the pieces, with a separator behind each but the last
  induction us with
  | nil => exact List.not_mem_nil
  | cons u us ih =>
    obtain ⟨hu, hus⟩ := List.forall_mem_cons.mp hus
    by_cases hnil : us = []
    · rwa [hnil, List.intercalate_singleton]
    · rw [List.intercalate_cons_of_ne_nil hnil]
      simp [hu, hsep, ih hus]

/-- What stands before or behind a separator does not reach across it. -/
theorem infix_of_infix_append_cons {c : α} {w us vs : List α} (hw : c ∉ w)
    (h : w <:+: us ++ c :: vs) : w <:+: us ∨ w <:+: vs := by
  -- behind `us` a beginning of `w` can only be empty, as it would start with `c`
  have hbehind {r : List α} (hr : c ∉ r) (hrest : r <+: c :: vs) : r = [] := by
    obtain rfl | ⟨t, rfl, -⟩ := List.prefix_cons_iff.mp hrest
    · rfl
    · exact absurd (List.mem_cons_self ..) hr
  -- before the separator, behind it, or across it
  obtain hus | hvs | ⟨l, r, rfl, hl, hr⟩ := List.infix_append_iff.mp h
  · exact .inl hus
  · obtain hvs | hvs := List.infix_cons_iff.mp hvs
    · rw [hbehind hw hvs]
      exact .inr List.nil_infix
    · exact .inr hvs
  · rw [hbehind (fun hmem => hw (List.mem_append_right l hmem)) hr, List.append_nil]
    exact .inl hl.isInfix

/-- **What is found in joined pieces** and has no separator in it is found in one piece. -/
theorem exists_infix_of_infix_intercalate {c : α} {w : List α} {us : List (List α)} (hw : c ∉ w)
    (hne : w ≠ []) (h : w <:+: [c].intercalate us) : ∃ u ∈ us, w <:+: u := by
  -- by the pieces; what is found lies before the first separator or behind it
  induction us with
  | nil => exact absurd (List.infix_nil.mp h) hne
  | cons u us ih =>
    by_cases hnil : us = []
    · rw [hnil, List.intercalate_singleton] at h
      exact ⟨u, List.mem_cons_self .., h⟩
    · rw [List.intercalate_cons_of_ne_nil hnil, List.append_assoc, List.singleton_append] at h
      obtain hu | hus := infix_of_infix_append_cons hw h
      · exact ⟨u, List.mem_cons_self .., hu⟩
      · obtain ⟨v, hv, hwv⟩ := ih hus
        exact ⟨v, List.mem_cons_of_mem u hv, hwv⟩

/-- A piece is found in what it was joined to. -/
theorem infix_intercalate {sep u : List α} {us : List (List α)} (hu : u ∈ us) :
    u <:+: sep.intercalate us := by
  -- by the pieces in front of it
  induction us with
  | nil => exact absurd hu List.not_mem_nil
  | cons v us ih =>
    by_cases hnil : us = []
    · subst hnil
      obtain rfl := List.mem_singleton.mp hu
      simp only [List.intercalate_singleton, List.infix_refl]
    · rw [List.intercalate_cons_of_ne_nil hnil, List.append_assoc]
      obtain rfl | hu := List.mem_cons.mp hu
      · exact List.infix_append_left
      · exact (ih hu).trans (List.infix_append_right.trans List.infix_append_right)

/-- Lists are the same when their images are, under a function that is injective on the elements. -/
theorem map_inj_of_forall_mem {β : Type} {f : α → β} {p : α → Prop} {us vs : List α}
    (hf : ∀ u v, p u → p v → f u = f v → u = v) (hus : ∀ u ∈ us, p u) (hvs : ∀ v ∈ vs, p v)
    (h : us.map f = vs.map f) : us = vs := by
  induction us generalizing vs with
  | nil => exact (List.map_eq_nil_iff.mp h.symm).symm
  | cons u us ih =>
    cases vs with
    | nil => exact absurd h (List.cons_ne_nil _ _)
    | cons v vs =>
      obtain ⟨hu, hus⟩ := List.forall_mem_cons.mp hus
      obtain ⟨hv, hvs⟩ := List.forall_mem_cons.mp hvs
      obtain ⟨hhead, htail⟩ := List.cons.inj h
      rw [hf u v hu hv hhead, ih hus hvs htail]

end Lists

/-- **Joined strings are determined** likewise. -/
theorem joined_inj {c : Char} {sep : String} (hsep : sep.toList.head? = some c)
    {us vs : List String} (hus : ∀ u ∈ us, c ∉ u.toList) (hvs : ∀ v ∈ vs, c ∉ v.toList)
    (hne : us ≠ []) (hne' : vs ≠ []) (h : sep.intercalate us = sep.intercalate vs) : us = vs := by
  -- characters instead of strings, so that the lists of pieces can be compared
  obtain ⟨cs, hcs⟩ := List.head?_eq_some_iff.mp hsep
  have hchars := congrArg String.toList h
  rw [String.toList_intercalate, String.toList_intercalate, hcs] at hchars
  refine (List.map_inj_right fun _ _ => String.toList_inj.mp).mp
    (intercalate_inj ?_ ?_ ?_ ?_ hchars)
  · simpa using hus
  · simpa using hvs
  · simpa using hne
  · simpa using hne'

/-- A character that stands in no piece, nor in the separator, is not in the joined text. -/
theorem notMem_joined {c : Char} {sep : String} {us : List String} (hsep : c ∉ sep.toList)
    (hus : ∀ u ∈ us, c ∉ u.toList) : c ∉ (sep.intercalate us).toList := by
  rw [String.toList_intercalate]
  exact notMem_intercalate hsep (by simpa using hus)

/-- Pieces of which none is empty are joined to something that is not empty. -/
theorem joined_eq_empty {sep : String} {us : List String} (hus : ∀ u ∈ us, u ≠ "")
    (h : sep.intercalate us = "") : us = [] := by
  cases us with
  | nil => rfl
  | cons u us =>
    obtain ⟨hu, -⟩ := List.forall_mem_cons.mp hus
    by_cases hnil : us = []
    · -- a single piece is the joined text
      rw [hnil, String.intercalate_singleton] at h
      exact absurd h hu
    · rw [String.intercalate_cons_of_ne_nil hnil, String.append_eq_empty_iff,
        String.append_eq_empty_iff] at h
      exact absurd h.1.1 hu

/-- Pieces of which none is empty may also be none at all. -/
theorem joined_inj_of_ne_empty {c : Char} {sep : String} (hsep : sep.toList.head? = some c)
    {us vs : List String} (hus : ∀ u ∈ us, c ∉ u.toList) (hvs : ∀ v ∈ vs, c ∉ v.toList)
    (hus' : ∀ u ∈ us, u ≠ "") (hvs' : ∀ v ∈ vs, v ≠ "")
    (h : sep.intercalate us = sep.intercalate vs) : us = vs := by
  -- only an empty list is joined to nothing, so an empty list is met by another one
  by_cases hne : us = []
  · subst hne
    exact (joined_eq_empty hvs' h.symm).symm
  · by_cases hne' : vs = []
    · subst hne'
      exact joined_eq_empty hus' h
    · exact joined_inj hsep hus hvs hne hne' h

/-- A piece may be given as the pieces that it was joined from. -/
theorem intercalate_piece {sep w : String} {ws : List String} (hne : ws ≠ [])
    (h : sep.intercalate ws = w) (us vs : List String) :
    sep.intercalate (us ++ (ws ++ vs)) = sep.intercalate (us ++ w :: vs) := by
  -- behind the pieces the texts are the same, and so they are with other pieces before them
  have hbehind : sep.intercalate (ws ++ vs) = sep.intercalate (w :: vs) := by
    by_cases hvs : vs = []
    · rw [hvs, List.append_nil, String.intercalate_singleton, h]
    · rw [String.intercalate_append_of_ne_nil hne hvs, String.intercalate_cons_of_ne_nil hvs, h]
  by_cases hus : us = []
  · rw [hus, List.nil_append, List.nil_append, hbehind]
  · rw [String.intercalate_append_of_ne_nil hus (List.append_ne_nil_of_left_ne_nil hne vs),
      String.intercalate_append_of_ne_nil hus (List.cons_ne_nil w vs), hbehind]

/-! ### Lists with commas -/

/-- **The words of a list with commas**: every piece but the last with a comma behind it. -/
def listed : List String → List String
  | [] => []
  | [s] => [s]
  | s :: t :: rest => (s ++ ",") :: listed (t :: rest)

/-- Where there are pieces there are words. -/
theorem listed_ne_nil {ss : List String} (h : ss ≠ []) : listed ss ≠ [] := by
  cases ss with
  | nil => exact absurd rfl h
  | cons s ss => cases ss <;> exact List.cons_ne_nil _ _

/-- The words with a space between them are the pieces with a comma and a space between them. -/
theorem intercalate_listed (ss : List String) :
    " ".intercalate (listed ss) = ", ".intercalate ss := by
  -- by the pieces: the comma of each goes with it, and the space becomes the separator
  induction ss with
  | nil => rfl
  | cons s ss ih =>
    cases ss with
    | nil => rfl
    | cons t ss =>
      have hcomma : s ++ "," ++ " " = s ++ ", " := String.append_assoc
      rw [listed, String.intercalate_cons_of_ne_nil (listed_ne_nil (List.cons_ne_nil _ _)), ih,
        String.intercalate_cons_of_ne_nil (List.cons_ne_nil _ _), hcomma]

/-- A character other than the comma is in a word only if it is in a piece. -/
theorem notMem_of_mem_listed {c : Char} (hc : c ≠ ',') {ss : List String}
    (h : ∀ s ∈ ss, c ∉ s.toList) : ∀ w ∈ listed ss, c ∉ w.toList := by
  induction ss with
  | nil => exact fun w hw => absurd hw List.not_mem_nil
  | cons s ss ih =>
    obtain ⟨hs, hss⟩ := List.forall_mem_cons.mp h
    cases ss with
    | nil => exact List.forall_mem_singleton.mpr hs
    | cons t ss =>
      refine List.forall_mem_cons.mpr ⟨?_, ih hss⟩
      rw [String.toList_append]
      simpa [hc] using hs

/-- **The words tell the pieces**, since all of them but the last have lost their comma. -/
theorem listed_injective {ss ts : List String} (h : listed ss = listed ts) : ss = ts := by
  -- by the pieces; there are as many words as pieces, and only the last word keeps no comma
  induction ss generalizing ts with
  | nil =>
    cases ts with
    | nil => rfl
    | cons t ts => exact absurd h.symm (listed_ne_nil (List.cons_ne_nil _ _))
  | cons s ss ih =>
    cases ts with
    | nil => exact absurd h (listed_ne_nil (List.cons_ne_nil _ _))
    | cons t ts =>
      cases ss with
      | nil =>
        cases ts with
        | nil => exact h
        | cons t' ts => exact absurd (List.cons.inj h).2.symm (listed_ne_nil (List.cons_ne_nil _ _))
      | cons s' ss =>
        cases ts with
        | nil => exact absurd (List.cons.inj h).2 (listed_ne_nil (List.cons_ne_nil _ _))
        | cons t' ts =>
          obtain ⟨hhead, htail⟩ := List.cons.inj h
          rw [ih htail, (String.append_left_inj ",").mp hhead]

end Introspect.Text

import Introspect.Proofs.Text.Joined
import Mathlib.Data.List.Infix

/-!
# Splitting a text at a separator

A text is taken apart at a separator by going through it from the left: wherever the separator
stands a piece ends, and what stands behind it is looked at afresh, so that no two separators
overlap. Joining pieces and splitting what was joined gives the pieces back, unless one of them has
the separator in it. For that no separator may arise across the border of a piece and a separator,
and none can if the first character of the separator does not come again in it.

* `Text.splitFrom`, `Text.split` — splitting;
* `Text.places` — at how many places a text stands in another one, overlapping or not;
* `Text.not_isPrefix_append` — no separator arises across a border;
* `Text.splitFrom_intercalate`, `Text.places_intercalate` — hence what was joined is split at its
  separators and nowhere else, by induction on the pieces.
-/

namespace Introspect.Text

/-! ### Splitting and counting -/

/-- **The pieces of a text**, of which the first `skip` characters belong to a separator that has
been found already. -/
def splitFrom (sep : List Char) : Nat → List Char → List (List Char)
  | _, [] => [[]]
  | skip + 1, _ :: cs => splitFrom sep skip cs
  | 0, c :: cs =>
    if sep.isPrefixOf (c :: cs) then [] :: splitFrom sep (sep.length - 1) cs
    else (splitFrom sep 0 cs).modifyHead (c :: ·)

/-- **A text split at every separator**, found from the left and without overlap. -/
def split (sep s : String) : List String :=
  (splitFrom sep.toList 0 s.toList).map String.ofList

/-- **The number of places at which a text stands in another one.** -/
def places (part cs : List Char) : Nat :=
  cs.tails.countP part.isPrefixOf

section Lists

variable {c : Char} {tail p rest cs : List Char}

/-! ### Where a separator stands -/

/-- **No separator arises across the border of a piece**: it would have to reach into the separator
behind the piece, and so contain its first character twice. -/
theorem not_isPrefix_append {d : Char} (hc : c ∉ tail) (hp : ¬c :: tail <+: d :: p)
    (rest : List Char) : ¬c :: tail <+: d :: (p ++ (c :: tail ++ rest)) := by
  rintro ⟨r, hr⟩
  rw [← List.cons_append] at hr
  obtain ⟨l, hl, -⟩ | ⟨l, hl, hrest⟩ := List.append_eq_append_iff.mp hr
  · -- the separator ends within the piece
    exact hp (hl ▸ List.prefix_append _ l)
  · cases l with
    | nil =>
      -- the separator ends where the piece does
      exact hp (by rw [hl, List.append_nil])
    | cons e l =>
      -- the separator behind the piece begins in the tail of this one
      obtain ⟨rfl, -⟩ := List.cons.inj hrest
      obtain ⟨-, htail⟩ := List.cons.inj hl
      exact hc (htail ▸ by simp)

/-! ### Splitting -/

/-- What still belongs to a separator is passed over. -/
theorem splitFrom_skip (sep : List Char) (n : Nat) (cs : List Char) :
    splitFrom sep n cs = splitFrom sep 0 (cs.drop n) := by
  -- one character at a time
  induction n generalizing cs with
  | zero => rfl
  | succ n ih =>
    cases cs with
    | nil => rfl
    | cons d cs => exact ih cs

/-- A separator at the front ends an empty piece. -/
theorem splitFrom_separator (rest : List Char) :
    splitFrom (c :: tail) 0 (c :: tail ++ rest) = [] :: splitFrom (c :: tail) 0 rest := by
  have hstart : (c :: tail).isPrefixOf (c :: (tail ++ rest)) = true :=
    List.isPrefixOf_iff_prefix.mpr (List.prefix_append (c :: tail) rest)
  rw [List.cons_append, splitFrom, if_pos hstart, splitFrom_skip, List.length_cons,
    Nat.add_sub_cancel, List.drop_left]

/-- A character with which no separator begins belongs to the first piece. -/
theorem splitFrom_cons {sep : List Char} {d : Char} (h : ¬sep <+: d :: cs) :
    splitFrom sep 0 (d :: cs) = (splitFrom sep 0 cs).modifyHead (d :: ·) := by
  rw [splitFrom, if_neg (mt List.isPrefixOf_iff_prefix.mp h)]

/-- A text without a separator is one piece. -/
theorem splitFrom_of_not_infix {sep : List Char} (h : ¬sep <:+: cs) :
    splitFrom sep 0 cs = [cs] := by
  -- by the text: the separator begins at none of its characters
  induction cs with
  | nil => rfl
  | cons d cs ih =>
    obtain ⟨hstart, hcs⟩ := not_or.mp (mt List.infix_cons_iff.mpr h)
    rw [splitFrom_cons hstart, ih hcs, List.modifyHead_cons]

/-- **The first piece ends at the first separator.** -/
theorem splitFrom_append (hc : c ∉ tail) (hp : ¬c :: tail <:+: p) :
    splitFrom (c :: tail) 0 (p ++ (c :: tail ++ rest)) =
      p :: splitFrom (c :: tail) 0 rest := by
  -- by the piece: none of its characters begins a separator, not even across its end
  induction p with
  | nil => exact splitFrom_separator rest
  | cons d p ih =>
    obtain ⟨hstart, hp⟩ := not_or.mp (mt List.infix_cons_iff.mpr hp)
    have hborder := not_isPrefix_append hc hstart rest
    rw [List.cons_append, splitFrom_cons hborder, ih hp, List.modifyHead_cons]

/-- **Pieces that were joined are found again**, if none of them has the separator in it. -/
theorem splitFrom_intercalate (hc : c ∉ tail) {us : List (List Char)} (hne : us ≠ [])
    (hus : ∀ u ∈ us, ¬c :: tail <:+: u) :
    splitFrom (c :: tail) 0 ((c :: tail).intercalate us) = us := by
  -- by the pieces, each of which is cut off with the separator behind it
  induction us with
  | nil => exact absurd rfl hne
  | cons u us ih =>
    obtain ⟨hu, hus⟩ := List.forall_mem_cons.mp hus
    by_cases hnil : us = []
    · rw [hnil, List.intercalate_singleton, splitFrom_of_not_infix hu]
    · rw [List.intercalate_cons_of_ne_nil hnil, List.append_assoc, splitFrom_append hc hu,
        ih hnil hus]

/-! ### Counting -/

/-- A part is counted once more if it begins at the front. -/
theorem places_cons (part : List Char) (d : Char) (cs : List Char) :
    places part (d :: cs) = places part cs + if part <+: d :: cs then 1 else 0 := by
  rw [places, List.tails_cons, List.countP_cons]
  simp only [List.isPrefixOf_iff_prefix]
  rfl

/-- A text stands nowhere in another one that does not contain it. -/
theorem places_of_not_infix {part : List Char} (h : ¬part <:+: cs) : places part cs = 0 := by
  refine List.countP_eq_zero.mpr fun t ht => ?_
  rw [List.isPrefixOf_iff_prefix]
  exact fun hpart => h (hpart.isInfix.trans ((List.mem_tails t cs).mp ht).isInfix)

/-- Behind a separator the next one begins in what follows. -/
theorem places_append_of_notMem (hc : c ∉ p) : places (c :: tail) (p ++ rest) =
    places (c :: tail) rest := by
  induction p with
  | nil => rfl
  | cons d p ih =>
    obtain ⟨hd, hp⟩ := List.ne_and_not_mem_of_not_mem_cons hc
    have hstart : ¬c :: tail <+: d :: (p ++ rest) := fun h => hd (List.cons_prefix_cons.mp h).1
    rw [List.cons_append, places_cons, if_neg hstart, Nat.add_zero, ih hp]

/-- **A piece and the separator behind it have one separator.** -/
theorem places_append (hc : c ∉ tail) (hp : ¬c :: tail <:+: p) :
    places (c :: tail) (p ++ (c :: tail ++ rest)) = places (c :: tail) rest + 1 := by
  -- by the piece: the separator does not begin in it, and once behind it
  induction p with
  | nil =>
    have hstart : c :: tail <+: c :: (tail ++ rest) := List.prefix_append (c :: tail) rest
    rw [List.nil_append, List.cons_append, places_cons, if_pos hstart,
      places_append_of_notMem hc]
  | cons d p ih =>
    obtain ⟨hstart, hp⟩ := not_or.mp (mt List.infix_cons_iff.mpr hp)
    have hborder := not_isPrefix_append hc hstart rest
    rw [List.cons_append, places_cons, if_neg hborder, Nat.add_zero, ih hp]

/-- **Joined pieces have as many separators as they were joined with.** -/
theorem places_intercalate (hc : c ∉ tail) {us : List (List Char)}
    (hus : ∀ u ∈ us, ¬c :: tail <:+: u) :
    places (c :: tail) ((c :: tail).intercalate us) = us.length - 1 := by
  -- by the pieces, each of which but the last is followed by one separator
  induction us with
  | nil => rfl
  | cons u us ih =>
    obtain ⟨hu, hus⟩ := List.forall_mem_cons.mp hus
    by_cases hnil : us = []
    · rw [hnil, List.intercalate_singleton, places_of_not_infix hu, List.length_singleton]
    · have hlength : 0 < us.length := List.length_pos_of_ne_nil hnil
      rw [List.intercalate_cons_of_ne_nil hnil, List.append_assoc, places_append hc hu, ih hus,
        List.length_cons]
      omega

end Lists

/-- **A text that was joined from pieces is split into them**, and has a separator between each of
them and the next, but nowhere else. -/
theorem split_intercalate {c : Char} {sep : String} {tail : List Char}
    (hsep : sep.toList = c :: tail) (hc : c ∉ tail) {us : List String}
    (hus : ∀ u ∈ us, ¬sep.toList <:+: u.toList) :
    (us ≠ [] → split sep (sep.intercalate us) = us) ∧
      places sep.toList (sep.intercalate us).toList = us.length - 1 := by
  have hpieces : ∀ u ∈ us.map String.toList, ¬c :: tail <:+: u := by
    simpa only [List.forall_mem_map, hsep] using hus
  -- characters instead of strings
  rw [String.toList_intercalate, hsep]
  refine ⟨fun hne => ?_, ?_⟩
  · have hne : us.map String.toList ≠ [] := mt List.map_eq_nil_iff.mp hne
    rw [split, String.toList_intercalate, hsep, splitFrom_intercalate hc hne hpieces,
      List.map_map]
    simp
  · rw [places_intercalate hc hpieces, List.length_map]

end Introspect.Text

import Introspect.Modifier.Text
import Introspect.Proofs.Modifier.Bits
import Introspect.Proofs.Text.Blank
import Introspect.Proofs.Text.Hex
import Mathlib.Data.List.Forall2

/-!
# The text of a set of modifiers is read back

`ModifierSet.ofText_text` — every set, with all its sixteen bits, is what its text is read as.

The text is a list of parts with ` | ` between them (`ModifierSet.textParts`). Splitting it at each
bar gives the parts back, padded with the blanks around the bars, which trimming removes; and each
part is read as the bits that it was written for (`ModifierSet.IsPart`). What remains is that these
bits together are the bits of the set.
-/

namespace Introspect

open Text (isBlank trimChars trimChars_pad)

namespace ModifierSet

/-! ### Parts -/

/-- The parts of the text of a set. -/
def textParts (s : ModifierSet) : List String :=
  s.toList.map Modifier.constant ++ if s.unknown = 0 then [] else [hexText s.unknown]

/-- What the parts of the text of a set stand for. -/
def partSets (s : ModifierSet) : List ModifierSet :=
  s.toList.map single ++ if s.unknown = 0 then [] else [⟨s.unknown⟩]

/-- **A text that can be a part**: it is read as `t`, no bar and no outer blank disturbs it. -/
structure IsPart (t : ModifierSet) (part : List Char) : Prop where
  bar_notMem : '|' ∉ part
  trim_eq : trimChars part = part
  not_blank : part.all isBlank = false
  read_eq : ofPart part = .ok t

/-- The constant name of a modifier is a part, read as that modifier. -/
theorem isPart_constant (m : Modifier) : IsPart (single m) m.constant.toList := by
  constructor <;> cases m <;> decide

/-- The digits of bits are read as these bits. -/
theorem ofHex?_toDigits (bits : UInt16) :
    ofHex? (Nat.toDigits 16 bits.toNat) = some bits := by
  -- a sign in front would be dropped, but digits are no signs
  have hplus : ∀ ds, Nat.toDigits 16 bits.toNat ≠ '+' :: ds := by
    intro ds hds
    have hdigit : ∀ c ∈ Nat.toDigits 16 bits.toNat, c ≠ '+' :=
      Text.forall_mem_toDigits (by decide) _
    exact hdigit '+' (by rw [hds]; simp) rfl
  unfold ofHex?
  split
  · next ds hds => exact absurd hds (hplus ds)
  · cases hds : Nat.toDigits 16 bits.toNat with
    | nil => exact absurd hds Nat.toDigits_ne_nil
    | cons d ds =>
      simp only
      rw [← hds, Text.hexValue?_toDigits]
      simp [bits.toNat_lt_size]

/-- The number of bits is a part, read as these bits. -/
theorem isPart_hexText (bits : UInt16) : IsPart ⟨bits⟩ (hexText bits).toList := by
  have hclean : ∀ c ∈ Nat.toDigits 16 bits.toNat, c ≠ '|' ∧ isBlank c = false :=
    Text.forall_mem_toDigits (by decide) _
  have htext : (hexText bits).toList = '0' :: 'x' :: Nat.toDigits 16 bits.toNat := by
    rw [hexText, String.toList_ofList]
  rw [htext]
  refine ⟨?_, ?_, by rfl, ?_⟩
  · -- no bar among the characters
    intro hbar
    simp only [List.mem_cons] at hbar
    rcases hbar with hbar | hbar | hbar
    · exact absurd hbar (by decide)
    · exact absurd hbar (by decide)
    · exact (hclean _ hbar).1 rfl
  · -- the first character is the zero of the prefix, the last a digit
    apply Text.trimChars_eq_self
    · intro c hc
      obtain rfl : '0' = c := by simpa using hc
      rfl
    · intro c hc
      have hlast : c ∈ Nat.toDigits 16 bits.toNat := by
        rw [List.getLast?_cons_cons, List.getLast?_cons_of_ne_nil Nat.toDigits_ne_nil] at hc
        exact List.mem_of_mem_getLast? hc
      exact (hclean c hlast).2
  · simp only [ofPart, ofHex?_toDigits]

/-! ### Splitting and reading -/

/-- **Parts joined by bars are read one by one.** The blanks before the first part are those behind
a bar that has been passed already. -/
theorem ofParts_splitOn {before : List Char} (hblank : ∀ c ∈ before, c = ' ')
    {ts : List ModifierSet} {parts : List (List Char)} (h : List.Forall₂ IsPart ts parts)
    (hne : parts ≠ []) (s : ModifierSet) :
    ofParts s ((before ++ [' ', '|', ' '].intercalate parts).splitOn '|') =
      .ok (ts.foldl (· ∪ ·) s) := by
  have hpad : ∀ c ∈ before, isBlank c = true := fun c hc => by rw [hblank c hc]; rfl
  have hbar : '|' ∉ before := fun hmem => absurd (hblank _ hmem) (by decide)
  -- by the parts; the blanks before the next one are those behind the bar
  induction h generalizing before s with
  | nil => exact absurd rfl hne
  | @cons t part ts parts hpart hparts ih =>
    cases hparts with
    | nil =>
      -- the last part: there is no bar any more
      have hsplit : (before ++ part).splitOn '|' = [before ++ part] := by
        apply List.splitOn_eq_singleton
        simpa using ⟨hbar, hpart.bar_notMem⟩
      have htrim : trimChars (before ++ part) = part := by
        have hpad' := trimChars_pad hpad (List.forall_mem_nil _) part
        rwa [List.append_nil, hpart.trim_eq] at hpad'
      rw [List.intercalate_singleton, hsplit]
      simp only [ofParts, htrim, hpart.read_eq, List.foldl_cons, List.foldl_nil]
    | @cons u next us nexts hnext hnexts =>
      -- a part, a bar, and the space behind the bar in front of what follows
      have hassoc : before ++ [' ', '|', ' '].intercalate (part :: next :: nexts) =
          (before ++ part ++ [' ']) ++
            '|' :: ([' '] ++ [' ', '|', ' '].intercalate (next :: nexts)) := by
        rw [List.intercalate_cons_cons]
        simp
      have hsplit : '|' ∉ before ++ part ++ [' '] := by
        simpa using ⟨hbar, hpart.bar_notMem⟩
      have htrim : trimChars (before ++ part ++ [' ']) = part := by
        rw [trimChars_pad hpad Text.isBlank_of_mem_space, hpart.trim_eq]
      rw [hassoc, List.splitOn_append_cons_self_of_not_mem hsplit]
      simp only [ofParts, htrim, hpart.read_eq, List.foldl_cons]
      exact ih (by simp) (by simp) (s ∪ t) Text.isBlank_of_mem_space (by decide)

/-- Part by part, the text says what the set has. -/
theorem forall₂_textParts (s : ModifierSet) :
    List.Forall₂ IsPart s.partSets (s.textParts.map String.toList) := by
  unfold partSets textParts
  rw [List.map_append]
  refine List.rel_append ?_ ?_
  · -- the names of the modifiers
    induction s.toList with
    | nil => exact .nil
    | cons m ms ih => exact .cons (isPart_constant m) ih
  · -- the unknown bits, if there are any
    split
    · exact .nil
    · exact .cons (isPart_hexText _) .nil

/-- The parts of a set stand for all its bits. -/
theorem foldl_partSets (s : ModifierSet) : s.partSets.foldl (· ∪ ·) ∅ = s := by
  rw [partSets, List.foldl_append, foldl_union_single]
  have hall := s.known_or_unknown
  split
  · next hzero =>
    -- without unknown bits the known ones are all
    rw [hzero, UInt16.or_zero] at hall
    ext
    simp [hall]
  · ext
    simp [hall]

/-- **The text of a set is read back.** -/
theorem ofText_text (s : ModifierSet) : ofText s.text = .ok s := by
  have htext : s.text.toList = [' ', '|', ' '].intercalate (s.textParts.map String.toList) :=
    String.toList_intercalate
  have hparts := s.forall₂_textParts
  have hfold := s.foldl_partSets
  unfold ofText
  rw [htext]
  cases hp : s.textParts.map String.toList with
  | nil =>
    -- no parts: the set is empty, and so is its text
    rw [hp] at hparts
    cases hs : s.partSets with
    | cons => rw [hs] at hparts; cases hparts
    | nil =>
      rw [hs] at hfold
      rw [← hfold]
      rfl
  | cons part parts =>
    rw [hp] at hparts
    cases hs : s.partSets with
    | nil => rw [hs] at hparts; cases hparts
    | cons t ts =>
      rw [hs] at hparts hfold
      -- the text is not blank, because its first part is not
      have hpart : part.all isBlank = false := by
        cases hparts with
        | cons h _ => exact h.not_blank
      have hall : ([' ', '|', ' '].intercalate (part :: parts)).all isBlank = false := by
        cases parts with
        | nil => simpa using hpart
        | cons next nexts =>
          rw [List.intercalate_cons_cons, List.all_append, List.all_append, hpart]
          rfl
      rw [if_neg (by rw [hall]; decide)]
      have hread := ofParts_splitOn (List.forall_mem_nil _) hparts (by simp) ∅
      rwa [hfold] at hread

end ModifierSet

end Introspect

import Introspect.Proofs.Modifier.Bits
import Introspect.Proofs.Text.Joined
import Introspect.Text.Blank

/-!
# Keywords of a set of modifiers

The keywords that a set shows say which modifiers are in it, and nothing else.

* `ModifierSet.keywords_eq_iff` — the keywords of two sets are the same just when the known
  bits are;
* `ModifierSet.keywords_union_interface` — adding `interface` adds its keyword at the end;
* `ModifierSet.notMem_keyword`, `Modifier.head_keyword` — a keyword consists of small letters, and
  of one at least;
* `ModifierSet.infix_render_iff` — a keyword is found in the text of a set just when its modifier is
  in the set, since no keyword has another one in it and none has a space;
* `ModifierSet.leadingWords` — the keywords before a space, which is there even if they are not.
-/

namespace Introspect

namespace Modifier

theorem keyword_injective {a b : Modifier} (h : a.keyword = b.keyword) : a = b := by
  revert h
  cases a <;> cases b <;> decide

/-- A keyword consists of small letters. -/
theorem isLower_of_mem_keyword (m : Modifier) : ∀ c ∈ m.keyword.toList, c.isLower = true := by
  refine List.all_eq_true.mp ?_
  cases m <;> decide

/-- No keyword starts with a blank. -/
theorem head_keyword (m : Modifier) :
    ∃ c cs, m.keyword.toList = c :: cs ∧ Text.isBlank c = false := by
  cases m <;> exact ⟨_, _, rfl, rfl⟩

theorem keyword_ne_empty (m : Modifier) : m.keyword ≠ "" := by
  cases m <;> decide

/-- No keyword has another one in it. -/
theorem eq_of_keyword_infix {a b : Modifier} (h : a.keyword.toList <:+: b.keyword.toList) :
    a = b := by
  -- all pairs of keywords are gone through
  have hall : ∀ a ∈ all, ∀ b ∈ all, a.keyword.toList <:+: b.keyword.toList → a = b := by
    decide +kernel
  exact hall a a.mem_all b b.mem_all h

end Modifier

namespace ModifierSet

/-- The keywords of a set are those of its modifiers. -/
theorem mem_keywords {s : ModifierSet} {w : String} :
    w ∈ s.keywords ↔ ∃ m : Modifier, s.has m = true ∧ m.keyword = w := by
  simp [keywords, Modifier.mem_canonicalOrder]

/-- What is no small letter is in no keyword. -/
theorem notMem_keyword {s : ModifierSet} {c : Char} (hc : c.isLower = false) :
    ∀ w ∈ s.keywords, c ∉ w.toList := by
  intro w hw hmem
  obtain ⟨m, -, rfl⟩ := mem_keywords.mp hw
  rw [m.isLower_of_mem_keyword c hmem] at hc
  exact Bool.noConfusion hc

/-! ### What keywords depend on -/

/-- The keywords of a set depend on its known bits only. -/
theorem keywords_congr {s t : ModifierSet} (h : s.known = t.known) : s.keywords = t.keywords := by
  -- a set is asked for each modifier, and its known bits are the answers
  have hhas : s.has = t.has := funext (known_eq_iff.mp h)
  rw [keywords, keywords, hhas]

/-- **The keywords of a set tell its known bits.** -/
theorem keywords_eq_iff {s t : ModifierSet} : s.keywords = t.keywords ↔ s.known = t.known := by
  refine ⟨fun h => known_eq_iff.mpr fun m => ?_, keywords_congr⟩
  -- a modifier is in the set when its keyword, which no other has, is among them
  have hmem (r : ModifierSet) : r.has m = true ↔ m.keyword ∈ r.keywords := by
    rw [mem_keywords]
    refine ⟨fun hm => ⟨m, hm, rfl⟩, ?_⟩
    rintro ⟨n, hn, hkeyword⟩
    rwa [← Modifier.keyword_injective hkeyword]
  rw [Bool.eq_iff_iff, hmem s, hmem t, h]

/-- `interface` is the last keyword of a set that has it, whether or not it was added. -/
theorem keywords_union_interface (s : ModifierSet) :
    (s ∪ single .interface).keywords = (s \ single .interface).keywords ++ ["interface"] := by
  have horder : Modifier.canonicalOrder = Modifier.canonicalOrder.dropLast ++ [.interface] := rfl
  have hothers : ∀ m ∈ Modifier.canonicalOrder.dropLast, m ≠ .interface := by decide
  -- the modifiers before it are in both sets or in neither
  have hfilter : Modifier.canonicalOrder.dropLast.filter (s ∪ single .interface).has =
      Modifier.canonicalOrder.dropLast.filter (s \ single .interface).has := by
    refine List.filter_congr fun m hm => ?_
    simp [Ne.symm (hothers m hm)]
  -- behind the others `interface` is kept by the one set and dropped by the other
  rw [keywords, keywords, horder, List.filter_append, List.filter_append, hfilter]
  simp [Modifier.keyword]

/-! ### Keywords found in a text -/

/-- **A keyword is found in the text of a set** just when its modifier is in the set. The text has
spaces between the keywords, so nothing is found across two of them. -/
theorem infix_render_iff {s : ModifierSet} {m : Modifier} :
    m.keyword.toList <:+: s.render.toList ↔ m ∈ s := by
  rw [render, String.toList_intercalate]
  refine ⟨fun h => ?_, fun h => ?_⟩
  · -- a keyword has no space in it, so it is found in one of the joined keywords
    have hspace : ' ' ∉ m.keyword.toList := by
      intro hmem
      exact absurd (m.isLower_of_mem_keyword ' ' hmem) (by decide)
    have hne : m.keyword.toList ≠ [] := by simpa using m.keyword_ne_empty
    obtain ⟨_, hpiece, hinfix⟩ := Text.exists_infix_of_infix_intercalate hspace hne h
    obtain ⟨w, hw, rfl⟩ := List.mem_map.mp hpiece
    obtain ⟨n, hn, rfl⟩ := mem_keywords.mp hw
    rwa [Modifier.eq_of_keyword_infix hinfix]
  · exact Text.infix_intercalate (List.mem_map_of_mem (mem_keywords.mpr ⟨m, h, rfl⟩))

/-! ### Keywords in front of something -/

/-- **The words of a set before a space**: its keywords, or an empty word if there are none. -/
def leadingWords (s : ModifierSet) : List String :=
  if s.keywords = [] then [""] else s.keywords

/-- There always is a word before the space. -/
theorem leadingWords_ne_nil (s : ModifierSet) : s.leadingWords ≠ [] := by
  unfold leadingWords
  split
  · exact List.cons_ne_nil _ _
  · assumption

/-- The words with spaces between them are the text of the set. -/
theorem render_eq (s : ModifierSet) : s.render = " ".intercalate s.leadingWords := by
  unfold render leadingWords
  split
  · next h => rw [h]; rfl
  · rfl

/-- What is no small letter is in none of these words. -/
theorem notMem_leadingWord {s : ModifierSet} {c : Char} (hc : c.isLower = false) :
    ∀ w ∈ s.leadingWords, c ∉ w.toList := by
  unfold leadingWords
  split
  · exact List.forall_mem_singleton.mpr List.not_mem_nil
  · exact notMem_keyword hc

/-- The empty word is no keyword, so it tells that there are none. -/
theorem leadingWords_inj {s t : ModifierSet} (h : s.leadingWords = t.leadingWords) :
    s.known = t.known := by
  have hempty (r : ModifierSet) : [""] ≠ r.keywords := by
    intro hr
    obtain ⟨m, -, hm⟩ := mem_keywords.mp (hr ▸ List.mem_singleton_self "")
    exact m.keyword_ne_empty hm
  refine keywords_eq_iff.mp ?_
  unfold leadingWords at h
  -- either there are keywords on both sides or on neither
  split at h <;> split at h
  · next hs ht => rw [hs, ht]
  · exact absurd h (hempty t)
  · exact absurd h.symm (hempty s)
  · exact h

end ModifierSet

end Introspect

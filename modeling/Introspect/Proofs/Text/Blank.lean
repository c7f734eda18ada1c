import Introspect.Text.Blank

/-!
# Padding is trimmed away

`trimChars_pad` — blanks added at either end of a text do not change what is left of it after
trimming.
-/

namespace Introspect.Text

theorem isBlank_of_mem_space : ∀ c ∈ [' '], isBlank c = true := by
  intro c hc
  rw [List.mem_singleton.mp hc]
  rfl

theorem dropWhile_blank_append {blanks : List Char} (h : ∀ c ∈ blanks, isBlank c = true)
    (cs : List Char) : (blanks ++ cs).dropWhile isBlank = cs.dropWhile isBlank :=
  List.dropWhile_append_of_pos h

/-- **Padding does not matter.** -/
theorem trimChars_pad {before behind : List Char} (hbefore : ∀ c ∈ before, isBlank c = true)
    (hbehind : ∀ c ∈ behind, isBlank c = true) (cs : List Char) :
    trimChars (before ++ cs ++ behind) = trimChars cs := by
  unfold trimChars
  rw [List.append_assoc, dropWhile_blank_append hbefore, List.dropWhile_append]
  split
  · next hempty =>
    -- nothing but blanks in the middle: both sides are empty
    have hnil : cs.dropWhile isBlank = [] := by simpa using hempty
    have hbehind' := dropWhile_blank_append hbehind []
    rw [List.append_nil] at hbehind'
    rw [hnil, hbehind']
    rfl
  · -- read backwards, the text behind comes first
    have hrev : ∀ c ∈ behind.reverse, isBlank c = true :=
      fun c hc => hbehind c (List.mem_reverse.mp hc)
    rw [List.reverse_append, dropWhile_blank_append hrev]

/-- A text that neither starts nor ends with a blank is not trimmed. -/
theorem trim_eq_self {s : String} (hhead : ∀ c ∈ s.toList.head?, isBlank c = false)
    (hlast : ∀ c ∈ s.toList.getLast?, isBlank c = false) : trim s = s := by
  rw [trim, trimChars_eq_self hhead hlast, String.ofList_toList]

/-- A space in front is trimmed away. -/
theorem trim_space (s : String) : trim (" " ++ s) = trim s := by
  have hpad := trimChars_pad isBlank_of_mem_space (fun _ h => absurd h List.not_mem_nil) s.toList
  rw [List.append_nil] at hpad
  rw [trim, trim, String.toList_append, ← hpad]
  rfl

end Introspect.Text

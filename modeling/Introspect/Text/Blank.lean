/-!
# Blank characters

Text handed over by people — a list of modifiers, a line about to be shown — is trimmed of the
characters with Unicode's property `White_Space`. There are 25 of them, far more than the four
blanks of a JSON document (`Json.isBlank`), so the two classes are kept apart.

* `Text.isBlank` is the class.
* `Text.trim` drops blanks at both ends and keeps everything between.
-/

namespace Introspect.Text

/-- **White space.** The 25 characters with Unicode's property `White_Space`. -/
def isBlank (c : Char) : Bool :=
  let n := c.toNat
  (9 ≤ n && n ≤ 13) || n == 0x20 || n == 0x85 || n == 0xa0 || n == 0x1680 ||
    (0x2000 ≤ n && n ≤ 0x200a) || n == 0x2028 || n == 0x2029 || n == 0x202f ||
    n == 0x205f || n == 0x3000

/-- Blanks are dropped at both ends of a text. -/
def trimChars (cs : List Char) : List Char :=
  ((cs.dropWhile isBlank).reverse.dropWhile isBlank).reverse

/-- `trimChars` on strings. -/
def trim (s : String) : String :=
  String.ofList (trimChars s.toList)

/-- A text that neither starts nor ends with a blank is left alone. -/
theorem trimChars_eq_self {cs : List Char} (hhead : ∀ c ∈ cs.head?, isBlank c = false)
    (hlast : ∀ c ∈ cs.getLast?, isBlank c = false) : trimChars cs = cs := by
  have key : ∀ l : List Char, (∀ c ∈ l.head?, isBlank c = false) → l.dropWhile isBlank = l := by
    intro l hl
    cases l with
    | nil => rfl
    | cons c r => simp [List.dropWhile, hl c (by simp)]
  unfold trimChars
  rw [key cs hhead, key cs.reverse (by simpa using hlast), List.reverse_reverse]

end Introspect.Text

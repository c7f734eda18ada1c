/-!
# Looking for a text in another

`Text.mentions` looks for a text at every place of another one, be it within a word or across two of
them.
-/

namespace Introspect.Text

/-- **Is a text found in another one?** -/
def mentions (part : List Char) : List Char → Bool
  | [] => part.isEmpty
  | c :: cs => part.isPrefixOf (c :: cs) || mentions part cs

theorem mentions_iff {part cs : List Char} : mentions part cs = true ↔ part <:+: cs := by
  induction cs with
  | nil => rw [mentions, List.isEmpty_iff, List.infix_nil]
  | cons c cs ih =>
    rw [mentions, Bool.or_eq_true, ih, List.isPrefixOf_iff_prefix, List.infix_cons_iff]

end Introspect.Text

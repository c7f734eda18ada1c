/-!
# Character classes given by ranges

A class of characters that a standard lists is kept as a table of ranges of code points, both ends
included. `Text.inRanges` asks whether a character falls into one of them.
-/

namespace Introspect.Text

/-- A range of code points, first and last. -/
abbrev Range := Nat × Nat

/-- Does some range of the table hold the character? -/
def inRanges (table : List Range) (c : Char) : Bool :=
  table.any fun (low, high) => low ≤ c.toNat && c.toNat ≤ high

end Introspect.Text

import Introspect.Json.Scan

/-!
# The grammar of JSON

What it means that a text is a JSON document and which value it denotes, said without a scanner. The
relations of this file have three places: a text, what stands at its front, and what is left behind
it.

* `StringLiteral.Spelled` — the characters of a string, escaped in any of the permitted ways;
* `Numeral.Spelled` — a number as it is spelled;
* `Json.Spelled` — a value, with `Json.ItemsSpelled` and `Json.MembersSpelled` for the inside of
  arrays and objects, blanks standing wherever they may;
* `Json.Denoted` — a whole text, blanks around its value.

A number denotes what `Numeral.number?` makes of it; one that is out of range denotes nothing, and
then nothing that contains it is a document. Members of an object are kept in the order in which
they stand, repeated names included.

`Json.HasUniqueKeys` singles out the values in which no object repeats a name.
-/

namespace Introspect

/-! ### Strings -/

/-- **The inside of a string.** A character stands for itself unless it is a mark, a backslash or a
control character; the others are written behind a backslash, and every character may be given by
its one or two code units in hexadecimal digits. -/
inductive StringLiteral.Spelled : List Char → List Char → List Char → Prop
  | nil (r : List Char) : Spelled r [] r
  | raw {l cs r : List Char} (c : Char) (hmark : c ≠ '"') (hslash : c ≠ '\\')
      (hcontrol : 0x20 ≤ c.toNat) : Spelled l cs r → Spelled (c :: l) (c :: cs) r
  | short {l cs r : List Char} (e c : Char) (he : StringLiteral.shortEscape? e = some c) :
      Spelled l cs r → Spelled ('\\' :: e :: l) (c :: cs) r
  | unit {l cs r : List Char} (a b c d : Char) (n : Nat)
      (hn : Text.hexValue? [a, b, c, d] = some n) (hlow : StringLiteral.isLow n = false)
      (hhigh : StringLiteral.isHigh n = false) :
      Spelled l cs r → Spelled ('\\' :: 'u' :: a :: b :: c :: d :: l) (Char.ofNat n :: cs) r
  | pair {l cs r : List Char} (a b c d a' b' c' d' : Char) (n m : Nat)
      (hn : Text.hexValue? [a, b, c, d] = some n) (hm : Text.hexValue? [a', b', c', d'] = some m)
      (hhigh : StringLiteral.isHigh n = true) (hlow : StringLiteral.isLow m = true) :
      Spelled l cs r →
      Spelled ('\\' :: 'u' :: a :: b :: c :: d :: '\\' :: 'u' :: a' :: b' :: c' :: d' :: l)
        (StringLiteral.join n m :: cs) r

/-! ### Numbers -/

namespace Numeral

/-- At least one digit, and nothing but digits. -/
structure IsDigits (ds : List Char) : Prop where
  ne_nil : ds ≠ []
  digit : ∀ c ∈ ds, c.isDigit = true

/-- The whole part of a number: a zero, or digits of which the first is not zero. -/
structure IsWhole (ds : List Char) : Prop extends IsDigits ds where
  no_leading_zero : ∀ rest, ds = '0' :: rest → rest = []

/-- An optional fraction. -/
inductive FractionSpelled : List Char → Option (List Char) → List Char → Prop
  | absent (r : List Char) : FractionSpelled r none r
  | present (ds r : List Char) (hds : IsDigits ds) :
      FractionSpelled ('.' :: (ds ++ r)) (some ds) r

/-- An optional exponent, its letter in either case, its sign optional. -/
inductive ExponentSpelled : List Char → Option (Bool × List Char) → List Char → Prop
  | absent (r : List Char) : ExponentSpelled r none r
  | unsigned (e : Char) (he : e = 'e' ∨ e = 'E') (ds r : List Char) (hds : IsDigits ds) :
      ExponentSpelled (e :: (ds ++ r)) (some (false, ds)) r
  | plus (e : Char) (he : e = 'e' ∨ e = 'E') (ds r : List Char) (hds : IsDigits ds) :
      ExponentSpelled (e :: '+' :: (ds ++ r)) (some (false, ds)) r
  | minus (e : Char) (he : e = 'e' ∨ e = 'E') (ds r : List Char) (hds : IsDigits ds) :
      ExponentSpelled (e :: '-' :: (ds ++ r)) (some (true, ds)) r

/-- **A number as it is spelled.** -/
inductive Spelled : List Char → Numeral → List Char → Prop
  | positive {whole l l' r : List Char} {fraction : Option (List Char)}
      {exponent : Option (Bool × List Char)} (hwhole : IsWhole whole)
      (hfraction : FractionSpelled l fraction l') (hexponent : ExponentSpelled l' exponent r) :
      Spelled (whole ++ l) ⟨false, whole, fraction, exponent⟩ r
  | negative {whole l l' r : List Char} {fraction : Option (List Char)}
      {exponent : Option (Bool × List Char)} (hwhole : IsWhole whole)
      (hfraction : FractionSpelled l fraction l') (hexponent : ExponentSpelled l' exponent r) :
      Spelled ('-' :: (whole ++ l)) ⟨true, whole, fraction, exponent⟩ r

end Numeral

/-! ### Values -/

namespace Json

/-- Any number of blanks. -/
inductive Blanks : List Char → List Char → Prop
  | nil (r : List Char) : Blanks r r
  | cons {l r : List Char} (c : Char) (hc : isBlank c = true) : Blanks l r → Blanks (c :: l) r

mutual

/-- **A value.** -/
inductive Spelled : List Char → Json → List Char → Prop
  | nullWord (r : List Char) : Spelled ('n' :: 'u' :: 'l' :: 'l' :: r) null r
  | trueWord (r : List Char) : Spelled ('t' :: 'r' :: 'u' :: 'e' :: r) (bool true) r
  | falseWord (r : List Char) : Spelled ('f' :: 'a' :: 'l' :: 's' :: 'e' :: r) (bool false) r
  | number {l r : List Char} {x : Numeral} {n : Number} (hx : x.Spelled l r)
      (hn : x.number? = some n) : Spelled l (.scalar (.number n)) r
  | string {l cs r : List Char} (hcs : StringLiteral.Spelled l cs ('"' :: r)) :
      Spelled ('"' :: l) (string (String.ofList cs)) r
  | emptyArray {l r : List Char} (hl : Blanks l (']' :: r)) : Spelled ('[' :: l) (.array []) r
  | array {l r : List Char} {items : List Json} (hitems : ItemsSpelled l items (']' :: r)) :
      Spelled ('[' :: l) (.array items) r
  | emptyObject {l r : List Char} (hl : Blanks l ('}' :: r)) : Spelled ('{' :: l) (.object []) r
  | object {l r : List Char} {members : List (String × Json)}
      (hmembers : MembersSpelled l members ('}' :: r)) : Spelled ('{' :: l) (.object members) r

/-- The items of an array that has some. -/
inductive ItemsSpelled : List Char → List Json → List Char → Prop
  | last {l l₁ l₂ r : List Char} {j : Json} (hbefore : Blanks l l₁) (hj : Spelled l₁ j l₂)
      (hbehind : Blanks l₂ r) : ItemsSpelled l [j] r
  | cons {l l₁ l₂ l₃ r : List Char} {j : Json} {js : List Json} (hbefore : Blanks l l₁)
      (hj : Spelled l₁ j l₂) (hbehind : Blanks l₂ (',' :: l₃)) (hjs : ItemsSpelled l₃ js r) :
      ItemsSpelled l (j :: js) r

/-- The members of an object that has some. -/
inductive MembersSpelled : List Char → List (String × Json) → List Char → Prop
  | last {l l₁ l₂ l₃ l₄ l₅ r ks : List Char} {j : Json} (hbefore : Blanks l ('"' :: l₁))
      (hname : StringLiteral.Spelled l₁ ks ('"' :: l₂)) (hcolon : Blanks l₂ (':' :: l₃))
      (hvalue : Blanks l₃ l₄) (hj : Spelled l₄ j l₅) (hbehind : Blanks l₅ r) :
      MembersSpelled l [(String.ofList ks, j)] r
  | cons {l l₁ l₂ l₃ l₄ l₅ l₆ r ks : List Char} {j : Json} {ms : List (String × Json)}
      (hbefore : Blanks l ('"' :: l₁)) (hname : StringLiteral.Spelled l₁ ks ('"' :: l₂))
      (hcolon : Blanks l₂ (':' :: l₃)) (hvalue : Blanks l₃ l₄) (hj : Spelled l₄ j l₅)
      (hbehind : Blanks l₅ (',' :: l₆)) (hms : MembersSpelled l₆ ms r) :
      MembersSpelled l ((String.ofList ks, j) :: ms) r

end

/-- **A text that is a JSON document**, and the value that it denotes. -/
def Denoted (text : String) (j : Json) : Prop :=
  ∃ l r, Blanks text.toList l ∧ Spelled l j r ∧ Blanks r []

/-! ### Repeated names -/

mutual

/-- **No object of the value has two members of one name.** -/
def HasUniqueKeys : Json → Prop
  | .scalar _ => True
  | .array items => ItemsHaveUniqueKeys items
  | .object members => (members.map Prod.fst).Nodup ∧ MembersHaveUniqueKeys members

/-- The same for the items of an array. -/
def ItemsHaveUniqueKeys : List Json → Prop
  | [] => True
  | j :: js => j.HasUniqueKeys ∧ ItemsHaveUniqueKeys js

/-- The same for the values of the members of an object. -/
def MembersHaveUniqueKeys : List (String × Json) → Prop
  | [] => True
  | (_, j) :: ms => j.HasUniqueKeys ∧ MembersHaveUniqueKeys ms

end

end Json

end Introspect

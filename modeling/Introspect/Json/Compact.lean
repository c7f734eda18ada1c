import Introspect.Decimal.Layout
import Introspect.Json.StringLiteral
import Introspect.Json.Tree

/-!
# The compact text of a JSON tree

`Json.compact` writes a tree without any blanks, members in the order in which they stand, strings
with as few escapes as possible (`StringLiteral.encode`).
-/

namespace Introspect

/-- The decimal text of an integer. -/
def integerText : Int → List Char
  | .ofNat n => Nat.toDigits 10 n
  | .negSucc n => '-' :: Nat.toDigits 10 (n + 1)

/-- The text of a number. -/
def Number.text : Number → List Char
  | .integer i => integerText i
  | .double x => doubleText x

/-- The text of a scalar. -/
def Scalar.compact : Scalar → List Char
  | .null => ['n', 'u', 'l', 'l']
  | .bool true => ['t', 'r', 'u', 'e']
  | .bool false => ['f', 'a', 'l', 's', 'e']
  | .number n => n.text
  | .string s => StringLiteral.encode s

namespace Json

mutual

/-- **The compact text of a tree**, as characters. -/
def compact : Json → List Char
  | .scalar s => s.compact
  | .array items => '[' :: (compactItems items ++ [']'])
  | .object members => '{' :: (compactMembers members ++ ['}'])

/-- The items of an array with commas between them. -/
def compactItems : List Json → List Char
  | [] => []
  | [j] => j.compact
  | j :: js => j.compact ++ ',' :: compactItems js

/-- The members of an object with commas between them. -/
def compactMembers : List (String × Json) → List Char
  | [] => []
  | [(k, j)] => StringLiteral.encode k ++ ':' :: j.compact
  | (k, j) :: ms => StringLiteral.encode k ++ ':' :: (j.compact ++ ',' :: compactMembers ms)

end

/-- The compact text of a tree. -/
def text (j : Json) : String :=
  String.ofList j.compact

end Json

end Introspect

import Introspect.Json.Numeral

/-!
# JSON trees

A finished JSON value. Members of an object are kept in the order in which they stand, repeated
names included; the order matters to a decoder, which reports the first member it cannot accept.

* `Json.depth` counts the arrays and objects around the deepest part.
* `Json.sorted` is the tree in which every object has its members in the order of their names and,
  of members with one name, only the last. It is the form in which trees are decoded.
-/

namespace Introspect

/-- The values that have no parts. -/
inductive Scalar where
  | null
  | bool (value : Bool)
  | number (value : Number)
  | string (value : String)

/-- **A JSON value.** -/
inductive Json where
  | scalar (value : Scalar)
  | array (items : List Json)
  | object (members : List (String × Json))

namespace Json

/-- The value `null`. -/
abbrev null : Json := .scalar .null

/-- A truth value. -/
abbrev bool (b : Bool) : Json := .scalar (.bool b)

/-- A string. -/
abbrev string (s : String) : Json := .scalar (.string s)

/-- A natural number. -/
abbrev nat (n : Nat) : Json := .scalar (.number (.integer n))

instance : Inhabited Json := ⟨null⟩

/-! ### Depth -/

mutual

/-- **Nesting depth**: the number of arrays and objects around the deepest part, a scalar having
none. -/
def depth : Json → Nat
  | .scalar _ => 0
  | .array items => depthItems items + 1
  | .object members => depthMembers members + 1

/-- The greatest depth among the items of an array. -/
def depthItems : List Json → Nat
  | [] => 0
  | j :: js => max j.depth (depthItems js)

/-- The greatest depth among the members of an object. -/
def depthMembers : List (String × Json) → Nat
  | [] => 0
  | (_, j) :: ms => max j.depth (depthMembers ms)

end

/-! ### Sorted trees -/

/-- Puts a member at its place among members sorted by name; a member of the same name gives way. -/
def insertMember {α : Type} (name : String) (value : α) :
    List (String × α) → List (String × α)
  | [] => [(name, value)]
  | (other, x) :: rest =>
    if name < other then (name, value) :: (other, x) :: rest
    else if name = other then (name, value) :: rest
    else (other, x) :: insertMember name value rest

/-- Members sorted by name, the last of each name. -/
def sortMembers {α : Type} (members : List (String × α)) : List (String × α) :=
  members.foldl (fun acc m => insertMember m.1 m.2 acc) []

mutual

/-- **The sorted form of a tree.** -/
def sorted : Json → Json
  | .scalar s => .scalar s
  | .array items => .array (sortedItems items)
  | .object members => .object (sortMembers (sortedMembers members))

/-- The items of an array, each sorted; their own order stays. -/
def sortedItems : List Json → List Json
  | [] => []
  | j :: js => j.sorted :: sortedItems js

/-- The members of an object, each sorted within. -/
def sortedMembers : List (String × Json) → List (String × Json)
  | [] => []
  | (k, j) :: ms => (k, j.sorted) :: sortedMembers ms

end

/-! ### Looking into a tree -/

/-- The members of an object; anything else has none. -/
def members : Json → List (String × Json)
  | .object ms => ms
  | _ => []

/-- The first member of a name. -/
def get? (j : Json) (name : String) : Option Json :=
  (j.members.find? (·.1 == name)).map (·.2)

end Json

end Introspect

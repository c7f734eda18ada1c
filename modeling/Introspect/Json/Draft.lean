import Introspect.Json.Tree

/-!
# Drafts

A **draft** is what a text yields before anybody has asked whether it is a document: the arrays and
objects with all their parts up to the first place that cannot be passed, and there the fault. Every
text has a draft (`Draft.scan`), and so has every finished tree (`Draft.ofJson`), which is why the
decoders of this library are written once, over drafts.

A decoder that walks a draft from the front meets its faults exactly when it reaches them, and not
before. It can therefore report what is wrong with the first half of a text whose second half is no
JSON at all.

* `Draft.check` reads a draft in full, with the number of arrays and objects that may still be
  entered as its limit.
* `Draft.skip` passes over a draft whose value nobody wants; it knows no limit and is content with
  lexemes that have an end but no value.
* `Draft.tree?` is the tree of a draft without faults.
-/

namespace Introspect

/-- **What a text yields.** An array has the items that were found and then its bracket (`none`) or
the fault that stands in its place; an object likewise. -/
inductive Draft where
  | leaf (value : Lexeme Scalar)
  | array (items : List Draft) (ending : Option Fault)
  | object (members : List (Lexeme String × Draft)) (ending : Option Fault)

namespace Draft

/-- A draft that fails where it starts. -/
def broken (f : Fault) : Draft :=
  .leaf (.broken f)

instance : Inhabited Draft := ⟨broken .malformed⟩

/-- The end of an array or object: closed, or faulty. -/
def ending : Option Fault → Except Fault Unit
  | none => .ok ()
  | some f => .error f

@[simp] theorem ending_none : ending none = .ok () := rfl

@[simp] theorem ending_eq_ok {fault : Option Fault} : ending fault = .ok () ↔ fault = none := by
  cases fault <;> simp [ending]

/-! ### Drafts of trees -/

mutual

/-- **The draft of a finished tree**, free of faults. -/
def ofJson : Json → Draft
  | .scalar s => .leaf (.sound s)
  | .array items => .array (ofItems items) none
  | .object members => .object (ofMembers members) none

/-- The drafts of the items of an array. -/
def ofItems : List Json → List Draft
  | [] => []
  | j :: js => ofJson j :: ofItems js

/-- The drafts of the members of an object. -/
def ofMembers : List (String × Json) → List (Lexeme String × Draft)
  | [] => []
  | (k, j) :: ms => (.sound k, ofJson j) :: ofMembers ms

end

mutual

/-- **The tree of a draft**, if it is free of faults. -/
def tree? : Draft → Option Json
  | .leaf (.sound s) => some (.scalar s)
  | .leaf (.faulty _ _) => none
  | .array items none => (treeItems? items).map .array
  | .object members none => (treeMembers? members).map .object
  | .array _ (some _) => none
  | .object _ (some _) => none

/-- The trees of the items of an array. -/
def treeItems? : List Draft → Option (List Json)
  | [] => some []
  | d :: ds =>
    match d.tree?, treeItems? ds with
    | some j, some js => some (j :: js)
    | _, _ => none

/-- The trees of the members of an object. -/
def treeMembers? : List (Lexeme String × Draft) → Option (List (String × Json))
  | [] => some []
  | (k, d) :: ms =>
    match k.read, d.tree?, treeMembers? ms with
    | .ok name, some j, some js => some ((name, j) :: js)
    | _, _, _ => none

end

/-! ### Depth -/

mutual

/-- The number of arrays and objects around the deepest part. -/
def depth : Draft → Nat
  | .leaf _ => 0
  | .array items _ => depthItems items + 1
  | .object members _ => depthMembers members + 1

/-- The greatest depth among the items of an array. -/
def depthItems : List Draft → Nat
  | [] => 0
  | d :: ds => max d.depth (depthItems ds)

/-- The greatest depth among the members of an object. -/
def depthMembers : List (Lexeme String × Draft) → Nat
  | [] => 0
  | (_, d) :: ms => max d.depth (depthMembers ms)

end

/-! ### Reading in full and skipping -/

mutual

/-- **Reading a draft in full**, entering at most `room` arrays and objects inside one another. -/
def check (room : Nat) : Draft → Except Fault Unit
  | .leaf x => x.read.map fun _ => ()
  | .array items fault =>
    match room with
    | 0 => .error .malformed
    | room + 1 => do
      checkItems room items
      ending fault
  | .object members fault =>
    match room with
    | 0 => .error .malformed
    | room + 1 => do
      checkMembers room members
      ending fault

/-- Reading the items of an array in full. -/
def checkItems (room : Nat) : List Draft → Except Fault Unit
  | [] => .ok ()
  | d :: ds => do
    check room d
    checkItems room ds

/-- Reading the members of an object in full. -/
def checkMembers (room : Nat) : List (Lexeme String × Draft) → Except Fault Unit
  | [] => .ok ()
  | (k, d) :: ms => do
    let _ ← k.read
    check room d
    checkMembers room ms

end

mutual

/-- **Passing over a draft** whose value is not wanted, however deep it is. -/
def skip : Draft → Except Fault Unit
  | .leaf x => x.skip
  | .array items fault => do
    skipItems items
    ending fault
  | .object members fault => do
    skipMembers members
    ending fault

/-- Passing over the items of an array. -/
def skipItems : List Draft → Except Fault Unit
  | [] => .ok ()
  | d :: ds => do
    skip d
    skipItems ds

/-- Passing over the members of an object. -/
def skipMembers : List (Lexeme String × Draft) → Except Fault Unit
  | [] => .ok ()
  | (k, d) :: ms => do
    k.skip
    skip d
    skipMembers ms

end

end Draft

end Introspect

import Introspect.Modifier.Basic
import Introspect.Text.Blank
import Introspect.Text.Hex

/-!
# Modifiers in documents

In a document a set of modifiers is a text: the constant names of its modifiers in the order of
their bits, and after them the unknown bits, if there are any, as one hexadecimal number; the parts
are joined by ` | ` (`ModifierSet.text`).

A text is read more freely (`ModifierSet.ofText`). Blank text is the empty set. Otherwise the text
is split at each `|` and every part, trimmed, has to be a constant name or a hexadecimal number of
at most 16 bits; the bits of all parts are joined. The leftmost part that is neither decides the
error.
-/

namespace Introspect

namespace Modifier

/-- The constant name of a modifier. -/
def constant : Modifier → String
  | publicAccess => "PUBLIC"
  | privateAccess => "PRIVATE"
  | protectedAccess => "PROTECTED"
  | static => "STATIC"
  | final => "FINAL"
  | synchronized => "SYNCHRONIZED"
  | volatile => "VOLATILE"
  | transient => "TRANSIENT"
  | native => "NATIVE"
  | interface => "INTERFACE"
  | abstract => "ABSTRACT"
  | strict => "STRICT"

/-- The modifier of a constant name. -/
def ofConstant? (name : String) : Option Modifier :=
  all.find? (·.constant == name)

@[simp] theorem ofConstant?_constant (m : Modifier) : ofConstant? m.constant = some m := by
  cases m <;> decide

end Modifier

/-- **Why a part of a text is no modifier.** -/
inductive ModifierError where
  | blankPart
  | badNumber
  | unknownName
  deriving DecidableEq, Repr

/-- The message of an error. -/
def ModifierError.message : ModifierError → String
  | blankPart => "encountered empty flag"
  | badNumber => "invalid hex flag"
  | unknownName => "unrecognized named flag"

namespace ModifierSet

/-! ### Writing -/

/-- The unknown bits as a number in lower case. -/
def hexText (bits : UInt16) : String :=
  String.ofList ('0' :: 'x' :: Nat.toDigits 16 bits.toNat)

/-- **The text of a set.** -/
def text (s : ModifierSet) : String :=
  " | ".intercalate
    (s.toList.map Modifier.constant ++ if s.unknown = 0 then [] else [hexText s.unknown])

/-- The text of a set with its type around it; a set without any bit shows a zero. -/
def describe (s : ModifierSet) : String :=
  "ModifierSet(" ++ (if s.isEmpty then "0x0" else s.text) ++ ")"

/-! ### Reading -/

/-- A hexadecimal number of 16 bits, without its `0x`. One plus sign may stand before the digits. -/
def ofHex? (cs : List Char) : Option UInt16 :=
  let digits := match cs with
    | '+' :: ds => ds
    | ds => ds
  match digits with
  | [] => none
  | ds => (Text.hexValue? ds).bind fun n => if n < UInt16.size then some n.toUInt16 else none

/-- One part of a text, trimmed. -/
def ofPart (part : List Char) : Except ModifierError ModifierSet :=
  match part with
  | [] => .error .blankPart
  | '0' :: 'x' :: ds =>
    match ofHex? ds with
    | some bits => .ok ⟨bits⟩
    | none => .error .badNumber
  | name =>
    match Modifier.ofConstant? (String.ofList name) with
    | some m => .ok (single m)
    | none => .error .unknownName

/-- The parts of a text from the left, joined to what was read before them. -/
def ofParts (s : ModifierSet) : List (List Char) → Except ModifierError ModifierSet
  | [] => .ok s
  | part :: parts =>
    match ofPart (Text.trimChars part) with
    | .ok t => ofParts (s ∪ t) parts
    | .error e => .error e

/-- **The set of a text.** -/
def ofText (s : String) : Except ModifierError ModifierSet :=
  if s.toList.all Text.isBlank then .ok ∅
  else ofParts ∅ (s.toList.splitOn '|')

end ModifierSet

end Introspect

import Introspect.Document.Encode
import Introspect.Json.Scan

/-!
# Documents

A document holds one descriptor, of a kind known beforehand. Each kind is written in one way, as
compact text (`Kind.write`), and can be read in two:

* from a text (`Kind.read`), whose members are taken in the order in which they stand, with at most
  127 arrays and objects inside one another;
* from a tree (`Kind.ofTree`), whose members are taken in the order of their names, however deep it
  is.
-/

namespace Introspect

/-- **Reading a value of a shape from a tree.** -/
def Shape.ofTree (s : Shape) (j : Json) : Decoded s.Value :=
  s.decode TypeRef.decode .tree (Draft.ofJson j.sorted)

/-- **What a document may hold.** -/
inductive Kind where
  | typeRef
  | typeInfo
  | hostMethod
  | scriptMethod
  | hostField
  | scriptVariable
  | modifiers
  deriving DecidableEq, Repr

namespace Kind

/-- The descriptors of a kind. -/
@[reducible] def Value : Kind → Type
  | typeRef => TypeRef
  | typeInfo => TypeInfo
  | hostMethod => HostMethod
  | scriptMethod => ScriptMethod
  | hostField => HostField
  | scriptVariable => ScriptVariable
  | modifiers => ModifierSet

instance : (k : Kind) → DecidableEq k.Value
  | typeRef => inferInstanceAs (DecidableEq TypeRef)
  | typeInfo => inferInstanceAs (DecidableEq TypeInfo)
  | hostMethod => inferInstanceAs (DecidableEq HostMethod)
  | scriptMethod => inferInstanceAs (DecidableEq ScriptMethod)
  | hostField => inferInstanceAs (DecidableEq HostField)
  | scriptVariable => inferInstanceAs (DecidableEq ScriptVariable)
  | modifiers => inferInstanceAs (DecidableEq ModifierSet)

/-- **Decoding a descriptor** that stands at some place. -/
def decode : (k : Kind) → Place → Draft → Decoded k.Value
  | typeRef => TypeRef.decode
  | typeInfo => TypeInfo.schema.decode TypeRef.decode
  | hostMethod => HostMethod.schema.decode TypeRef.decode
  | scriptMethod => ScriptMethod.schema.decode TypeRef.decode
  | hostField => HostField.schema.decode TypeRef.decode
  | scriptVariable => ScriptVariable.schema.decode TypeRef.decode
  | modifiers => Shape.decode TypeRef.decode .modifiers

/-- **The tree of a descriptor.** -/
def encode : (k : Kind) → k.Value → Json
  | typeRef => TypeRef.encode
  | typeInfo => TypeInfo.schema.encode
  | hostMethod => HostMethod.schema.encode
  | scriptMethod => ScriptMethod.schema.encode
  | hostField => HostField.schema.encode
  | scriptVariable => ScriptVariable.schema.encode
  | modifiers => Shape.modifiers.encode

/-- How many arrays and objects of a text may stand inside one another. -/
def nestingLimit : Nat := 127

/-- Reading a descriptor from the characters of a text. -/
def readChars (k : Kind) (cs : List Char) : Decoded k.Value := do
  let (d, rest) := Draft.scan cs
  let x ← k.decode (.stream nestingLimit) d
  .ofFault (Json.atEnd rest)
  return x

/-- **Reading a descriptor from a text.** -/
def read (k : Kind) (s : String) : Decoded k.Value :=
  k.readChars s.toList

/-- **Reading a descriptor from a tree.** -/
def ofTree (k : Kind) (j : Json) : Decoded k.Value :=
  k.decode .tree (Draft.ofJson j.sorted)

/-- **The text of a descriptor.** -/
def write (k : Kind) (x : k.Value) : String :=
  (k.encode x).text

end Kind

end Introspect

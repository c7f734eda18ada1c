import Introspect.Modifier.Text
import Introspect.TypeRef.Build

/-!
# Shapes of fields

What a field of a descriptor may hold is given by its **shape**: one of five kinds of value,
possibly optional, or a list. `Shape.Value` is the type of a shape's values.

Each shape has a **blank** value, the one that a missing field stands for: no text, `false`, zero,
no modifiers, nothing, the empty list.
-/

namespace Introspect

/-- **What a field may hold.** -/
inductive Shape where
  | text
  | flag
  | word
  | modifiers
  | typeRef
  | optional (s : Shape)
  | list (s : Shape)
  deriving DecidableEq, Repr

namespace Shape

/-- The type of the values of a shape. -/
@[reducible] def Value : Shape → Type
  | text => String
  | flag => Bool
  | word => UInt16
  | modifiers => ModifierSet
  | typeRef => TypeRef
  | optional s => Option s.Value
  | list s => List s.Value

/-- **The blank value of a shape.** A reference to a type is never left blank; a type without a name
takes its place. -/
def blank : (s : Shape) → s.Value
  | text => ""
  | flag => false
  | word => 0
  | modifiers => ∅
  | typeRef => default
  | optional _ => none
  | list _ => []

/-- Is the value blank? -/
def isBlank : (s : Shape) → s.Value → Bool
  | text, v => v.isEmpty
  | flag, v => !v
  | word, v => v == 0
  | modifiers, v => v.isEmpty
  | typeRef, _ => false
  | optional _, v => v.isNone
  | list _, v => v.isEmpty

end Shape

end Introspect

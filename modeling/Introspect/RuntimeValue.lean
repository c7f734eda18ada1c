import Introspect.TypeRef.Build

/-!
# Values at run time

Of a value in a running script only the name of its type is wanted. A value is null, a wrapped
primitive, which carries its own kind, or an object of some type.

Two names have to be told apart: `RuntimeValue.typeString` of null is `null`, while null has no
runtime type at all, and a slot without a type is shown as `Object`.
-/

namespace Introspect

/-- **The kinds of primitive values**, with the kind of a call that returns nothing. -/
inductive PrimitiveKind where
  | boolean
  | byte
  | char
  | short
  | int
  | long
  | float
  | double
  | void
  deriving DecidableEq, Repr

namespace PrimitiveKind

/-- All kinds. -/
def all : List PrimitiveKind :=
  [boolean, byte, char, short, int, long, float, double, void]

/-- The keyword of a kind. -/
def keyword : PrimitiveKind → String
  | boolean => "boolean"
  | byte => "byte"
  | char => "char"
  | short => "short"
  | int => "int"
  | long => "long"
  | float => "float"
  | double => "double"
  | void => "void"

/-- The kind of a keyword. -/
def ofKeyword? (s : String) : Option PrimitiveKind :=
  all.find? (·.keyword == s)

/-- The modifiers with which the host reports the types of primitives. -/
def typeModifiers : ModifierSet :=
  .ofList [.publicAccess, .abstract, .final]

/-- **The host type of a kind.** -/
def typeRef (k : PrimitiveKind) : TypeRef :=
  ((TypeInfo.ofClass k.keyword).withModifiers typeModifiers).native

@[simp] theorem name_typeRef (k : PrimitiveKind) : k.typeRef.name = k.keyword := rfl

end PrimitiveKind

/-- **A wrapped primitive value.** -/
inductive Primitive where
  | boolean (value : Bool)
  | byte (value : Int8)
  | char (value : Char)
  | short (value : Int16)
  | int (value : Int32)
  | long (value : Int64)
  | float (value : Float32)
  | double (value : Float)
  | void

namespace Primitive

/-- The kind of a primitive. -/
def kind : Primitive → PrimitiveKind
  | boolean _ => .boolean
  | byte _ => .byte
  | char _ => .char
  | short _ => .short
  | int _ => .int
  | long _ => .long
  | float _ => .float
  | double _ => .double
  | void => .void

/-- Primitives of different kinds differ; floating point numbers are compared as such, so a NaN
differs from itself and the two zeros are equal. -/
def same : Primitive → Primitive → Bool
  | boolean a, boolean b => a == b
  | byte a, byte b => a == b
  | char a, char b => a == b
  | short a, short b => a == b
  | int a, int b => a == b
  | long a, long b => a == b
  | float a, float b => a == b
  | double a, double b => a == b
  | void, void => true
  | _, _ => false

instance : BEq Primitive := ⟨same⟩

end Primitive

/-- **A value of a running script.** -/
inductive RuntimeValue where
  | null
  | primitive (value : Primitive)
  | object (type : TypeRef)

namespace RuntimeValue

/-- Equality of values, that of primitives being `Primitive.same`. -/
def same : RuntimeValue → RuntimeValue → Bool
  | null, null => true
  | primitive a, primitive b => a == b
  | object a, object b => a == b
  | _, _ => false

instance : BEq RuntimeValue := ⟨same⟩

/-- **The runtime type of a value**; null has none. -/
def runtimeType? : RuntimeValue → Option TypeRef
  | null => none
  | primitive p => some p.kind.typeRef
  | object t => some t

/-- **The simple name of a value's type**: `null`, the keyword of a primitive, or the name of an
object's type. -/
def typeString : RuntimeValue → String
  | null => "null"
  | primitive p => p.kind.keyword
  | object t => t.name

end RuntimeValue

end Introspect

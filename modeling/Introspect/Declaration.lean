import Introspect.Member
import Introspect.Modifier.Keywords
import Introspect.Signature
import Introspect.Text.Blank
import Introspect.Text.Search

/-!
# Declarations

A **declaration** is one line that shows a member or a type as a program would declare it:

* a field or variable as `modifiers type name;`
* a method as `modifiers type name(parameters)`, closed by `;` when it is abstract and by an empty
  body otherwise;
* a class or interface as `modifiers kind name`, its supertypes, and an opening brace.

Lines of members are put together as they are, so one without modifiers starts with a space. Lines
of types are trimmed.

For a type the interface flag alone decides between `class` and `interface`. A native interface
shows the word among its modifiers, where it comes last; every other type shows none there and has
its kind appended. The modifier that a type may carry for being an interface therefore never
matters.
-/

namespace Introspect

/-! ### Members -/

/-- **The declaration of a field or variable.** A method has one too, showing its return type. -/
def Member.declaration (m : Member) : String :=
  m.modifiers.render ++ " " ++ TypeRef.nameOf m.declaredType ++ " " ++ m.name ++ ";"

namespace Callable

/-- The signature of a callable, with the names of its parameters where they are known. -/
def signature (m : Callable) : Traced (Except ParameterMismatch String) :=
  match m.parameterNames with
  | some names => Signature.withNames m.name m.parameterTypes names
  | none => return .ok (Signature.ofTypes m.name m.parameterTypes)

/-- Do the modifiers mention `abstract`? They are searched as the text in which they are shown. -/
def isAbstract (m : Callable) : Bool :=
  Text.mentions Modifier.abstract.keyword.toList m.modifiers.render.toList

/-- What closes the line of a method. -/
def terminator (m : Callable) : String :=
  if m.isAbstract then ";" else " \x7b\x7d"

/-- **The declaration of a method**, which fails exactly if its signature does. -/
def declaration (m : Callable) : Traced (Except ParameterMismatch String) := do
  Traced.emit (.renderingMethod m.name)
  let signature ← m.signature
  return signature.map fun s =>
    m.modifiers.render ++ " " ++ TypeRef.nameOf m.declaredType ++ " " ++ s ++ m.terminator

end Callable

/-! ### Types -/

namespace TypeRef

/-- The modifiers that a type shows, and its kind where they do not tell it. -/
def modifiersAndKind (t : TypeRef) : ModifierSet × String :=
  let plain := t.modifiers \ .single .interface
  match t.origin, t.isInterface with
  | .native, true => (t.modifiers ∪ .single .interface, "")
  | .native, false => (plain, " class")
  | .generated, true => (plain, " interface")
  | .generated, false => (plain, " class")

/-- The superclass of a class; interfaces show none. -/
def extendsClause (t : TypeRef) : String :=
  if t.isInterface then "" else " extends " ++ nameOf t.superclass

/-- The interfaces that a class implements, or that an interface extends. -/
def interfacesClause (t : TypeRef) : String :=
  match t.interfaces with
  | [] => ""
  | ts =>
    (if t.isInterface then " extends " else " implements ") ++ ", ".intercalate (ts.map name)

/-- The line of a type declaration before it is trimmed. -/
def untrimmed (t : TypeRef) : String :=
  let (modifiers, kind) := t.modifiersAndKind
  modifiers.render ++ kind ++ " " ++ t.name ++ t.extendsClause ++ t.interfacesClause ++ " \x7b"

/-- **The declaration of a class or interface.** -/
def declaration (t : TypeRef) : Traced String := do
  Traced.emit (.renderingType t.name t.isGenerated)
  return Text.trim t.untrimmed

end TypeRef

end Introspect

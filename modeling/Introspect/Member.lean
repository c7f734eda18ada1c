import Introspect.TypeRef.Build

/-!
# Members

Methods and fields come from two worlds. The **host** reports its members with raw access flags and
with every type resolved. A **script** declares its members with a set of modifiers and may leave
types out.

Declarations are rendered from two views that forget the difference:

* a `Member` has a name, modifiers and a declared type — the type of a field or variable, or the
  return type of a method;
* a `Callable` is a member that takes parameters. Script methods know the names of their parameters,
  host methods do not.
-/

namespace Introspect

/-- **A method reported by the host.** -/
structure HostMethod where
  name : String
  accessFlags : UInt16
  returnType : TypeRef
  parameterTypes : List TypeRef
  deriving DecidableEq

/-- **A field reported by the host.** -/
structure HostField where
  name : String
  accessFlags : UInt16
  fieldType : TypeRef
  deriving DecidableEq

/-- **A method defined in a script.** The two lists of parameters are meant to be parallel. -/
structure ScriptMethod where
  name : String
  modifiers : ModifierSet
  returnType : Option TypeRef
  parameterTypes : List (Option TypeRef)
  parameterNames : List String
  deriving DecidableEq

/-- **A variable declared in a script.** -/
structure ScriptVariable where
  name : String
  modifiers : ModifierSet
  type : Option TypeRef
  deriving DecidableEq

/-! ### Views -/

/-- **A named member with modifiers and a declared type**, which is absent when there is none. -/
structure Member where
  name : String
  modifiers : ModifierSet
  declaredType : Option TypeRef
  deriving DecidableEq

/-- **A member that takes parameters**, with their types and, where they are known, their names. -/
structure Callable extends Member where
  parameterTypes : List (Option TypeRef)
  parameterNames : Option (List String)
  deriving DecidableEq

namespace HostMethod

/-- A method without parameters. -/
def new (name : String) (accessFlags : UInt16) (returnType : TypeRef) : HostMethod :=
  { name, accessFlags, returnType, parameterTypes := [] }

/-- Appends a parameter. -/
def withParameter (m : HostMethod) (type : TypeRef) : HostMethod :=
  { m with parameterTypes := m.parameterTypes ++ [type] }

/-- The method as it is rendered. -/
def callable (m : HostMethod) : Callable where
  name := m.name
  modifiers := .ofFlags m.accessFlags
  declaredType := some m.returnType
  parameterTypes := m.parameterTypes.map some
  parameterNames := none

/-- The method as a member. -/
abbrev member (m : HostMethod) : Member := m.callable.toMember

end HostMethod

namespace HostField

/-- The field as a member. -/
def member (f : HostField) : Member where
  name := f.name
  modifiers := .ofFlags f.accessFlags
  declaredType := some f.fieldType

end HostField

namespace ScriptMethod

/-- An untyped method without parameters. -/
def new (name : String) (modifiers : ModifierSet) : ScriptMethod :=
  { name, modifiers, returnType := none, parameterTypes := [], parameterNames := [] }

/-- Sets the return type. -/
def returning (m : ScriptMethod) (type : TypeRef) : ScriptMethod :=
  { m with returnType := some type }

/-- Appends a parameter, typed or not. -/
def push (m : ScriptMethod) (name : String) (type : Option TypeRef) : ScriptMethod :=
  { m with
    parameterTypes := m.parameterTypes ++ [type]
    parameterNames := m.parameterNames ++ [name] }

/-- Appends a typed parameter. -/
def withParameter (m : ScriptMethod) (name : String) (type : TypeRef) : ScriptMethod :=
  m.push name (some type)

/-- Appends a loosely typed parameter. -/
def withUntypedParameter (m : ScriptMethod) (name : String) : ScriptMethod :=
  m.push name none

/-- **One step of building.** -/
inductive Step where
  | returning (type : TypeRef)
  | withParameter (name : String) (type : TypeRef)
  | withUntypedParameter (name : String)

/-- Carries out one step. -/
def apply (m : ScriptMethod) : Step → ScriptMethod
  | .returning t => m.returning t
  | .withParameter n t => m.withParameter n t
  | .withUntypedParameter n => m.withUntypedParameter n

/-- **Carries out steps** in order. -/
def build (m : ScriptMethod) (steps : List Step) : ScriptMethod :=
  steps.foldl apply m

/-- The method as it is rendered. -/
def callable (m : ScriptMethod) : Callable where
  name := m.name
  modifiers := m.modifiers
  declaredType := m.returnType
  parameterTypes := m.parameterTypes
  parameterNames := some m.parameterNames

/-- The method as a member. -/
abbrev member (m : ScriptMethod) : Member := m.callable.toMember

end ScriptMethod

namespace ScriptVariable

/-- An untyped variable. -/
def new (name : String) (modifiers : ModifierSet) : ScriptVariable :=
  { name, modifiers, type := none }

/-- Sets the type. -/
def typed (v : ScriptVariable) (type : TypeRef) : ScriptVariable :=
  { v with type := some type }

/-- The variable as a member. -/
def member (v : ScriptVariable) : Member where
  name := v.name
  modifiers := v.modifiers
  declaredType := v.type

end ScriptVariable

end Introspect

import Introspect.Event
import Introspect.RuntimeValue

/-!
# Signatures

A **signature** is a name followed by its parameters in parentheses, with a comma and a space
between them: `name(a, b)`. The parameters are shown by their types, by types and names together,
or, for a call, by the types of the arguments.

Types and names come as two lists that have to line up. Where they do not there is no signature,
only a `ParameterMismatch`, and an event that tells of it.
-/

namespace Introspect

/-- **A method with another number of parameter names than of parameter types.** -/
structure ParameterMismatch where
  method : String
  types : Nat
  names : Nat
  deriving DecidableEq, Repr

/-- The message of a mismatch. -/
def ParameterMismatch.message (e : ParameterMismatch) : String :=
  "Parameter count mismatch for '" ++ e.method ++ "': " ++ toString e.types ++ " types, " ++
    toString e.names ++ " names"

namespace Signature

/-- What stands between two parameters. -/
def separator : String := ", "

/-- **The signature of a name and its parameters**, given as they are shown. -/
def render (name : String) (params : List String) : String :=
  name ++ "(" ++ separator.intercalate params ++ ")"

/-- The signature with parameters shown by their types. -/
def ofTypes (name : String) (types : List (Option TypeRef)) : String :=
  render name (types.map TypeRef.nameOf)

/-- A parameter shown by its type and its name. -/
def parameter (type : Option TypeRef) (name : String) : String :=
  TypeRef.nameOf type ++ " " ++ name

/-- **The signature with parameters shown by types and names**, which have to be equally many. -/
def withNames (name : String) (types : List (Option TypeRef)) (names : List String) :
    Traced (Except ParameterMismatch String) :=
  if types.length = names.length then
    return .ok (render name (List.zipWith parameter types names))
  else do
    Traced.emit (.parametersMisaligned name types.length names.length)
    return .error ⟨name, types.length, names.length⟩

/-- **The signature of a call**, with the types of its arguments. -/
def ofValues (name : String) (args : List RuntimeValue) : String :=
  ofTypes name (args.map RuntimeValue.runtimeType?)

end Signature

end Introspect

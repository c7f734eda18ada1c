import Introspect.TypeRef.Basic

/-!
# Building type information

Type information starts as a bare class or interface (`TypeInfo.ofClass`, `TypeInfo.ofInterface`)
and is completed step by step. Package, modifiers and superclass are set, the last setting counting;
interfaces are appended. A run of steps is a list of `TypeInfo.Step`, carried out by
`TypeInfo.build`.
-/

namespace Introspect

namespace TypeInfo

/-- A class without package, modifiers and supertypes. -/
def ofClass (name : String) : TypeInfo :=
  { name, package := none, isInterface := false, modifiers := ∅, superclass := none,
    interfaces := [] }

/-- An interface without package, modifiers and supertypes. -/
def ofInterface (name : String) : TypeInfo :=
  { ofClass name with isInterface := true }

/-- Sets the package. -/
def inPackage (x : TypeInfo) (package : String) : TypeInfo :=
  { x with package := some package }

/-- Sets the modifiers. -/
def withModifiers (x : TypeInfo) (modifiers : ModifierSet) : TypeInfo :=
  { x with modifiers := modifiers }

/-- Sets the superclass. -/
def extending (x : TypeInfo) (superclass : TypeRef) : TypeInfo :=
  { x with superclass := some superclass }

/-- Appends an interface. -/
def implementing (x : TypeInfo) (interface : TypeRef) : TypeInfo :=
  { x with interfaces := x.interfaces ++ [interface] }

/-- The native type with this information. -/
def native (x : TypeInfo) : TypeRef := ⟨.native, x⟩

/-- The generated type with this information. -/
def generated (x : TypeInfo) : TypeRef := ⟨.generated, x⟩

/-- **One step of building.** -/
inductive Step where
  | inPackage (package : String)
  | withModifiers (modifiers : ModifierSet)
  | extending (superclass : TypeRef)
  | implementing (interface : TypeRef)

/-- Carries out one step. -/
def apply (x : TypeInfo) : Step → TypeInfo
  | .inPackage p => x.inPackage p
  | .withModifiers m => x.withModifiers m
  | .extending t => x.extending t
  | .implementing t => x.implementing t

/-- **Carries out steps** in order. -/
def build (x : TypeInfo) (steps : List Step) : TypeInfo :=
  steps.foldl apply x

@[simp] theorem build_nil (x : TypeInfo) : x.build [] = x := rfl

@[simp] theorem build_cons (x : TypeInfo) (s : Step) (steps : List Step) :
    x.build (s :: steps) = (x.apply s).build steps := rfl

end TypeInfo

instance : Inhabited TypeInfo := ⟨.ofClass ""⟩

instance : Inhabited TypeRef := ⟨(default : TypeInfo).native⟩

end Introspect

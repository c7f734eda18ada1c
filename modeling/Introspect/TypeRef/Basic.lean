import Introspect.Modifier.Basic

/-!
# Types and references to them

A type is known by its **information** (`TypeInfo`): its simple name, its package, whether it is an
interface, its modifiers and its direct supertypes. A **reference** (`TypeRef`) adds where the type
comes from, once and for all: the host platform supplies native types, the scripting engine
generates the others. Supertypes are references again, so types nest to any depth.

A slot without a type — a loosely typed parameter, a class without a declared superclass — holds no
reference, and is shown as `Object` (`TypeRef.nameOf`). That name is given in this one place.
-/

namespace Introspect

/-- **Where a type comes from.** -/
inductive Origin where
  | native
  | generated
  deriving DecidableEq, Repr

mutual

/-- **What is known about a class or interface.** -/
structure TypeInfo where
  name : String
  package : Option String
  isInterface : Bool
  modifiers : ModifierSet
  superclass : Option TypeRef
  interfaces : List TypeRef

/-- **A reference to a type**, with the type's origin. -/
structure TypeRef where
  origin : Origin
  info : TypeInfo

end

/-! ### Equality -/

mutual

/-- Equality of type information is decided field by field. -/
def TypeInfo.decEq : (a b : TypeInfo) → Decidable (a = b)
  | ⟨n, p, i, m, s, ts⟩, ⟨n', p', i', m', s', ts'⟩ =>
    if h : n = n' ∧ p = p' ∧ i = i' ∧ m = m' then
      match TypeRef.decEqOption s s', TypeRef.decEqList ts ts' with
      | .isTrue hs, .isTrue ht => .isTrue (by
          obtain ⟨rfl, rfl, rfl, rfl⟩ := h
          rw [hs, ht])
      | .isFalse hs, _ => .isFalse (by simp [hs])
      | _, .isFalse ht => .isFalse (by simp [ht])
    else .isFalse (by simpa using fun h₁ h₂ h₃ h₄ => absurd ⟨h₁, h₂, h₃, h₄⟩ h)

/-- Equality of references is decided on the origin and the information. -/
def TypeRef.decEq : (a b : TypeRef) → Decidable (a = b)
  | ⟨o, x⟩, ⟨o', x'⟩ =>
    if h : o = o' then
      match TypeInfo.decEq x x' with
      | .isTrue hx => .isTrue (by rw [h, hx])
      | .isFalse hx => .isFalse (by simp [hx])
    else .isFalse (by simp [h])

/-- The companion of `TypeRef.decEq` for absent references. -/
def TypeRef.decEqOption : (a b : Option TypeRef) → Decidable (a = b)
  | none, none => .isTrue rfl
  | none, some _ => .isFalse (by simp)
  | some _, none => .isFalse (by simp)
  | some x, some y =>
    match TypeRef.decEq x y with
    | .isTrue h => .isTrue (by rw [h])
    | .isFalse h => .isFalse (by simp [h])

/-- The companion of `TypeRef.decEq` for lists. -/
def TypeRef.decEqList : (a b : List TypeRef) → Decidable (a = b)
  | [], [] => .isTrue rfl
  | [], _ :: _ => .isFalse (by simp)
  | _ :: _, [] => .isFalse (by simp)
  | x :: xs, y :: ys =>
    match TypeRef.decEq x y with
    | .isTrue h =>
      match TypeRef.decEqList xs ys with
      | .isTrue hs => .isTrue (by rw [h, hs])
      | .isFalse hs => .isFalse (by simp [hs])
    | .isFalse h => .isFalse (by simp [h])

end

instance : DecidableEq TypeInfo := TypeInfo.decEq

instance : DecidableEq TypeRef := TypeRef.decEq

/-! ### References -/

namespace TypeRef

/-- The simple name of the type. -/
def name (t : TypeRef) : String := t.info.name

/-- Is the type an interface? -/
def isInterface (t : TypeRef) : Bool := t.info.isInterface

/-- The modifiers of the type. -/
def modifiers (t : TypeRef) : ModifierSet := t.info.modifiers

/-- The declared superclass. -/
def superclass (t : TypeRef) : Option TypeRef := t.info.superclass

/-- The interfaces that a class implements or an interface extends, in the order of declaration. -/
def interfaces (t : TypeRef) : List TypeRef := t.info.interfaces

/-- Was the type generated by the scripting engine? -/
def isGenerated (t : TypeRef) : Bool := t.origin == .generated

/-- **The qualified name**: the package and the simple name with a dot between them, or the simple
name alone when there is no package or an empty one. -/
def qualifiedName (t : TypeRef) : String :=
  match t.info.package with
  | some package => if package.isEmpty then t.name else package ++ "." ++ t.name
  | none => t.name

/-- The name shown for a slot without a type. -/
def defaultName : String := "Object"

/-- **The name shown for a slot**: the simple name of its type, if it has one. -/
def nameOf : Option TypeRef → String
  | some t => t.name
  | none => defaultName

@[simp] theorem nameOf_some (t : TypeRef) : nameOf (some t) = t.name := rfl

@[simp] theorem nameOf_none : nameOf none = defaultName := rfl

end TypeRef

/-! ### Names as an engine wants them -/

/-- **A way to name types.** An engine that embeds this library brings its own. -/
abbrev Naming := TypeRef → String

namespace Naming

/-- Types by their qualified names. -/
def qualified : Naming := TypeRef.qualifiedName

/-- Types by their simple names. -/
def simple : Naming := TypeRef.name

/-- The name of a type in an engine's way. -/
def nameOf (naming : Naming) (t : TypeRef) : String := naming t

end Naming

end Introspect

import Introspect.Document.Decode
import Introspect.Json.Compact

/-!
# Encoding

The tree of a descriptor has its fields as members, in the order of declaration. Fields that are
left out when blank are absent then; all others are written. A reference to a type has its origin
first and the fields of its information after it.
-/

namespace Introspect

/-! ### References to types -/

mutual

/-- **The tree of a reference.** -/
def TypeRef.encode : TypeRef → Json
  | ⟨origin, info⟩ => .object ((TypeRef.originKey, .string origin.word) :: info.members)

/-- The members of type information; those of `TypeInfo.schema`, as `TypeInfo.members_eq` says. -/
def TypeInfo.members : TypeInfo → List (String × Json)
  | ⟨name, package, isInterface, modifiers, superclass, interfaces⟩ =>
    [("name", .string name)] ++
    (match package with
      | none => []
      | some p => [("package", .string p)]) ++
    [("is_interface", .bool isInterface), ("modifiers", .string modifiers.text)] ++
    (match superclass with
      | none => []
      | some t => [("superclass", t.encode)]) ++
    (match interfaces with
      | [] => []
      | t :: ts => [("interfaces", .array (t.encode :: TypeRef.encodeList ts))])

/-- The trees of references. -/
def TypeRef.encodeList : List TypeRef → List Json
  | [] => []
  | t :: ts => t.encode :: TypeRef.encodeList ts

end

theorem TypeRef.encodeList_eq (ts : List TypeRef) :
    TypeRef.encodeList ts = ts.map TypeRef.encode := by
  induction ts with
  | nil => rfl
  | cons t ts ih => rw [TypeRef.encodeList, List.map_cons, ih]

/-! ### Values of a shape and records -/

/-- **The tree of a value.** -/
def Shape.encode : (s : Shape) → s.Value → Json
  | .text, v => .string v
  | .flag, v => .bool v
  | .word, v => .nat v.toNat
  | .modifiers, v => .string v.text
  | .typeRef, v => v.encode
  | .optional s, v =>
    match v with
    | none => .null
    | some x => s.encode x
  | .list s, v => .array (v.map s.encode)

namespace Schema

variable {α : Type} (S : Schema α)

/-- Is the field written for this record? -/
def isWritten (a : α) (f : S.Field) : Bool :=
  !(S.presence f == .leftOut && (S.shape f).isBlank (S.get a f))

/-- The members of a record. -/
def members (a : α) : List (String × Json) :=
  (S.fields.filter (S.isWritten a)).map fun f => (S.key f, (S.shape f).encode (S.get a f))

/-- **The tree of a record.** -/
def encode (a : α) : Json :=
  .object (S.members a)

end Schema

/-- The members of type information are those of the record. -/
theorem TypeInfo.members_eq (x : TypeInfo) : x.members = TypeInfo.schema.members x := by
  obtain ⟨name, package, isInterface, modifiers, superclass, interfaces⟩ := x
  cases package <;> cases superclass <;> cases interfaces <;>
    simp [TypeInfo.members, Schema.members, Schema.isWritten, TypeInfo.schema, Shape.encode,
      Shape.isBlank, TypeRef.encodeList_eq]

end Introspect

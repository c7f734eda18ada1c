import Introspect.Schema.Shape

/-!
# Schemas of records

A descriptor is a **record**: its fields have names, an order of declaration, and shapes. A record
is nothing but a value for each of its fields, and a `Schema` says so: `get` reads a field, `build`
makes a record from values, and the two undo each other. Reading and writing of all descriptors is
done once, for schemas.

A field has a **presence**. A required field has to be there. Any other field may be missing, and
then is blank; it is either always written, or left out of the writing when it is blank.
-/

namespace Introspect

/-- **May a field be missing, and is it written when it is blank?** -/
inductive Presence where
  | required
  | written
  | leftOut
  deriving DecidableEq, Repr

/-- **The schema of a record.** -/
structure Schema (α : Type) where
  /-- The name of the record in messages. -/
  title : String
  /-- The fields. -/
  Field : Type
  [decEq : DecidableEq Field]
  /-- The fields in the order of declaration. -/
  fields : List Field
  /-- The name of a field. -/
  key : Field → String
  /-- What a field holds. -/
  shape : Field → Shape
  /-- Whether a field may be missing. -/
  presence : Field → Presence
  /-- Reads a field. -/
  get : α → (f : Field) → (shape f).Value
  /-- Makes a record. -/
  build : ((f : Field) → (shape f).Value) → α
  mem_fields : ∀ f, f ∈ fields
  nodup_fields : fields.Nodup
  key_injective : ∀ f g, key f = key g → f = g
  get_build : ∀ v, get (build v) = v
  build_get : ∀ a, build (get a) = a

namespace Schema

variable {α : Type} (S : Schema α)

instance : DecidableEq S.Field := S.decEq

/-- The field of a name. -/
def field? (name : String) : Option S.Field :=
  S.fields.find? (S.key · == name)

/-- Has the field to be there? -/
def isRequired (f : S.Field) : Bool :=
  S.presence f == .required

/-- The number of fields. -/
def size : Nat := S.fields.length

/-! ### Slots -/

/-- **A record on the way**: the values found so far. -/
def Slots : Type := (f : S.Field) → Option (S.shape f).Value

variable {S}

/-- No value found yet. -/
def Slots.empty : S.Slots := fun _ => none

/-- One more value. -/
def Slots.put (slots : S.Slots) (f : S.Field) (v : (S.shape f).Value) : S.Slots :=
  fun g => if h : f = g then some (h ▸ v) else slots g

@[simp] theorem Slots.empty_apply (f : S.Field) : (Slots.empty : S.Slots) f = none := rfl

@[simp] theorem Slots.put_self (slots : S.Slots) (f : S.Field) (v : (S.shape f).Value) :
    slots.put f v f = some v := by
  simp [Slots.put]

theorem Slots.put_of_ne (slots : S.Slots) {f g : S.Field} (h : f ≠ g) (v : (S.shape f).Value) :
    slots.put f v g = slots g := by
  simp [Slots.put, h]

/-- The first required field without a value, in the order of declaration. -/
def Slots.missing? (slots : S.Slots) : Option S.Field :=
  S.fields.find? fun f => S.isRequired f && (slots f).isNone

/-- The record of the values found, blank where there is none. -/
def Slots.record (slots : S.Slots) : α :=
  S.build fun f => (slots f).getD (S.shape f).blank

/-! ### The field of a name -/

variable (S)

/-- A name belongs to the field that has it. -/
theorem field?_key (f : S.Field) : S.field? (S.key f) = some f := by
  unfold field?
  cases h : S.fields.find? (S.key · == S.key f) with
  | none => exact absurd (List.find?_eq_none.mp h f (S.mem_fields f)) (by simp)
  | some g =>
    have hg := List.find?_some h
    rw [S.key_injective g f (by simpa using hg)]

theorem field?_eq_some_iff {name : String} {f : S.Field} :
    S.field? name = some f ↔ S.key f = name := by
  constructor
  · intro h
    simpa using List.find?_some h
  · rintro rfl
    exact S.field?_key f

end Schema

end Introspect

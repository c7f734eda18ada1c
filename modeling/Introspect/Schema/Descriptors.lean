import Introspect.Member
import Introspect.Schema.Record

/-!
# The schemas of the descriptors

The five records that documents hold, with their fields in the order of declaration. A reference to
a type is not among them: it is type information with an origin (`TypeRef.decode`,
`TypeRef.encode`).
-/

namespace Introspect

/-! ### Type information -/

/-- The fields of type information. -/
inductive TypeInfo.Field where
  | name
  | package
  | isInterface
  | modifiers
  | superclass
  | interfaces
  deriving DecidableEq, Repr

/-- **Type information as a record.** -/
def TypeInfo.schema : Schema TypeInfo where
  title := "TypeInfo"
  Field := TypeInfo.Field
  fields := [.name, .package, .isInterface, .modifiers, .superclass, .interfaces]
  key
    | .name => "name"
    | .package => "package"
    | .isInterface => "is_interface"
    | .modifiers => "modifiers"
    | .superclass => "superclass"
    | .interfaces => "interfaces"
  shape
    | .name => .text
    | .package => .optional .text
    | .isInterface => .flag
    | .modifiers => .modifiers
    | .superclass => .optional .typeRef
    | .interfaces => .list .typeRef
  presence
    | .name => .required
    | .package => .leftOut
    | .isInterface => .written
    | .modifiers => .written
    | .superclass => .leftOut
    | .interfaces => .leftOut
  get x
    | .name => x.name
    | .package => x.package
    | .isInterface => x.isInterface
    | .modifiers => x.modifiers
    | .superclass => x.superclass
    | .interfaces => x.interfaces
  build v := ⟨v .name, v .package, v .isInterface, v .modifiers, v .superclass, v .interfaces⟩
  mem_fields f := by cases f <;> decide
  nodup_fields := by decide
  key_injective f g := by cases f <;> cases g <;> decide
  get_build v := by funext f; cases f <;> rfl
  build_get x := by cases x; rfl

/-! ### Members of the host -/

/-- The fields of a host method. -/
inductive HostMethod.Field where
  | name
  | accessFlags
  | returnType
  | parameterTypes
  deriving DecidableEq, Repr

/-- **A host method as a record.** -/
def HostMethod.schema : Schema HostMethod where
  title := "HostMethod"
  Field := HostMethod.Field
  fields := [.name, .accessFlags, .returnType, .parameterTypes]
  key
    | .name => "name"
    | .accessFlags => "access_flags"
    | .returnType => "return_type"
    | .parameterTypes => "parameter_types"
  shape
    | .name => .text
    | .accessFlags => .word
    | .returnType => .typeRef
    | .parameterTypes => .list .typeRef
  presence
    | .name => .required
    | .accessFlags => .written
    | .returnType => .required
    | .parameterTypes => .written
  get m
    | .name => m.name
    | .accessFlags => m.accessFlags
    | .returnType => m.returnType
    | .parameterTypes => m.parameterTypes
  build v := ⟨v .name, v .accessFlags, v .returnType, v .parameterTypes⟩
  mem_fields f := by cases f <;> decide
  nodup_fields := by decide
  key_injective f g := by cases f <;> cases g <;> decide
  get_build v := by funext f; cases f <;> rfl
  build_get _ := rfl

/-- The fields of a host field. -/
inductive HostField.Field where
  | name
  | accessFlags
  | fieldType
  deriving DecidableEq, Repr

/-- **A host field as a record.** -/
def HostField.schema : Schema HostField where
  title := "HostField"
  Field := HostField.Field
  fields := [.name, .accessFlags, .fieldType]
  key
    | .name => "name"
    | .accessFlags => "access_flags"
    | .fieldType => "field_type"
  shape
    | .name => .text
    | .accessFlags => .word
    | .fieldType => .typeRef
  presence
    | .name => .required
    | .accessFlags => .written
    | .fieldType => .required
  get x
    | .name => x.name
    | .accessFlags => x.accessFlags
    | .fieldType => x.fieldType
  build v := ⟨v .name, v .accessFlags, v .fieldType⟩
  mem_fields f := by cases f <;> decide
  nodup_fields := by decide
  key_injective f g := by cases f <;> cases g <;> decide
  get_build v := by funext f; cases f <;> rfl
  build_get _ := rfl

/-! ### Members of a script -/

/-- The fields of a script method. -/
inductive ScriptMethod.Field where
  | name
  | modifiers
  | returnType
  | parameterTypes
  | parameterNames
  deriving DecidableEq, Repr

/-- **A script method as a record.** -/
def ScriptMethod.schema : Schema ScriptMethod where
  title := "ScriptMethod"
  Field := ScriptMethod.Field
  fields := [.name, .modifiers, .returnType, .parameterTypes, .parameterNames]
  key
    | .name => "name"
    | .modifiers => "modifiers"
    | .returnType => "return_type"
    | .parameterTypes => "parameter_types"
    | .parameterNames => "parameter_names"
  shape
    | .name => .text
    | .modifiers => .modifiers
    | .returnType => .optional .typeRef
    | .parameterTypes => .list (.optional .typeRef)
    | .parameterNames => .list .text
  presence
    | .name => .required
    | .modifiers => .written
    | .returnType => .leftOut
    | .parameterTypes => .written
    | .parameterNames => .written
  get m
    | .name => m.name
    | .modifiers => m.modifiers
    | .returnType => m.returnType
    | .parameterTypes => m.parameterTypes
    | .parameterNames => m.parameterNames
  build v := ⟨v .name, v .modifiers, v .returnType, v .parameterTypes, v .parameterNames⟩
  mem_fields f := by cases f <;> decide
  nodup_fields := by decide
  key_injective f g := by cases f <;> cases g <;> decide
  get_build v := by funext f; cases f <;> rfl
  build_get _ := rfl

/-- The fields of a script variable. -/
inductive ScriptVariable.Field where
  | name
  | modifiers
  | type
  deriving DecidableEq, Repr

/-- **A script variable as a record.** -/
def ScriptVariable.schema : Schema ScriptVariable where
  title := "ScriptVariable"
  Field := ScriptVariable.Field
  fields := [.name, .modifiers, .type]
  key
    | .name => "name"
    | .modifiers => "modifiers"
    | .type => "type"
  shape
    | .name => .text
    | .modifiers => .modifiers
    | .type => .optional .typeRef
  presence
    | .name => .required
    | .modifiers => .written
    | .type => .leftOut
  get x
    | .name => x.name
    | .modifiers => x.modifiers
    | .type => x.type
  build v := ⟨v .name, v .modifiers, v .type⟩
  mem_fields f := by cases f <;> decide
  nodup_fields := by decide
  key_injective f g := by cases f <;> cases g <;> decide
  get_build v := by funext f; cases f <;> rfl
  build_get _ := rfl

end Introspect

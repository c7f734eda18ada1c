import Introspect.Decimal.Layout
import Introspect.Json.Lexeme
import Introspect.Json.Tree
import Introspect.Modifier.Text
import Introspect.Text.Quoted

/-!
# Why a document is refused

A text may fail to be a document at all (`Fault`). A document that is one may still not be what was
asked for; the causes are the constructors of `DataError`, and `DataError.message` words them.
-/

namespace Introspect

/-- **What was found** where something else was wanted. -/
inductive Found where
  | null
  | bool (value : Bool)
  | integer (value : Int)
  | double (value : Float)
  | string (value : String)
  | sequence
  | map

/-- A scalar as it is reported. -/
def Scalar.found : Scalar → Found
  | .null => .null
  | .bool b => .bool b
  | .number (.integer i) => .integer i
  | .number (.double x) => .double x
  | .string s => .string s

/-- The words for what was found. -/
def Found.message : Found → String
  | null => "null"
  | bool b => "boolean `" ++ (if b then "true" else "false") ++ "`"
  | integer i => "integer `" ++ toString i ++ "`"
  | double x => "floating point `" ++ String.ofList (doubleText x) ++ "`"
  | string s => "string " ++ Text.quoted s
  | sequence => "sequence"
  | map => "map"

/-- **What was wanted.** -/
inductive Wanted where
  | string
  | boolean
  | word
  | sequence
  | modifiers
  | record (title : String)
  | typeRef
  | origin
  deriving DecidableEq, Repr

/-- The words for what was wanted. -/
def Wanted.message : Wanted → String
  | string => "a string"
  | boolean => "a boolean"
  | word => "u16"
  | sequence => "a sequence"
  | modifiers => "a string value of `|` separated flags"
  | record title => "struct " ++ title
  | typeRef => "internally tagged enum TypeRef"
  | origin => "variant identifier"

/-- **Why a document is not the descriptor that was asked for.** -/
inductive DataError where
  /-- A value of another kind was wanted. -/
  | wrongType (found : Found) (wanted : Wanted)
  /-- An integer that 16 bits cannot hold. -/
  | wordOverflow (value : Int)
  /-- A number that stands for no origin. -/
  | unknownOriginIndex (index : Int)
  /-- A word that stands for no origin. -/
  | unknownOrigin (name : String)
  /-- A required field is not there. -/
  | missingField (name : String)
  /-- A field is there twice. -/
  | repeatedField (name : String)
  /-- A record given as an array ends before a required field. -/
  | tooShort (length : Nat) (title : String) (fields : Nat)
  /-- A record given as an array has more items than fields. -/
  | tooLong (length : Nat)
  /-- The same for type information whose items were collected first. -/
  | tooLongCollected (length fields : Nat)
  /-- A text that is no set of modifiers. -/
  | modifiers (cause : ModifierError)

/-- The message of an error. -/
def DataError.message : DataError → String
  | wrongType found wanted =>
    "invalid type: " ++ found.message ++ ", expected " ++ wanted.message
  | wordOverflow i => "invalid value: integer `" ++ toString i ++ "`, expected u16"
  | unknownOriginIndex i =>
    "invalid value: integer `" ++ toString i ++ "`, expected variant index 0 <= i < 2"
  | unknownOrigin name =>
    "unknown variant `" ++ name ++ "`, expected `native` or `generated`"
  | missingField name => "missing field `" ++ name ++ "`"
  | repeatedField name => "duplicate field `" ++ name ++ "`"
  | tooShort n title fields =>
    "invalid length " ++ toString n ++ ", expected struct " ++ title ++ " with " ++
      toString fields ++ " elements"
  | tooLong n => "invalid length " ++ toString n ++ ", expected fewer elements in array"
  | tooLongCollected n fields =>
    "invalid length " ++ toString n ++ ", expected " ++ toString fields ++
      " elements in sequence"
  | modifiers cause => cause.message

/-- **Why decoding fails**: the text is no document, or the document is not what was asked for. -/
inductive DecodeError where
  | fault (cause : Fault)
  | data (cause : DataError)

/-- The outcome of decoding. -/
abbrev Decoded (α : Type) := Except DecodeError α

namespace Decoded

variable {α : Type}

/-- A fault of the text ends decoding. -/
def ofFault : Except Fault α → Decoded α
  | .ok a => .ok a
  | .error f => .error (.fault f)

/-- An error of the data ends decoding. -/
def ofData : Except DataError α → Decoded α
  | .ok a => .ok a
  | .error e => .error (.data e)

@[simp] theorem ofFault_ok (a : α) : ofFault (.ok a) = .ok a := rfl

@[simp] theorem ofFault_error (f : Fault) :
    ofFault (.error f : Except Fault α) = .error (.fault f) := rfl

@[simp] theorem ofData_ok (a : α) : ofData (.ok a) = .ok a := rfl

@[simp] theorem ofData_error (e : DataError) :
    ofData (.error e : Except DataError α) = .error (.data e) := rfl

/-! ### One step after another -/

variable {β : Type}

@[simp] theorem ok_bind (a : α) (f : α → Decoded β) : ((.ok a : Decoded α) >>= f) = f a := rfl

@[simp] theorem error_bind (e : DecodeError) (f : α → Decoded β) :
    ((.error e : Decoded α) >>= f) = .error e := rfl

@[simp] theorem pure_eq_ok (a : α) : (pure a : Decoded α) = .ok a := rfl

/-- Two steps succeed when the first does and the second does with its result. -/
theorem bind_eq_ok {x : Decoded α} {f : α → Decoded β} {b : β} :
    (x >>= f) = .ok b ↔ ∃ a, x = .ok a ∧ f a = .ok b := by
  cases x <;> simp

/-- The same when the first step only checks. -/
theorem unit_bind_eq_ok {x : Decoded Unit} {f : Unit → Decoded β} {b : β} :
    (x >>= f) = .ok b ↔ x = .ok () ∧ f () = .ok b := by
  cases x <;> simp

/-- An outcome with a value, when it is asked for that alone. -/
theorem eq_ok_of_toOption {x : Decoded α} {a : α} (h : x.toOption = some a) : x = .ok a := by
  cases x with
  | error e => cases h
  | ok b => rw [Option.some.inj h]

@[simp] theorem ofFault_eq_ok {x : Except Fault α} {a : α} : ofFault x = .ok a ↔ x = .ok a := by
  cases x <;> simp

theorem ofData_eq_ok {x : Except DataError α} {a : α} : ofData x = .ok a ↔ x = .ok a := by
  cases x <;> simp

end Decoded

end Introspect

import Introspect.Document.Error
import Introspect.Json.Draft
import Introspect.Schema.Descriptors

/-!
# Decoding

Descriptors are decoded from drafts, in one pass from the front; the first thing that is wrong ends
it. What is accepted depends a little on the **place** where a value stands:

* in a *stream*, a text that is being read, only so many arrays and objects may be entered inside
  one another;
* in a *tree* that was finished before there is no such limit;
* what a reference to a type has *collected* is a finished part of a document, in which origins may
  also be given by number.

A record is an object with its fields as members, or an array of its fields in the order of
declaration. A reference to a type is an object or array that holds an origin besides the fields of
the type information. Its origin is decoded as soon as it is met, and everything else is collected
and decoded after the last member; so an origin that is missing or wrong is reported before anything
else, whatever the other members are.

* `Shape.decode` decodes a value of a shape, `Schema.decode` a record, `TypeRef.decode` a reference.
* Names that are not among the fields of a record are skipped. In a reference they are collected
  like the others, hence read in full.
-/

namespace Introspect

/-! ### Places -/

/-- **Where a value stands.** A stream has room for so many more arrays and objects inside one
another. -/
inductive Place where
  | stream (room : Nat)
  | tree
  | collected
  deriving DecidableEq, Repr

namespace Place

/-- The place inside an array or object that stands here. -/
def enter : Place → Decoded Place
  | stream 0 => .error (.fault .malformed)
  | stream (room + 1) => .ok (stream room)
  | tree => .ok tree
  | collected => .ok collected

/-- What is collected from a stream is first read in full; elsewhere it is finished already. -/
def keep : Place → Draft → Decoded Unit
  | stream room, d => .ofFault (d.check room)
  | tree, _ => .ok ()
  | collected, _ => .ok ()

/-- An array that goes on after the last field of a record. -/
def excess (length fields : Nat) : Place → DecodeError
  | stream _ => .fault .malformed
  | tree => .data (.tooLong length)
  | collected => .data (.tooLongCollected length fields)

end Place

/-! ### Scalars -/

namespace Draft

/-- **Decoding a scalar.** Of anything else it is only said what it is, without a look inside. -/
def decodeScalar {α : Type} (wanted : Wanted) (accept : Scalar → Except DataError α) :
    Draft → Decoded α
  | .leaf x =>
    match x.read with
    | .ok s => .ofData (accept s)
    | .error f => .error (.fault f)
  | .array _ _ => .error (.data (.wrongType .sequence wanted))
  | .object _ _ => .error (.data (.wrongType .map wanted))

end Draft

namespace Scalar

/-- A scalar where none is wanted. -/
def refuse {α : Type} (wanted : Wanted) (s : Scalar) : Except DataError α :=
  .error (.wrongType s.found wanted)

/-- A string. -/
def asText : Scalar → Except DataError String
  | .string s => .ok s
  | s => s.refuse .string

/-- A truth value. -/
def asFlag : Scalar → Except DataError Bool
  | .bool b => .ok b
  | s => s.refuse .boolean

/-- **A word of 16 bits.** A double is refused even where it is a whole number. -/
def asWord : Scalar → Except DataError UInt16
  | .number (.integer i) =>
    if 0 ≤ i ∧ i < UInt16.size then .ok (UInt16.ofNat i.toNat) else .error (.wordOverflow i)
  | s => s.refuse .word

/-- A set of modifiers, given by its text. -/
def asModifiers : Scalar → Except DataError ModifierSet
  | .string s =>
    match ModifierSet.ofText s with
    | .ok m => .ok m
    | .error e => .error (.modifiers e)
  | s => s.refuse .modifiers

end Scalar

/-! ### Origins -/

namespace Origin

/-- The word for an origin. -/
def word : Origin → String
  | .native => "native"
  | .generated => "generated"

/-- The origin of a word. -/
def ofWord (s : String) : Except DataError Origin :=
  if s = Origin.native.word then .ok .native
  else if s = Origin.generated.word then .ok .generated
  else .error (.unknownOrigin s)

/-- The origin of a number. -/
def ofIndex (i : Int) : Except DataError Origin :=
  if i = 0 then .ok .native
  else if i = 1 then .ok .generated
  else .error (.unknownOriginIndex i)

/-- **An origin.** Its number is accepted among collected values only. -/
def ofScalar (place : Place) : Scalar → Except DataError Origin
  | .string s => ofWord s
  | .number (.integer i) =>
    match place with
    -- negative numbers are not taken for positions
    | .collected => if 0 ≤ i then ofIndex i else (Scalar.number (.integer i)).refuse .origin
    | _ => (Scalar.number (.integer i)).refuse .origin
  | s => s.refuse .origin

/-- Decoding an origin. -/
def decode (place : Place) (d : Draft) : Decoded Origin :=
  d.decodeScalar .origin (ofScalar place)

end Origin

/-! ### Values of a shape -/

/-- How references to types are decoded. -/
abbrev RefDecoder := Place → Draft → Decoded TypeRef

/-- Decoding one item after another. -/
def decodeItems {α : Type} (decode : Draft → Decoded α) : List Draft → Decoded (List α)
  | [] => .ok []
  | d :: ds => do
    let x ← decode d
    let xs ← decodeItems decode ds
    return x :: xs

/-- **Decoding a list**: an array of items. -/
def decodeList {α : Type} (decode : Place → Draft → Decoded α) (place : Place) :
    Draft → Decoded (List α)
  | .array items ending => do
    let inside ← place.enter
    let xs ← decodeItems (decode inside) items
    .ofFault (Draft.ending ending)
    return xs
  | d => d.decodeScalar .sequence (Scalar.refuse .sequence)

/-- **Decoding an optional value**: `null` stands for its absence. -/
def decodeOption {α : Type} (decode : Draft → Decoded α) : Draft → Decoded (Option α)
  | .leaf (.sound .null) => .ok none
  | d => do
    let x ← decode d
    return some x

/-- **Decoding a value of a shape**, given how references are decoded. -/
def Shape.decode (ref : RefDecoder) : (s : Shape) → Place → Draft → Decoded s.Value
  | .text => fun _ d => d.decodeScalar .string Scalar.asText
  | .flag => fun _ d => d.decodeScalar .boolean Scalar.asFlag
  | .word => fun _ d => d.decodeScalar .word Scalar.asWord
  | .modifiers => fun _ d => d.decodeScalar .modifiers Scalar.asModifiers
  | .typeRef => ref
  | .optional s => fun place => decodeOption (s.decode ref place)
  | .list s => decodeList (s.decode ref)

/-! ### Records -/

namespace Schema

variable {α : Type} (S : Schema α) (ref : RefDecoder)

/-- The record of the values found, if no required field is missing. -/
def finish (slots : S.Slots) : Decoded α :=
  match slots.missing? with
  | some f => .error (.data (.missingField (S.key f)))
  | none => .ok slots.record

/-- **The members of an object**, one after the other. A field that comes a second time is reported
before its value is looked at. -/
def decodeMembers (place : Place) (slots : S.Slots) :
    List (Lexeme String × Draft) → Decoded S.Slots
  | [] => .ok slots
  | (k, d) :: ms => do
    let name ← .ofFault k.read
    match S.field? name with
    -- unknown names are skipped, however often they come
    | none =>
      .ofFault d.skip
      decodeMembers place slots ms
    | some f =>
      if (slots f).isSome then .error (.data (.repeatedField (S.key f)))
      else
        let v ← (S.shape f).decode ref place d
        decodeMembers place (slots.put f v) ms

/-- **The items of an array** for the fields that are left, `index` being the position of the next.
An array may stop before a field that need not be there. -/
def decodeFields (place : Place) (ending : Option Fault) :
    List S.Field → Nat → S.Slots → List Draft → Decoded (S.Slots × List Draft)
  | [], _, slots, ds => .ok (slots, ds)
  | f :: fs, index, slots, d :: ds => do
    let v ← (S.shape f).decode ref place d
    decodeFields place ending fs (index + 1) (slots.put f v) ds
  | f :: fs, index, slots, [] => do
    .ofFault (Draft.ending ending)
    if S.isRequired f then .error (.data (.tooShort index S.title S.size))
    else decodeFields place ending fs (index + 1) slots []

/-- A record given by the members of an object. -/
def ofMembers (place : Place) (members : List (Lexeme String × Draft)) (ending : Option Fault) :
    Decoded α := do
  let slots ← S.decodeMembers ref place .empty members
  .ofFault (Draft.ending ending)
  S.finish slots

/-- A record given by the items of an array. -/
def ofItems (place : Place) (items : List Draft) (ending : Option Fault) : Decoded α := do
  let (slots, rest) ← S.decodeFields ref place ending S.fields 0 .empty items
  match rest with
  | [] =>
    .ofFault (Draft.ending ending)
    S.finish slots
  -- the items that are left over are not looked at
  | _ :: _ => .error (place.excess items.length S.size)

/-- **Decoding a record.** -/
def decode (place : Place) : Draft → Decoded α
  | .object members ending => do
    let inside ← place.enter
    S.ofMembers ref inside members ending
  | .array items ending => do
    let inside ← place.enter
    S.ofItems ref inside items ending
  | d => d.decodeScalar (.record S.title) (Scalar.refuse (.record S.title))

end Schema

/-! ### References to types -/

namespace TypeRef

/-- The name of the member that holds the origin. -/
def originKey : String := "origin"

/-- **Collecting the members of a reference.** The origin is decoded where it stands, the others are
kept for later. -/
def collect (place : Place) (origin : Option Origin) :
    List (Lexeme String × Draft) → Decoded (Option Origin × List (Lexeme String × Draft))
  | [] => .ok (origin, [])
  | (k, d) :: ms => do
    let name ← .ofFault k.read
    if name = originKey then
      -- reported before its value is looked at
      if origin.isSome then .error (.data (.repeatedField originKey))
      else
        let o ← Origin.decode place d
        collect place (some o) ms
    else
      place.keep d
      let (o, rest) ← collect place origin ms
      return (o, (k, d) :: rest)

/-- Collecting the items after the origin. -/
def collectItems (place : Place) : List Draft → Decoded Unit
  | [] => .ok ()
  | d :: ds => do
    place.keep d
    collectItems place ds

/-- A reference given by the members of an object. -/
def ofMembers (ref : RefDecoder) (place : Place) (members : List (Lexeme String × Draft))
    (ending : Option Fault) : Decoded TypeRef := do
  let (origin, rest) ← collect place none members
  .ofFault (Draft.ending ending)
  match origin with
  | none => .error (.data (.missingField originKey))
  | some o =>
    -- the others are decoded as collected values
    let info ← TypeInfo.schema.ofMembers ref .collected rest none
    return ⟨o, info⟩

/-- A reference given by the items of an array, the origin first. -/
def ofItems (ref : RefDecoder) (place : Place) (ending : Option Fault) :
    List Draft → Decoded TypeRef
  | [] => do
    .ofFault (Draft.ending ending)
    .error (.data (.missingField originKey))
  | d :: ds => do
    let o ← Origin.decode place d
    collectItems place ds
    .ofFault (Draft.ending ending)
    let info ← TypeInfo.schema.ofItems ref .collected ds none
    return ⟨o, info⟩

/-- Decoding a reference whose parts are decoded by `ref`. -/
def decodeWith (ref : RefDecoder) (place : Place) : Draft → Decoded TypeRef
  | .object members ending => do
    let inside ← place.enter
    ofMembers ref inside members ending
  | .array items ending => do
    let inside ← place.enter
    ofItems ref inside ending items
  | d => d.decodeScalar .typeRef (Scalar.refuse .typeRef)

/-- References that nest at most `depth` deep. -/
def decodeTo : Nat → RefDecoder
  | 0 => fun _ _ => .error (.fault .malformed)
  | depth + 1 => decodeWith (decodeTo depth)

/-- **Decoding a reference to a type.** Every reference inside it stands inside an array or object
of the draft, so the depth of the draft bounds how deep references nest. -/
def decode : RefDecoder :=
  fun place d => decodeTo (d.depth + 1) place d

end TypeRef

end Introspect

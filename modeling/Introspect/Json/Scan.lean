import Introspect.Json.Draft
import Introspect.Json.StringLiteral

/-!
# From text to draft

`Draft.scan` finds the value at the front of a text, and gives its draft with what follows it. It
never fails: where the text stops being JSON the draft ends in a fault.

The scanner descends into arrays and objects with a count that falls with every step. Each array,
object, comma and colon costs at least one character, so twice the length of the text is always
enough, and `Draft.scan` shows no count.

* An item or a member's value is *ended* if the text stops before it, *malformed* if some other
  character stands where it should start.
* After an item or a member only a comma or the closing bracket may follow; after a comma another
  item or member has to.
-/

namespace Introspect

namespace Json

/-- The four blanks of a JSON text. -/
def isBlank (c : Char) : Bool :=
  c == ' ' || c == '\n' || c == '\t' || c == '\r'

/-- The text from its first character that is not blank. -/
def dropBlanks (cs : List Char) : List Char :=
  cs.dropWhile isBlank

end Json

namespace Draft

open Json (dropBlanks)

/-! ### Scalars -/

/-- The rest of a word that has begun. -/
def expect : List Char → List Char → Except Fault (List Char)
  | [], cs => .ok cs
  | _ :: _, [] => .error .ended
  | w :: ws, c :: cs => if c = w then expect ws cs else .error .malformed

/-- A word that stands for a value. -/
def scanWord (word : List Char) (value : Scalar) (cs : List Char) : Draft × List Char :=
  match expect word cs with
  | .ok rest => (.leaf (.sound value), rest)
  | .error f => (.broken f, [])

/-- A string, from behind its opening mark. -/
def scanString (cs : List Char) : Draft × List Char :=
  let (x, rest) := StringLiteral.lex cs
  (.leaf (x.map .string), rest)

/-- A number. One that is out of range can only be skipped. -/
def scanNumber (cs : List Char) : Draft × List Char :=
  match Numeral.lex cs with
  | (.faulty r s, rest) => (.leaf (.faulty r s), rest)
  | (.sound x, rest) =>
    match x.number? with
    | some n => (.leaf (.sound (.number n)), rest)
    | none => (.leaf (.faulty .malformed none), rest)

/-- A value that is neither an array nor an object, given its first character. -/
def scanScalar (c : Char) (cs : List Char) : Draft × List Char :=
  match c with
  | 'n' => scanWord ['u', 'l', 'l'] .null cs
  | 't' => scanWord ['r', 'u', 'e'] (.bool true) cs
  | 'f' => scanWord ['a', 'l', 's', 'e'] (.bool false) cs
  | '"' => scanString cs
  | c => if c = '-' ∨ c.isDigit then scanNumber (c :: cs) else (.broken .malformed, [])

/-! ### Arrays and objects -/

/-- The fault of a text that has no comma and no closing bracket where one has to stand. -/
def unclosed : List Char → Fault
  | [] => .ended
  | _ :: _ => .malformed

mutual

/-- The value at the front of a text, blanks before it dropped. -/
def scanValue : Nat → List Char → Draft × List Char
  -- the count of `scan` does not run out
  | 0, _ => (.broken .malformed, [])
  | fuel + 1, cs =>
    match dropBlanks cs with
    | [] => (.broken .ended, [])
    | '[' :: rest =>
      match dropBlanks rest with
      | ']' :: rest => (.array [] none, rest)
      -- only the first item may be missing: behind a comma there has to be one
      | rest =>
        let ((items, ending), rest) := scanItems fuel rest
        (.array items ending, rest)
    | '{' :: rest =>
      match dropBlanks rest with
      | '}' :: rest => (.object [] none, rest)
      | rest =>
        let ((members, ending), rest) := scanMembers fuel rest
        (.object members ending, rest)
    | c :: rest => scanScalar c rest

/-- The items of an array from the next one on, with the end of the array. -/
def scanItems : Nat → List Char → (List Draft × Option Fault) × List Char
  | 0, _ => (([], some .malformed), [])
  | fuel + 1, cs =>
    let (item, rest) := scanValue fuel cs
    match dropBlanks rest with
    | ']' :: rest => (([item], none), rest)
    | ',' :: rest =>
      let ((items, ending), rest) := scanItems fuel rest
      ((item :: items, ending), rest)
    -- the item stands, the array does not
    | rest => (([item], some (unclosed rest)), [])

/-- The members of an object from the next one on, with the end of the object. A member without its
colon has a value that fails at once. -/
def scanMembers : Nat → List Char → (List (Lexeme String × Draft) × Option Fault) × List Char
  | 0, _ => (([], some .malformed), [])
  | fuel + 1, cs =>
    match dropBlanks cs with
    | '"' :: rest =>
      let (name, rest) := StringLiteral.lex rest
      match dropBlanks rest with
      | ':' :: rest =>
        let (value, rest) := scanValue fuel rest
        match dropBlanks rest with
        | '}' :: rest => (([(name, value)], none), rest)
        | ',' :: rest =>
          let ((members, ending), rest) := scanMembers fuel rest
          (((name, value) :: members, ending), rest)
        | rest => (([(name, value)], some (unclosed rest)), [])
      -- no colon
      | rest => (([(name, .broken (unclosed rest))], none), [])
    -- no name
    | rest => (([], some (unclosed rest)), [])

end

/-- **The draft of a text**: of the value at its front, with what follows that value. -/
def scan (cs : List Char) : Draft × List Char :=
  scanValue (2 * cs.length + 2) cs

end Draft

/-- The end of a document: nothing but blanks may follow the value. -/
def Json.atEnd (rest : List Char) : Except Fault Unit :=
  match Json.dropBlanks rest with
  | [] => .ok ()
  | _ :: _ => .error .malformed

/-- **The tree of a text**, if the text is a JSON document, however deep. -/
def Json.ofText? (s : String) : Option Json :=
  let (d, rest) := Draft.scan s.toList
  match Json.atEnd rest with
  | .ok _ => d.tree?
  | .error _ => none

end Introspect

import Introspect.Json.Lexeme
import Introspect.Text.Hex

/-!
# Strings of a JSON text

A string stands between quotation marks. Inside, a quotation mark, a backslash and the characters
below U+0020 are written as escapes, and any character may be written as the hexadecimal digits of
its UTF-16 code units.

* `StringLiteral.encode` writes a string with as few escapes as possible.
* `StringLiteral.pieces` takes the text after the opening mark apart, up to the closing one, into
  characters and code units; it is all that skipping a string needs.
* `StringLiteral.assemble` joins pairs of surrogate code units to characters, and refuses those that
  stand alone.
* `StringLiteral.lex` puts the two together.
-/

namespace Introspect.StringLiteral

/-! ### Writing -/

/-- **One character inside quotation marks.** Characters below U+0020 that have no short escape are
written with four hexadecimal digits in lower case. -/
def escape (c : Char) : List Char :=
  match c with
  | '"' => ['\\', '"']
  | '\\' => ['\\', '\\']
  | '\x08' => ['\\', 'b']
  | '\x0c' => ['\\', 'f']
  | '\n' => ['\\', 'n']
  | '\r' => ['\\', 'r']
  | '\t' => ['\\', 't']
  | c =>
    if c.toNat < 0x20 then
      ['\\', 'u', '0', '0', Nat.digitChar (c.toNat / 16), Nat.digitChar (c.toNat % 16)]
    else
      [c]

/-- A string between quotation marks. -/
def encode (s : String) : List Char :=
  '"' :: (s.toList.flatMap escape ++ ['"'])

/-! ### Reading -/

/-- What one step inside a string yields: a character, or a code unit given by its digits. -/
inductive Piece where
  | char (c : Char)
  | unit (n : Nat)
  deriving DecidableEq, Repr

/-- The character behind a backslash and one letter. -/
def shortEscape? : Char → Option Char
  | '"' => some '"'
  | '\\' => some '\\'
  | '/' => some '/'
  | 'b' => some '\x08'
  | 'f' => some '\x0c'
  | 'n' => some '\n'
  | 'r' => some '\r'
  | 't' => some '\t'
  | _ => none

/-- The inside of a string: its pieces, and then the text behind the closing mark or the fault that
stands before it. -/
structure Body where
  pieces : List Piece
  rest : Except Fault (List Char)

namespace Body

/-- A body that stops at once. -/
def stop (f : Fault) : Body := ⟨[], .error f⟩

/-- One more piece in front. -/
def cons (p : Piece) (b : Body) : Body := ⟨p :: b.pieces, b.rest⟩

end Body

/-- **Taking a string apart**, from behind its opening mark. The four digits of a code unit are
looked for as four bytes: a text with fewer bytes left has ended, whatever they are. -/
def pieces : List Char → Body
  | [] => .stop .ended
  | '"' :: rest => ⟨[], .ok rest⟩
  | ['\\'] => .stop .ended
  | '\\' :: 'u' :: a :: b :: c :: d :: rest =>
    match Text.hexValue? [a, b, c, d] with
    | some n => .cons (.unit n) (pieces rest)
    | none => .stop .malformed
  -- fewer than four characters
  | '\\' :: 'u' :: rest =>
    .stop (if (String.ofList rest).utf8ByteSize < 4 then .ended else .malformed)
  | '\\' :: e :: rest =>
    match shortEscape? e with
    | some c => .cons (.char c) (pieces rest)
    | none => .stop .malformed
  | c :: rest =>
    if c.toNat < 0x20 then .stop .malformed else .cons (.char c) (pieces rest)

/-- Is the code unit the first half of a pair? -/
def isHigh (n : Nat) : Bool := 0xd800 ≤ n && n ≤ 0xdbff

/-- Is the code unit the second half of a pair? -/
def isLow (n : Nat) : Bool := 0xdc00 ≤ n && n ≤ 0xdfff

/-- The character of a pair. -/
def join (high low : Nat) : Char :=
  Char.ofNat (0x10000 + (high - 0xd800) * 0x400 + (low - 0xdc00))

/-- **Joining code units.** A half without its partner is malformed; after a first half, a text that
stops for another reason stops for that reason (`fault`). -/
def assemble (fault : Option Fault) : List Piece → Except Fault (List Char)
  | [] =>
    match fault with
    | none => .ok []
    | some f => .error f
  | .char c :: ps => (assemble fault ps).map (c :: ·)
  | .unit n :: ps =>
    if isLow n then .error .malformed
    else if isHigh n then
      -- the second half has to be the next piece
      match ps with
      | [] => .error (fault.getD .malformed)
      | .char _ :: _ => .error .malformed
      | .unit m :: qs =>
        if isLow m then (assemble fault qs).map (join n m :: ·) else .error .malformed
    else (assemble fault ps).map (Char.ofNat n :: ·)

/-- **The string at the front of a text**, from behind its opening mark, and what follows it. -/
def lex (cs : List Char) : Lexeme String × List Char :=
  let body := pieces cs
  match body.rest with
  | .ok rest =>
    match assemble none body.pieces with
    | .ok s => (.sound (String.ofList s), rest)
    -- a lone half does not disturb skipping
    | .error f => (.faulty f none, rest)
  | .error f =>
    match assemble (some f) body.pieces with
    | .ok _ => (.broken f, [])
    | .error g => (.faulty g (some f), [])

end Introspect.StringLiteral

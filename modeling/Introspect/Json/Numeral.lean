import Introspect.Json.Lexeme

/-!
# Numbers of a JSON text

A **numeral** is a number as it is spelled: a sign, whole digits without leading zeros, and possibly
a fraction and an exponent. Its **number** is what it stands for:

* an integer, when it has neither fraction nor exponent, is not a negative zero, and lies between
  `-2 ^ 63` and `2 ^ 64 - 1`;
* a double otherwise;
* nothing at all when the double would be infinite.

`Numeral.lex` finds the numeral at the front of a text, `Numeral.number?` gives its number.
-/

namespace Introspect

/-- **A number of a document**: an exact integer of 64 bits, signed or not, or a double. -/
inductive Number where
  | integer (value : Int)
  | double (value : Float)

/-- **A number as it is spelled.** The exponent is its sign and its digits. -/
structure Numeral where
  negative : Bool := false
  whole : List Char
  fraction : Option (List Char) := none
  exponent : Option (Bool × List Char) := none
  deriving DecidableEq, Repr

namespace Numeral

/-! ### Lexing -/

/-- A number broken off: a reader waits for more text where the text has ended, while one that
skips finds no digit where a digit has to stand. -/
def brokenOff {α : Type} : List Char → Lexeme α
  | [] => .faulty .ended (some .malformed)
  | _ :: _ => .broken .malformed

/-- The digits at the front, and the rest. -/
def digits (cs : List Char) : List Char × List Char :=
  (cs.takeWhile Char.isDigit, cs.dropWhile Char.isDigit)

/-- The whole part: one zero, or digits that do not start with zero. -/
def lexWhole (cs : List Char) : Lexeme (List Char) × List Char :=
  match digits cs with
  | ([], rest) => (brokenOff rest, [])
  -- digits behind a leading zero
  | ('0' :: _ :: _, _) => (.broken .malformed, [])
  | (ds, rest) => (.sound ds, rest)

/-- The fraction, if a point follows. -/
def lexFraction : List Char → Lexeme (Option (List Char)) × List Char
  | '.' :: cs =>
    match digits cs with
    | ([], rest) => (brokenOff rest, [])
    | (ds, rest) => (.sound (some ds), rest)
  | cs => (.sound none, cs)

/-- The digits of an exponent after its sign. -/
def lexExponentDigits (negative : Bool) (cs : List Char) :
    Lexeme (Option (Bool × List Char)) × List Char :=
  match digits cs with
  | ([], rest) => (brokenOff rest, [])
  | (ds, rest) => (.sound (some (negative, ds)), rest)

/-- The exponent, if its letter follows. -/
def lexExponent : List Char → Lexeme (Option (Bool × List Char)) × List Char
  | c :: cs =>
    if c = 'e' ∨ c = 'E' then
      match cs with
      | '+' :: ds => lexExponentDigits false ds
      | '-' :: ds => lexExponentDigits true ds
      | ds => lexExponentDigits false ds
    else (.sound none, c :: cs)
  | [] => (.sound none, [])

/-- The numeral after its sign. -/
def lexUnsigned (negative : Bool) (cs : List Char) : Lexeme Numeral × List Char :=
  match lexWhole cs with
  | (.faulty r s, rest) => (.faulty r s, rest)
  | (.sound whole, rest) =>
    match lexFraction rest with
    | (.faulty r s, rest) => (.faulty r s, rest)
    | (.sound fraction, rest) =>
      match lexExponent rest with
      | (.faulty r s, rest) => (.faulty r s, rest)
      | (.sound exponent, rest) => (.sound ⟨negative, whole, fraction, exponent⟩, rest)

/-- **The numeral at the front of a text**, and what follows it. -/
def lex : List Char → Lexeme Numeral × List Char
  | '-' :: cs => lexUnsigned true cs
  | cs => lexUnsigned false cs

/-! ### The double of a numeral

A double is found from a significand of 64 bits and a power of ten, with one rounding for each. The
significand takes digits as long as they fit: further whole digits only raise the power, further
digits of the fraction are dropped. -/

/-- The largest significand. -/
def maxSignificand : Nat := UInt64.size - 1

/-- A significand being read: its value, the power of ten still owed, and whether a digit has
already been turned away. -/
structure Significand where
  value : Nat
  power : Int
  full : Bool
  deriving DecidableEq, Repr

namespace Significand

/-- One more digit, if it fits. -/
def push? (s : Significand) (c : Char) : Option Nat :=
  let n := s.value * 10 + (c.toNat - '0'.toNat)
  if s.full || maxSignificand < n then none else some n

/-- A digit of the whole part. -/
def pushWhole (s : Significand) (c : Char) : Significand :=
  match s.push? c with
  | some n => { s with value := n }
  | none => { s with power := s.power + 1, full := true }

/-- A digit of the fraction. -/
def pushFraction (s : Significand) (c : Char) : Significand :=
  match s.push? c with
  | some n => { s with value := n, power := s.power - 1 }
  | none => { s with full := true }

end Significand

/-- The significand of a numeral. The fraction is tried afresh. -/
def significand (x : Numeral) : Significand :=
  let s := x.whole.foldl Significand.pushWhole ⟨0, 0, false⟩
  (x.fraction.getD []).foldl Significand.pushFraction { s with full := false }

/-- The exponent as it is written; zero when there is none. -/
def writtenExponent (x : Numeral) : Int :=
  match x.exponent with
  | none => 0
  | some (negative, ds) =>
    let n := Nat.ofDigitChars 10 ds 0
    if negative then -(n : Int) else n

/-- The largest exponent that is looked at: beyond it a number is zero or out of range. -/
def maxExponent : Nat := 0x7fffffff

/-- A power of ten from `10 ^ 0` to `10 ^ 308`. -/
def powerOfTen (n : Nat) : Float :=
  Float.ofScientific 1 false n

/-- Division by a power of ten, in steps of at most `10 ^ 308`. A nonzero significand becomes zero
after two such steps, so three are enough. -/
def divide : Nat → Float → Nat → Float
  | 0, x, _ => x
  | fuel + 1, x, n =>
    if n ≤ 308 then x / powerOfTen n
    else if x == 0 then x
    else divide fuel (x / powerOfTen 308) (n - 308)

/-- **A significand times a power of ten**, or nothing when that is out of range. -/
def scale? (x : Float) (power : Int) : Option Float :=
  match power with
  | .negSucc n => some (divide 4 x (n + 1))
  | .ofNat n =>
    if n ≤ 308 then
      let y := x * powerOfTen n
      if y.isInf then none else some y
    else if x == 0 then some x
    else none

/-- The double of a numeral without its sign. -/
def magnitude? (x : Numeral) : Option Float :=
  let s := x.significand
  let e := x.writtenExponent
  -- out of range, unless the digits are all zero or the exponent is negative
  if maxExponent < e.natAbs then
    if s.value ≠ 0 ∧ 0 < e then none else some 0
  else
    scale? (Float.ofNat s.value) (s.power + e)

/-- **The number that a numeral stands for**, if it is in range. -/
def number? (x : Numeral) : Option Number :=
  let double := x.magnitude?.map fun d => Number.double (if x.negative then -d else d)
  match x.fraction, x.exponent with
  | none, none =>
    let n := Nat.ofDigitChars 10 x.whole 0
    if x.negative then
      -- a negative zero is a double
      if 0 < n ∧ n ≤ UInt64.size / 2 then some (.integer (-(n : Int))) else double
    else
      if n < UInt64.size then some (.integer n) else double
  | _, _ => double

end Numeral

end Introspect

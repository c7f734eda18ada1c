import Introspect.Decimal.Shortest

/-!
# How a double is written

`doubleText` writes a double with its shortest digits (`Decimal.shortest`) in one of two forms,
chosen by the exponent of the leading digit:

* from -5 to 15 in positional notation, always with a point and at least one digit on each side of
  it (`0.00001`, `1.0`, `1500000.0`);
* otherwise in scientific notation, with a point only where a digit follows it, and always with a
  sign before the exponent (`1e+20`, `1.5e-7`).
-/

namespace Introspect

namespace Decimal

/-- The digits of the coefficient. -/
def digits (x : Decimal) : List Char :=
  Nat.toDigits 10 x.coefficient

/-- The exponent of the leading digit. -/
def leadingExponent (x : Decimal) : Int :=
  x.exponent + (x.digits.length : Int) - 1

/-- Positional notation. -/
def positional (x : Decimal) : List Char :=
  let ds := x.digits
  let k := x.leadingExponent
  if k < 0 then
    -- zeros between the point and the first digit
    ['0', '.'] ++ List.replicate (-k - 1).toNat '0' ++ ds
  else if x.exponent < 0 then
    ds.take (k.toNat + 1) ++ '.' :: ds.drop (k.toNat + 1)
  else
    -- a whole number
    ds ++ List.replicate x.exponent.toNat '0' ++ ['.', '0']

/-- Scientific notation. -/
def scientific (x : Decimal) : List Char :=
  let fraction := match x.digits.tail with
    | [] => []
    | ds => '.' :: ds
  let k := x.leadingExponent
  x.digits.take 1 ++ fraction ++ ['e', if k < 0 then '-' else '+'] ++ Nat.toDigits 10 k.natAbs

/-- **The written form of a positive decimal.** -/
def text (x : Decimal) : List Char :=
  if -5 ≤ x.leadingExponent ∧ x.leadingExponent ≤ 15 then x.positional else x.scientific

end Decimal

/-- **The written form of a double.** Zero keeps its sign. -/
def doubleText (x : Float) : List Char :=
  let sign : List Char := if x.toBits >>> 63 = 1 then ['-'] else []
  if x.isNaN then ['N', 'a', 'N']
  else if x.isInf then sign ++ ['i', 'n', 'f']
  else if x == 0 then sign ++ ['0', '.', '0']
  else sign ++ (Decimal.shortest (.ofBits x.toBits)).text

end Introspect

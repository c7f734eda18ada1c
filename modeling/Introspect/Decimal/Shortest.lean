/-!
# The shortest decimal that reads back

A double stands for an interval of reals, those that round to it. Among the decimals in that
interval the one to show has the fewest digits; of several with equally few, the one nearest to the
double itself, and of two equally near the one with the even last digit.

* `Decimal.Dyadic` is the exact value of a positive finite double, `mantissa · 2 ^ exponent`, with
  the interval around it.
* `Decimal.shortest` searches the grids of one, two, … seventeen digits in exact arithmetic. On each
  grid only the two neighbours of the value need to be tried: if any point of the grid lies in the
  interval, so does one of them. Seventeen digits always suffice.
-/

namespace Introspect

/-- A positive decimal, `coefficient · 10 ^ exponent`. -/
structure Decimal where
  coefficient : Nat
  exponent : Int
  deriving DecidableEq, Repr

namespace Decimal

/-- **A positive dyadic number** `mantissa · 2 ^ exponent` with the interval that rounds to it. The
interval reaches half a unit up and down, and only a quarter of a unit down where the numbers below
lie twice as dense (`narrow`). Its ends belong to it exactly when the mantissa is even. -/
structure Dyadic where
  mantissa : Nat
  exponent : Int
  narrow : Bool
  deriving DecidableEq, Repr

namespace Dyadic

/-- The bit that a double does not spell out, above the 52 bits of its fraction. -/
def hiddenBit : Nat := 1 <<< 52

/-- **Reading the fields of a double.** The 64 bits of a finite double hold a sign, eleven bits of
exponent and 52 bits of fraction; the sign is left out here. -/
def ofBits (bits : UInt64) : Dyadic :=
  let field := (bits >>> 52).toNat % 2048
  let fraction := bits.toNat % hiddenBit
  if field = 0 then
    -- subnormal: no hidden bit
    ⟨fraction, -1074, false⟩
  else
    ⟨hiddenBit + fraction, (field : Int) - 1075, fraction = 0 && 1 < field⟩

/-- A number of quarter units over a power of ten, as a fraction. -/
def scale (x : Dyadic) (quarters : Nat) (power : Int) : Nat × Nat :=
  (quarters * Nat.pow 2 (x.exponent - 2).toNat * Nat.pow 10 (-power).toNat,
    Nat.pow 2 (2 - x.exponent).toNat * Nat.pow 10 power.toNat)

/-- Is `d · 10 ^ power` one of the reals that round to the number? -/
def covers (x : Dyadic) (power : Int) (d : Nat) : Bool :=
  let (low, den) := x.scale (4 * x.mantissa - if x.narrow then 1 else 2) power
  let (high, _) := x.scale (4 * x.mantissa + 2) power
  if x.mantissa % 2 = 0 then low ≤ d * den && d * den ≤ high
  else low < d * den && d * den < high

/-- The exponent of the leading decimal digit: the `k` with `10 ^ k ≤ x < 10 ^ (k + 1)`. The number
is first scaled far above one, so that its whole part has all the digits that matter. -/
def leading (x : Dyadic) : Int :=
  let (num, den) := x.scale (4 * x.mantissa) (-330)
  ((Nat.toDigits 10 (num / den)).length : Int) - 331

/-- **One grid.** The neighbours of the number among the multiples of `10 ^ power`, the lower one
first; of two that both round to the number the nearer is taken, and the even one of equally near
ones. -/
def onGrid? (x : Dyadic) (power : Int) : Option Nat :=
  let (num, den) := x.scale (4 * x.mantissa) power
  let d := num / den
  match x.covers power d, x.covers power (d + 1) with
  | false, false => none
  | true, false => some d
  | false, true => some (d + 1)
  | true, true =>
    -- both round to the number: compare the distances
    let below := num - d * den
    let above := (d + 1) * den - num
    if below < above then some d
    else if above < below then some (d + 1)
    else some (if d % 2 = 0 then d else d + 1)

end Dyadic

/-- Zeros at the end of the coefficient are moved into the exponent; `fuel` bounds their number. -/
def trimZeros : Nat → Decimal → Decimal
  | 0, x => x
  | fuel + 1, x =>
    if x.coefficient % 10 = 0 then trimZeros fuel ⟨x.coefficient / 10, x.exponent + 1⟩ else x

/-- **The shortest decimal that rounds to the number**, nearest among the equally short. The first
grid with a hit decides; a number of more than seventeen digits does not occur. -/
def shortest (x : Dyadic) : Decimal :=
  let k := x.leading
  let grid (n : Nat) : Option Decimal :=
    let power := k - (n : Int)
    (x.onGrid? power).map (⟨·, power⟩)
  trimZeros 20 (((List.range 17).findSome? grid).getD ⟨0, 0⟩)

end Decimal

end Introspect

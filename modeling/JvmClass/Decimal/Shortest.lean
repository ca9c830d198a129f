/-!
# Shortest decimals

The decimal with the fewest digits that reads back to a given binary floating-point number, and
the nearest one of those. A number is given by its bits; `Width` says how they are divided.
-/

namespace JvmClass.Decimal

/-- Bits of the fraction and of the exponent of a binary floating-point number. -/
structure Width where
  fraction : Nat
  exponent : Nat

def single : Width := ⟨23, 8⟩

def double : Width := ⟨52, 11⟩

/-- What the bits of a number stand for. A finite number is `mantissa * 2 ^ exponent`; below it
the next number is nearer by half when the fraction bits are zero. -/
inductive Number where
  | nan
  | infinite (negative : Bool)
  | finite (negative : Bool) (mantissa : Nat) (exponent : Int) (narrowBelow : Bool)

def Number.ofBits (w : Width) (bits : Nat) : Number :=
  let fraction := bits % Nat.pow 2 w.fraction
  let biased := bits / Nat.pow 2 w.fraction % Nat.pow 2 w.exponent
  let negative := bits / Nat.pow 2 (w.fraction + w.exponent) % 2 == 1
  let least : Int := 2 - Nat.pow 2 (w.exponent - 1) - w.fraction
  if biased = Nat.pow 2 w.exponent - 1 then
    if fraction = 0 then .infinite negative else .nan
  else if biased = 0 then .finite negative fraction least false
  else
    .finite negative (Nat.pow 2 w.fraction + fraction) (least + (biased - 1 : Nat))
      (fraction == 0)

/-- The decimal `digits * 10 ^ exponent`. -/
structure Scaled where
  digits : Nat
  exponent : Int

/-- The reals that read back to a number: those from `low` to `high` around `value`, in units of
`1 / unit`, with both ends or without them. -/
structure Interval where
  low : Nat
  value : Nat
  high : Nat
  unit : Nat
  closed : Bool

/-- Half the way to each neighbour, in quarters of the last place; the ends belong to the number
with an even mantissa. -/
def interval (mantissa : Nat) (exponent : Int) (narrowBelow : Bool) : Interval :=
  let scale := Nat.pow 2 (exponent - 2).toNat
  { low := (4 * mantissa - if narrowBelow then 1 else 2) * scale
    value := 4 * mantissa * scale
    high := (4 * mantissa + 2) * scale
    unit := Nat.pow 2 (2 - exponent).toNat
    closed := mantissa % 2 == 0 }

/-- The neighbour of the value on the grid of multiples of `10 ^ place` that lies in the
interval: of two the nearer, and of two equally near the greater. -/
def Interval.onGrid? (i : Interval) (place : Int) : Option Nat :=
  let finer := Nat.pow 10 (-place).toNat
  let step := i.unit * Nat.pow 10 place.toNat
  let value := i.value * finer
  let below := value / step
  let inLow := if i.closed then i.low * finer ≤ below * step else i.low * finer < below * step
  let inHigh :=
    if i.closed then (below + 1) * step ≤ i.high * finer else (below + 1) * step < i.high * finer
  if inLow then
    if inHigh && (below + 1) * step - value ≤ value - below * step then some (below + 1)
    else some below
  else if inHigh then some (below + 1)
  else none

/-- The hit on the coarsest of the next `places` grids. -/
def Interval.search (i : Interval) : (places : Nat) → (place : Int) → Scaled
  | 0, place => ⟨i.value / i.unit, place⟩
  | places + 1, place =>
    match i.onGrid? place with
    | some digits => ⟨digits, place⟩
    | none => i.search places (place - 1)

/-- A power of ten above the interval's value. -/
def Interval.topPlace (i : Interval) : Int :=
  if i.unit ≤ i.value then (Nat.toDigits 10 (i.value / i.unit)).length
  else 2 - ((Nat.toDigits 10 (i.unit / i.value)).length : Int)

/-- The shortest decimal of a positive number. Seventeen digits are enough for every width in
use. -/
def shortest (mantissa : Nat) (exponent : Int) (narrowBelow : Bool) : Scaled :=
  let i := interval mantissa exponent narrowBelow
  i.search 24 i.topPlace

end JvmClass.Decimal

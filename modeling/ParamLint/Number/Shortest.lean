import ParamLint.Number.Binary64

/-!
# Shortest decimal digits

The decimal with the fewest digits that rounds to a given binary value; of several such decimals the
one nearest to the value. The search is exact: on the grid of each length it tests the two
neighbours of the value.
-/
namespace ParamLint.Shortest

/-- A positive value and the ends of the interval that rounds to it, as numerators over one
denominator. -/
structure Interval where
  value : Nat
  low : Nat
  high : Nat
  denominator : Nat
  /-- The ends round to the value too. -/
  closed : Bool

/-- The interval of `mantissa * 2 ^ exponent`. Below a power of two the next value is half as far.
-/
def interval (mantissa : Nat) (exponent : Int) : Interval :=
  let scale := Nat.pow 2 (exponent - 2).toNat
  let below := if mantissa = Binary64.hidden ∧ Binary64.leastExponent < exponent then 1 else 2
  { value := 4 * mantissa * scale
    low := (4 * mantissa - below) * scale
    high := (4 * mantissa + 2) * scale
    denominator := Nat.pow 2 (2 - exponent).toNat
    closed := mantissa % 2 = 0 }

def Interval.inUnits (i : Interval) (g : Int) : Interval :=
  let up := Nat.pow 10 (-g).toNat
  { value := i.value * up
    low := i.low * up
    high := i.high * up
    denominator := i.denominator * Nat.pow 10 g.toNat
    closed := i.closed }

def Interval.contains (i : Interval) (n : Nat) : Bool :=
  let a := n * i.denominator
  if i.closed then i.low ≤ a && a ≤ i.high else i.low < a && a < i.high

/-- A natural number of units in the interval, the nearest to the value, if there is one. -/
def Interval.natural? (i : Interval) : Option Nat :=
  let c := i.value / i.denominator
  let r := i.value % i.denominator
  match i.contains c, i.contains (c + 1) with
  | true, true =>
    some (if 2 * r < i.denominator then c
      else if i.denominator < 2 * r then c + 1
      else c + c % 2)
  | true, false => some c
  | false, true => some (c + 1)
  | false, false => none

def Interval.magnitude (i : Interval) : Int :=
  if i.denominator ≤ i.value then (Nat.toDigits 10 (i.value / i.denominator)).length - 1
  else -((Nat.toDigits 10 ((i.denominator - 1) / i.value)).length : Int)

/-- The first grid from `10 ^ g` down, of at most `tries`, that has a point in the interval. -/
def search (i : Interval) (g : Int) : Nat → Option (Nat × Int)
  | 0 => none
  | tries + 1 =>
    match (i.inUnits g).natural? with
    | some n => some (n, g)
    | none => search i (g - 1) tries

def dropZeros (fuel : Nat) (n : Nat) (g : Int) : Nat × Int :=
  match fuel with
  | 0 => (n, g)
  | fuel + 1 => if n % 10 = 0 then dropZeros fuel (n / 10) (g + 1) else (n, g)

/-- Seventeen digits are always enough. -/
def mostDigits : Nat := 17

/-- Digits without trailing zero, and the power of ten of the last of them. -/
def decimal (mantissa : Nat) (exponent : Int) : Nat × Int :=
  let i := interval mantissa exponent
  let g := i.magnitude
  match search i g mostDigits with
  | some (n, g) => dropZeros (mostDigits + 1) n g
  | none => (i.value / i.denominator, 0)

end ParamLint.Shortest

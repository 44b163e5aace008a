/-!
# Binary floating point

The values of the 64-bit format as exact dyadic numbers, and rounding of a fraction of naturals to
the nearest of them, a tie going to the even mantissa.
-/
namespace ParamLint

/-- A finite value is `mantissa * 2 ^ exponent`, with the exponent as small as the format allows. -/
inductive Binary64
  | nan
  | infinite (negative : Bool)
  | finite (negative : Bool) (mantissa : Nat) (exponent : Int)
deriving DecidableEq, Inhabited

namespace Binary64

def leastExponent : Int := -1074

def greatestExponent : Int := 971

/-- The bit in front of the 52 that are stored. -/
def hidden : Nat := Nat.pow 2 52

def ofBits (bits : Nat) : Binary64 :=
  let negative := bits / Nat.pow 2 63 % 2 = 1
  let biased : Nat := bits / hidden % 2048
  let fraction : Nat := bits % hidden
  if biased = 2047 then
    if fraction = 0 then infinite negative else nan
  else if biased = 0 then finite negative fraction leastExponent
  else finite negative (fraction + hidden) ((biased : Int) - 1075)

/-- The nearest natural to `n / d`, a half going to the even one. -/
def roundQuotient (n d : Nat) : Nat :=
  let q := n / d
  let r := n % d
  if 2 * r < d then q
  else if d < 2 * r then q + 1
  else q + q % 2

/-- `n / d` in units of `2 ^ e`, as a fraction. -/
def inUnits (n d : Nat) (e : Int) : Nat × Nat :=
  (n * Nat.pow 2 (-e).toNat, d * Nat.pow 2 e.toNat)

/-- The exponent at which `n / d` has a mantissa of 53 bits, or the least one. -/
def exponentFor (n d : Nat) : Int :=
  let e : Int := (Nat.log2 n : Int) - Nat.log2 d - 52
  let (a, b) := inUnits n d e
  max (if a < b * hidden then e - 1 else e) leastExponent

def nearest (negative : Bool) (n d : Nat) : Binary64 :=
  if n = 0 then finite negative 0 leastExponent
  else
    let e := exponentFor n d
    let (a, b) := inUnits n d e
    let m := roundQuotient a b
    let (m, e) := if m = 2 * hidden then (hidden, e + 1) else (m, e)
    if greatestExponent < e then infinite negative else finite negative m e

def ofInt (n : Int) : Binary64 := nearest (n < 0) n.natAbs 1

/-- The value nearest to `coefficient * 10 ^ exponent`. Powers of ten far outside the range of the
format are not computed. -/
def ofDecimal (negative : Bool) (coefficient : Nat) (exponent : Int) : Binary64 :=
  let size : Int := (Nat.toDigits 10 coefficient).length + exponent
  if coefficient = 0 then finite negative 0 leastExponent
  else if 400 < size then infinite negative
  else if size < -400 then finite negative 0 leastExponent
  else nearest negative (coefficient * Nat.pow 10 exponent.toNat)
      (Nat.pow 10 (-exponent).toNat)

end Binary64

end ParamLint

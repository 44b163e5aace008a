import ParamLint.Number.Integer
import ParamLint.Number.Shortest

/-!
# Names of numbers

The text a number literal has as a property key: the shortest digits of the value it rounds to, laid
out as scripts print numbers; every digit of an integer with the suffix `n`; and the literal itself
when it is no numeral.
-/
namespace ParamLint.Number

/-- Digits and the power of ten before the first of them. Positional from `0.000001` up to
twenty-one digits before the point, otherwise one digit before the point and a signed exponent. -/
def layout (digits : List Char) (n : Int) : List Char :=
  let k := digits.length
  if k ≤ n ∧ n ≤ 21 then digits ++ List.replicate (n.toNat - k) '0'
  else if 0 < n ∧ n ≤ 21 then digits.take n.toNat ++ '.' :: digits.drop n.toNat
  else if -6 < n ∧ n ≤ 0 then '0' :: '.' :: (List.replicate (-n).toNat '0' ++ digits)
  else
    let e := n - 1
    let mantissa := match digits with
      | [d] => [d]
      | d :: rest => d :: '.' :: rest
      | [] => []
    mantissa ++ 'e' :: (if 0 ≤ e then '+' else '-') :: Nat.toDigits 10 e.natAbs

def format : Binary64 → List Char
  | .nan => "NaN".toList
  | .infinite negative => (if negative then "-Infinity" else "Infinity").toList
  | .finite negative mantissa exponent =>
    if mantissa = 0 then ['0']
    else
      let (coefficient, g) := Shortest.decimal mantissa exponent
      let digits := Nat.toDigits 10 coefficient
      let text := layout digits (g + digits.length)
      if negative then '-' :: text else text

def spanDigits (cs : List Char) : List Char × List Char := cs.span (·.isDigit)

def exponent? : List Char → Option Int
  | [] => some 0
  | e :: rest =>
    if e = 'e' ∨ e = 'E' then
      let (negative, digits) := Integer.splitSign rest
      if digits.isEmpty || !digits.all (·.isDigit) then none
      else (Integer.digits? 10 digits).map (Integer.signed negative)
    else none

def unsigned? (negative : Bool) (cs : List Char) : Option Binary64 :=
  let (whole, rest) := spanDigits cs
  let (fraction, rest) := match rest with
    | '.' :: rest => spanDigits rest
    | rest => ([], rest)
  if whole.isEmpty && fraction.isEmpty then none
  else do
    let coefficient ← Integer.digits? 10 (whole ++ fraction)
    let e ← exponent? rest
    return Binary64.ofDecimal negative coefficient (e - fraction.length)

/-- A decimal numeral, `inf`, `infinity` or `nan` in any case, with a sign and blanks around it. -/
def decimal? (cs : List Char) : Option Binary64 :=
  let (negative, rest) := Integer.splitSign (Digit.trimBlanks (cs.map Digit.toAscii))
  let word := rest.map Char.toLower
  if word = "inf".toList ∨ word = "infinity".toList then some (.infinite negative)
  else if word = "nan".toList then some .nan
  else unsigned? negative rest

def markedBase? : List Char → Option Nat
  | '0' :: m :: _ => Integer.markBase? m
  | _ => none

/-- A literal that begins with zero and has more after it. -/
def hasLeadingZero : List Char → Bool
  | '0' :: _ :: _ => true
  | _ => false

/-- The value of an integer literal: marked, octal after a leading zero, or decimal. -/
def integer? (cs : List Char) : Option Int :=
  match markedBase? cs with
  | some base => Integer.read? base cs
  | none =>
    if hasLeadingZero cs && cs.all Digit.isOctal then Integer.read? 8 cs
    else Integer.read? 10 cs

def name (raw : List Char) : List Char :=
  let cs := raw.filter (· ≠ '_')
  if cs.getLast? = some 'n' then
    ((integer? cs.dropLast).bind Integer.decimal?).getD raw
  else if (markedBase? cs).isSome || hasLeadingZero cs && cs.all Digit.isDigit then
    match integer? cs with
    | some n => format (Binary64.ofInt n)
    | none => raw
  else
    match decimal? cs with
    | some v => format v
    | none => raw

end ParamLint.Number

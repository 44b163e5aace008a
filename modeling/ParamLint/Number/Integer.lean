import ParamLint.Text.Digit

/-!
# Integer numerals

Reads an integer in a given base: blanks around it, a sign, in base 2, 8 and 16 its own mark, and
single underscores between digits. Numerals in base ten are limited in length.
-/
namespace ParamLint.Integer

/-- More decimal digits than this are neither read nor written. -/
def digitLimit : Nat := 4300

/-- The value of digits in `base` above `value`, with single underscores between digits;
`afterDigit` says that an underscore may stand here. -/
def digitsFrom (base : Nat) (value : Nat) (afterDigit : Bool) : List Char → Option Nat
  | [] => if afterDigit then some value else none
  | '_' :: rest => if afterDigit then digitsFrom base value false rest else none
  | c :: rest =>
    match Digit.value? c with
    | some d => if d < base then digitsFrom base (value * base + d) true rest else none
    | none => none

/-- Digits in `base`: at least one, and no underscore in front. -/
def digits? (base : Nat) (cs : List Char) : Option Nat := digitsFrom base 0 false cs

def markBase? (c : Char) : Option Nat :=
  if c = 'x' ∨ c = 'X' then some 16
  else if c = 'o' ∨ c = 'O' then some 8
  else if c = 'b' ∨ c = 'B' then some 2
  else none

/-- The rest after `0x`, `0o` or `0b` of this base and one underscore. -/
def dropMark (base : Nat) (cs : List Char) : List Char :=
  match cs with
  | '0' :: m :: rest =>
    if markBase? m = some base then
      match rest with
      | '_' :: rest => rest
      | rest => rest
    else cs
  | cs => cs

def splitSign : List Char → Bool × List Char
  | '-' :: rest => (true, rest)
  | '+' :: rest => (false, rest)
  | rest => (false, rest)

def signed (negative : Bool) (n : Nat) : Int := if negative then -(n : Int) else n

def read? (base : Nat) (cs : List Char) : Option Int :=
  let (negative, rest) := splitSign (Digit.trimBlanks (cs.map Digit.toAscii))
  let body := dropMark base rest
  if base = 10 ∧ digitLimit < body.countP (· ≠ '_') then none
  else (digits? base body).map (signed negative)

def decimal? (n : Int) : Option (List Char) :=
  let digits := Nat.toDigits 10 n.natAbs
  if digitLimit < digits.length then none
  else some (if n < 0 then '-' :: digits else digits)

end ParamLint.Integer

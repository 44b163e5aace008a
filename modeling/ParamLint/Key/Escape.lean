import ParamLint.Number.Integer
import ParamLint.Syntax.Source
import ParamLint.Text.CodePoint

/-!
# Escape sequences

What an escape in a string literal stands for. Hexadecimal and octal escapes that name no code point
stand for their own text; one whose number is too large to be looked at is an error.
-/
namespace ParamLint.Escape

def singles : List (Char × Char) :=
  [('b', '\x08'), ('f', '\x0c'), ('n', '\n'), ('r', '\r'), ('t', '\t'), ('v', '\x0b'),
   ('0', '\x00')]

/-- What may follow a backslash to continue a line: such an escape stands for nothing. -/
def lineContinuations : List (List Char) :=
  [['\n'], ['\r'], ['\r', '\n'], ['\u2028'], ['\u2029']]

/-- The code point with a number, the text `body` if there is none. Numbers that need more than 32
bits are not looked at. -/
def codePoint (body : List Char) (n : Int) : Except ReadError Text :=
  if n < -0x80000000 ∨ 0x80000000 ≤ n then .error .overflow
  else if n < 0 then .ok (Text.ofChars body)
  else
    match CodePoint.ofNat? n.toNat with
    | some p => .ok [p]
    | none => .ok (Text.ofChars body)

/-- The digits and base of an escape that gives a number, by the text after the backslash. -/
def numeral? (body : List Char) : Option (Nat × List Char) :=
  match body with
  | 'u' :: '\x7b' :: rest =>
    if rest.getLast? = some '\x7d' then some (16, rest.dropLast) else some (16, '\x7b' :: rest)
  | 'u' :: c :: rest => some (16, c :: rest)
  | 'x' :: c :: rest => some (16, c :: rest)
  | body => if !body.isEmpty && body.all Digit.isOctal then some (8, body) else none

/-- The text of an escape sequence; its first character is the backslash. -/
def value (sequence : List Char) : Except ReadError Text :=
  let body := sequence.tail
  let single? := match body with
    | [c] => singles.lookup c
    | _ => none
  match single? with
  | some c => .ok [.scalar c]
  | none =>
    if body ∈ lineContinuations then .ok []
    else
      match numeral? body with
      | none => .ok (Text.ofChars body)
      | some (base, digits) =>
        match Integer.read? base digits with
        | none => .ok (Text.ofChars body)
        | some n => codePoint body n

end ParamLint.Escape

import ParamLint.Text.CodePoint

/-!
# UTF-16 units

A text as the sequence of 16-bit units a script engine compares, and back. Going there and back
joins a high half followed by a low half into the character they stand for and changes nothing else.
-/
namespace ParamLint

namespace Utf16

/-- The units of a code point by its number: one up to U+FFFF, a high and a low half above. -/
def unitsOf (n : Nat) : List UInt16 :=
  if n < 0x10000 then [n.toUInt16]
  else [(0xD800 + (n - 0x10000) / 0x400).toUInt16, (0xDC00 + (n - 0x10000) % 0x400).toUInt16]

def isHigh (n : Nat) : Bool := 0xD800 ≤ n && n < 0xDC00

def isLow (n : Nat) : Bool := 0xDC00 ≤ n && n < 0xE000

/-- The code point of a unit that is no part of a pair. -/
def single (n : Nat) : CodePoint := (CodePoint.ofNat? n).getD (.scalar (Char.ofNat 0))

def pair (high low : Nat) : CodePoint :=
  single (0x10000 + (high - 0xD800) * 0x400 + (low - 0xDC00))

def encode (t : Text) : List UInt16 := t.flatMap fun p => unitsOf p.toNat

def decode : List UInt16 → Text
  | [] => []
  | [u] => [single u.toNat]
  | u :: v :: rest =>
    if isHigh u.toNat && isLow v.toNat then pair u.toNat v.toNat :: decode rest
    else single u.toNat :: decode (v :: rest)

end Utf16

/-- The text with the same UTF-16 units and no high half before a low half. -/
def Text.joinSurrogates (t : Text) : Text := Utf16.decode (Utf16.encode t)

end ParamLint

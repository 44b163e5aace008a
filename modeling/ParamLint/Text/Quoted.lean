import ParamLint.Text.CodePoint

/-!
# Quoted text

How a text stands in a message: between single quotes, or double ones if it holds a single quote and
no double one, with the quote, the backslash and everything that does not print escaped.
-/
namespace ParamLint.Quoted

/-- First and last of the runs of controls, format characters, separators, surrogates and private
characters from U+007F on. -/
def unprintable : List (Nat × Nat) :=
  [(0x7f, 0xa0), (0xad, 0xad), (0x600, 0x605), (0x61c, 0x61c), (0x6dd, 0x6dd), (0x70f, 0x70f),
   (0x890, 0x891), (0x8e2, 0x8e2), (0x1680, 0x1680), (0x180e, 0x180e), (0x2000, 0x200f),
   (0x2028, 0x202f), (0x205f, 0x2064), (0x2066, 0x206f), (0x3000, 0x3000), (0xd800, 0xf8ff),
   (0xfeff, 0xfeff), (0xfff9, 0xfffb), (0x110bd, 0x110bd), (0x110cd, 0x110cd), (0x13430, 0x13438),
   (0x1bca0, 0x1bca3), (0x1d173, 0x1d17a), (0xe0001, 0xe0001), (0xe0020, 0xe007f),
   (0xf0000, 0xffffd), (0x100000, 0x10fffd)]

def prints (p : CodePoint) : Bool :=
  0x20 ≤ p.toNat && !unprintable.any fun (first, last) => first ≤ p.toNat && p.toNat ≤ last

def hex (width n : Nat) : List Char :=
  let digits := Nat.toDigits 16 n
  List.replicate (width - digits.length) '0' ++ digits

def escapeByNumber (n : Nat) : List Char :=
  if n < 0x100 then '\\' :: 'x' :: hex 2 n
  else if n < 0x10000 then '\\' :: 'u' :: hex 4 n
  else '\\' :: 'U' :: hex 8 n

def escape (quote : Char) (p : CodePoint) : Text :=
  match p with
  | .scalar '\\' => Text.ofString "\\\\"
  | .scalar '\n' => Text.ofString "\\n"
  | .scalar '\r' => Text.ofString "\\r"
  | .scalar '\t' => Text.ofString "\\t"
  | p =>
    if p = .scalar quote then [.scalar '\\', p]
    else if prints p then [p]
    else Text.ofChars (escapeByNumber p.toNat)

def quote (t : Text) : Text :=
  let mark : Char := if .scalar '\'' ∈ t ∧ .scalar '"' ∉ t then '"' else '\''
  .scalar mark :: t.flatMap (escape mark) ++ [.scalar mark]

end ParamLint.Quoted

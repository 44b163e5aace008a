import ParamLint.Text.CodePoint
import ParamLint.Text.Digit

/-!
# Blanks

The characters that stand for nothing at the ends of a line of text. Here the four separators of
records and fields count too.
-/
namespace ParamLint.Text

def isBlank : CodePoint → Bool
  | .scalar c =>
    Digit.isPlainBlank c || Digit.isWideBlank c || 0x1c ≤ c.toNat && c.toNat ≤ 0x1f
  | .surrogate _ => false

def trim (t : Text) : Text := ((t.dropWhile isBlank).reverse.dropWhile isBlank).reverse

end ParamLint.Text

import ParamLint.Text.CodePoint

/-!
# Lines

Two readings of line ends: files are read with every line end as a line feed, and lists of names are
cut at every character that ends a line in running text.
-/
namespace ParamLint.Lines

/-- Carriage returns, alone or before a line feed, become line feeds. -/
def unify : List Char → List Char
  | [] => []
  | '\r' :: '\n' :: rest => '\n' :: unify rest
  | '\r' :: rest => '\n' :: unify rest
  | c :: rest => c :: unify rest

def isBreak : CodePoint → Bool
  | .scalar c =>
    c ∈ ['\n', '\r', '\x0b', '\x0c', '\x1c', '\x1d', '\x1e', '\u0085', '\u2028', '\u2029']
  | .surrogate _ => false

/-- The lines of a text without their ends; a break at the end opens no further line. `line` holds
the current line so far, last code point first. -/
def splitFrom (line : Text) : Text → List Text
  | [] => if line.isEmpty then [] else [line.reverse]
  | .scalar '\r' :: .scalar '\n' :: rest => line.reverse :: splitFrom [] rest
  | p :: rest =>
    if isBreak p then line.reverse :: splitFrom [] rest else splitFrom (p :: line) rest

def split (t : Text) : List Text := splitFrom [] t

end ParamLint.Lines

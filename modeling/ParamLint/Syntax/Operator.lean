import ParamLint.Syntax.Reader

/-!
# Operators

The marks between operands. Of two marks that a source could start with the longer is meant, and a
binary operator binds by its level: the higher, the tighter.
-/
namespace ParamLint.Syntax

variable {src : List Char}

/-- The marks that can follow an operand, the longer before the shorter. -/
def marks : List String :=
  [">>>=", "===", "!==", "**=", "<<=", ">>=", ">>>", "&&=", "||=", "??=", "=>", "==", "!=", "<=",
   ">=", "&&", "||", "??", "++", "--", "+=", "-=", "*=", "/=", "%=", "&=", "|=", "^=", "<<", ">>",
   "**", "?.", "=", "<", ">", "+", "-", "*", "/", "%", "&", "|", "^", "!", "?"]

def peekMark : Read src String := do
  let rest := (← get).rest
  return (marks.find? fun m => m.toList.isPrefixOf rest).getD ""

def augmentedMarks : List String :=
  ["+=", "-=", "*=", "/=", "%=", "^=", "&=", "|=", ">>=", ">>>=", "<<=", "**=", "&&=", "||=", "??="]

def level? (s : String) : Option Nat :=
  match s with
  | "??" => some 1
  | "||" => some 2
  | "&&" => some 3
  | "|" => some 4
  | "^" => some 5
  | "&" => some 6
  | "==" | "===" | "!=" | "!==" => some 7
  | "<" | ">" | "<=" | ">=" | "in" | "instanceof" => some 8
  | "<<" | ">>" | ">>>" => some 9
  | "+" | "-" => some 10
  | "*" | "/" | "%" => some 11
  | "**" => some 12
  | _ => none

def levelAfter (s : String) (level : Nat) : Nat := if s = "**" then level else level + 1

def peekOperator : Read src String := do
  let word ← peekWord
  if word ≠ "" then return word else peekMark

/-- A mark that begins the middle of a conditional expression. -/
def looksConditional : Read src Bool := do
  match (← get).rest with
  | '?' :: '?' :: _ => return false
  | '?' :: '.' :: rest => return rest.head?.any Char.isDigit
  | '?' :: rest =>
    let next := (rest.dropWhile Cursor.isBlank).head?
    return !((← hasTypes) && (next = some ':' || next = some ')' || next = some ','))
  | _ => return false

end ParamLint.Syntax

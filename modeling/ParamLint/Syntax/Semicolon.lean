import ParamLint.Syntax.Cursor
import ParamLint.Syntax.Dialect

/-!
# Automatic semicolons

Where a statement may end without a semicolon: at the end of the source, before a closing brace, and
at a line break unless what follows goes on with the statement. The blanks of this rule are narrower
than those between tokens.
-/
namespace ParamLint.Semicolon

def isGap (c : Char) : Bool :=
  c = ' ' || 0x09 ≤ c.toNat && c.toNat ≤ 0x0d ||
    0x2000 ≤ c.toNat && c.toNat ≤ 0x200a && c.toNat ≠ 0x2007 ||
    c.toNat ∈ [0x1680, 0x2028, 0x2029, 0x205f, 0x3000]

def isBreak (d : Dialect) (c : Char) : Bool :=
  if d.hasTypes then c = '\n' else Cursor.isLineSeparator c

inductive Skipped
  /-- A slash that begins no comment. -/
  | refused
  /-- One comment without a line break in it. -/
  | sameLine
  | passed

inductive Region
  | between
  | line
  | block

/-- Skips gaps and comments; if not `all`, only up to the end of the first block comment. -/
def skip (d : Dialect) (all : Bool) : Region → (broken : Bool) → List Char → Skipped × List Char
  | .between, _, [] => (.passed, [])
  | .between, b, '/' :: '/' :: rest => skip d all .line b rest
  | .between, b, '/' :: '*' :: rest => skip d all .block b rest
  | .between, _, '/' :: rest => (.refused, rest)
  | .between, b, c :: rest =>
    if isGap c then skip d all .between b rest else (.passed, c :: rest)
  | .line, _, [] => (.passed, [])
  | .line, b, c :: rest =>
    if isBreak d c then skip d all .between b rest else skip d all .line b rest
  | .block, _, [] => (.passed, [])
  | .block, b, '*' :: '/' :: rest =>
    if all || rest.head? = some '/' then skip d all .between b rest
    else (if b then .passed else .sameLine, rest)
  | .block, b, c :: rest => skip d all .block (b || isBreak d c) rest

def isLetter (c : Char) : Bool := c.isAlpha || 0x80 ≤ c.toNat

/-- Whether `cs`, on a new line, begins a statement of its own after a statement that could go on.
`operand` says that an expression has just ended, `signature` that a body could follow. -/
def opensStatement (d : Dialect) (operand signature : Bool) (cs : List Char) : Bool :=
  match cs with
  | [] => true
  | '.' :: rest => !d.hasTypes && rest.head?.any Char.isDigit
  | '+' :: rest => rest.head? = some '+'
  | '-' :: rest => rest.head? = some '-'
  | '!' :: rest => rest.head? ≠ some '='
  | '(' :: _ | '[' :: _ => d.hasTypes && !operand
  | '\x7b' :: _ => !signature
  | 'i' :: 'n' :: rest =>
    match rest with
    | c :: _ =>
      isLetter c &&
        (!"stanceof".toList.isPrefixOf rest || (rest.drop 8).head?.any isLetter)
    | [] => false
  | c :: _ => c ∉ "`,:;*%><=?^|&/".toList

def afterBreak (d : Dialect) (operand signature : Bool) (cs : List Char) : Bool :=
  match skip d true .between false cs with
  | (.refused, _) => false
  | (_, rest) => opensStatement d operand signature rest

/-- A closing brace ends a statement, except where typed patterns would be cut short. -/
def beforeBrace (d : Dialect) (operand : Bool) (rest : List Char) : Bool :=
  if d.hasTypes && (rest.dropWhile isGap).head? = some ':' then operand else true

/-- Before a comment: without an expression to go on with, a comment up to a line break is enough.
-/
def beforeComment (d : Dialect) (operand : Bool) (cs : List Char) : Bool :=
  match skip d false .between false cs with
  | (.passed, rest) =>
    !d.hasTypes && !operand && rest.head? ≠ some ',' && rest.head? ≠ some '='
  | _ => false

def inserted (d : Dialect) (operand signature : Bool) : List Char → Bool
  | [] => true
  | '/' :: rest => beforeComment d operand ('/' :: rest)
  | '\x7d' :: rest => beforeBrace d operand rest
  | c :: rest =>
    if isBreak d c then afterBreak d operand signature rest
    else isGap c && inserted d operand signature rest

def afterComment? (cs : List Char) : Option (List Char) :=
  match cs.dropWhile Cursor.isBlank with
  | '/' :: '/' :: rest => some (rest.dropWhile (!Cursor.isLineEnd ·))
  | '/' :: '*' :: rest => afterBlock? rest
  | _ => none
where
  afterBlock? : List Char → Option (List Char)
    | [] => none
    | '*' :: '/' :: rest => some rest
    | _ :: rest => afterBlock? rest

/-- A semicolon may be left out here: right after the last token, or after one of the comments that
follow it. -/
def mayOmit (d : Dialect) (operand signature : Bool) : Nat → List Char → Bool
  | 0, cs => inserted d operand signature cs
  | comments + 1, cs =>
    inserted d operand signature cs ||
      match afterComment? cs with
      | some rest => mayOmit d operand signature comments rest
      | none => false

end ParamLint.Semicolon

import ParamLint.Syntax.Cursor

/-!
# Matching brackets

Where the bracket a source starts with is closed, without reading what is inside. Brackets in
strings, templates, comments and regular expressions do not count. This only serves to look ahead,
so it may leave the question open: quotes in the text between tags are not paired.
-/
namespace ParamLint.Bracket

/-- What the scan is in. Code remembers its last character that is no blank. -/
inductive Region
  | code (last : Char)
  | quoted (mark : Char)
  | template
  | line (last : Char)
  | block (last : Char)
  | regex (inSet : Bool)

/-- After these characters a slash begins a regular expression and does not divide. -/
def wantsOperand (c : Char) : Bool := c ∈ "(,=:[!&|?\x7b;+-*%~^>".toList

/-- The source behind the bracket that closes the outermost of the open ones, of which those of a
template are marked. Nothing is behind a bracket that is never closed, and a quoted text that does
not end on its line gives no answer. -/
def behindFrom : Region → (opened : List Bool) → List Char → Option (List Char)
  | _, _, [] => some []
  | .code last, opened, '/' :: '/' :: rest => behindFrom (.line last) opened rest
  | .code last, opened, '/' :: '*' :: rest => behindFrom (.block last) opened rest
  | .code last, opened, c :: rest =>
    if c = '(' || c = '[' || c = '\x7b' then behindFrom (.code c) (false :: opened) rest
    else if c = ')' || c = ']' || c = '\x7d' then
      match opened with
      | [] | [_] => some rest
      | true :: opened => behindFrom .template opened rest
      | false :: opened => behindFrom (.code c) opened rest
    else if c = '"' || c = '\'' then behindFrom (.quoted c) opened rest
    else if c = '`' then behindFrom .template opened rest
    else if c = '/' && wantsOperand last then behindFrom (.regex false) opened rest
    else behindFrom (.code (if Cursor.isBlank c then last else c)) opened rest
  | .quoted mark, opened, '\\' :: _ :: rest => behindFrom (.quoted mark) opened rest
  | .quoted mark, opened, c :: rest =>
    if c = mark then behindFrom (.code c) opened rest
    else if c = '\n' then none
    else behindFrom (.quoted mark) opened rest
  | .template, opened, '\\' :: _ :: rest => behindFrom .template opened rest
  | .template, opened, '$' :: '\x7b' :: rest => behindFrom (.code '\x7b') (true :: opened) rest
  | .template, opened, c :: rest =>
    behindFrom (if c = '`' then .code c else .template) opened rest
  | .line last, opened, c :: rest =>
    behindFrom (if Cursor.isLineEnd c then .code last else .line last) opened rest
  | .block last, opened, '*' :: '/' :: rest => behindFrom (.code last) opened rest
  | .block last, opened, _ :: rest => behindFrom (.block last) opened rest
  | .regex inSet, opened, '\\' :: _ :: rest => behindFrom (.regex inSet) opened rest
  | .regex inSet, opened, c :: rest =>
    if c = '\n' then none
    else if c = '/' && !inSet then behindFrom (.code c) opened rest
    else behindFrom (.regex (c = '[' || inSet && c ≠ ']')) opened rest

def behind : List Char → Option (List Char)
  | c :: rest => behindFrom (.code c) [false] rest
  | [] => none

end ParamLint.Bracket

import ParamLint.Syntax.Cursor
import ParamLint.Text.Digit

/-!
# Lexemes

Words, numbers, strings and regular expressions: how many characters of the source each takes, and
the nodes inside string literals.
-/
namespace ParamLint.Lexeme

/-! Words -/

def isPunctuation (c : Char) : Bool := c ∈ ":;`\"'@#.,|^&<=>+-*/\\%?!~()[]\x7b\x7d".toList

/-- What may stand in a word after its beginning: everything but controls, blanks and punctuation.
-/
def isWordPart (c : Char) : Bool := 0x20 ≤ c.toNat && !Cursor.isBlank c && !isPunctuation c

def isWordStart (c : Char) : Bool := isWordPart c && !c.isDigit

def isHex (c : Char) : Bool := (Digit.value? c).any (· < 16)

inductive InWord
  | plain
  | escape
  | digits (left : Nat)
  | braced (started : Bool)

/-- The length of the rest of a word; none if an escape in it is malformed. -/
def wordRest : InWord → List Char → Option Nat
  | .plain, [] => some 0
  | .plain, c :: rest =>
    if c = '\\' then (wordRest .escape rest).map (· + 1)
    else if isWordPart c then (wordRest .plain rest).map (· + 1)
    else some 0
  | .escape, 'u' :: '\x7b' :: rest => (wordRest (.braced false) rest).map (· + 2)
  | .escape, 'u' :: rest => (wordRest (.digits 4) rest).map (· + 1)
  | .escape, _ => none
  | .digits _, [] => none
  | .digits left, c :: rest =>
    if isHex c then
      (wordRest (if left ≤ 1 then .plain else .digits (left - 1)) rest).map (· + 1)
    else none
  | .braced _, [] => none
  | .braced started, c :: rest =>
    if isHex c then (wordRest (.braced true) rest).map (· + 1)
    else if c = '\x7d' && started then (wordRest .plain rest).map (· + 1)
    else none

def wordLength (cs : List Char) : Nat :=
  match cs with
  | c :: _ => if isWordStart c || c = '\\' then (wordRest .plain cs).getD 0 else 0
  | [] => 0

def word (cs : List Char) : List Char := cs.take (wordLength cs)

/-! Numbers -/

/-- The length of digits that may be separated by single underscores, after the first. -/
def digitsRest (isDigit : Char → Bool) : List Char → Nat
  | '_' :: d :: rest => if isDigit d then digitsRest isDigit rest + 2 else 0
  | d :: rest => if isDigit d then digitsRest isDigit rest + 1 else 0
  | [] => 0

def digitsLength (isDigit : Char → Bool) : List Char → Nat
  | d :: rest => if isDigit d then digitsRest isDigit rest + 1 else 0
  | [] => 0

def exponentLength (cs : List Char) : Nat :=
  match cs with
  | e :: rest =>
    if e = 'e' ∨ e = 'E' then
      let signLength := match rest with
        | c :: _ => if c = '+' ∨ c = '-' then 1 else 0
        | [] => 0
      let n := digitsLength Char.isDigit (rest.drop signLength)
      if n = 0 then 0 else 1 + signLength + n
    else 0
  | [] => 0

/-- Digits after which a fraction or an exponent may follow: no leading zero before another zero. -/
def mayContinue : List Char → Bool
  | ['0'] => true
  | '0' :: d :: _ => d ≠ '0' && d.isDigit
  | d :: _ => d ≠ '_'
  | [] => false

def suffixLength : List Char → Nat
  | 'n' :: _ => 1
  | _ => 0

def markedDigit? (c : Char) : Option (Char → Bool) :=
  if c = 'x' ∨ c = 'X' then some isHex
  else if c = 'o' ∨ c = 'O' then some Digit.isOctal
  else if c = 'b' ∨ c = 'B' then some fun d => d = '0' || d = '1'
  else none

def decimalLength (cs : List Char) : Nat :=
  match cs with
  | '.' :: rest =>
    let n := digitsLength Char.isDigit rest
    if n = 0 then 0 else 1 + n + exponentLength (rest.drop n)
  | cs =>
    let n := digitsLength Char.isDigit cs
    let rest := cs.drop n
    if mayContinue (cs.take n) then
      match rest with
      | '.' :: rest =>
        let m := digitsLength Char.isDigit rest
        n + 1 + m + exponentLength (rest.drop m)
      | rest =>
        let m := exponentLength rest
        if m = 0 then n + suffixLength rest else n + m
    else n + suffixLength rest

def numberLength (cs : List Char) : Nat :=
  match cs with
  | '0' :: m :: rest =>
    match markedDigit? m with
    | some isDigit =>
      let n := digitsLength isDigit rest
      if n = 0 then decimalLength cs else 2 + n + suffixLength (rest.drop n)
    | none => decimalLength cs
  | cs => decimalLength cs

/-! Strings -/

/-- The length of the escape that `cs` starts with, its backslash included; zero if malformed. -/
def escapeLength : List Char → Nat
  | '\\' :: 'x' :: a :: b :: _ => if isHex a && isHex b then 4 else 0
  | '\\' :: 'u' :: '\x7b' :: rest =>
    let n := (rest.takeWhile isHex).length
    if 0 < n ∧ (rest.drop n).head? = some '\x7d' then n + 4 else 0
  | '\\' :: 'u' :: a :: b :: c :: d :: _ =>
    if isHex a && isHex b && isHex c && isHex d then 6 else 0
  | '\\' :: c :: rest =>
    if c = 'x' ∨ c = 'u' then 0
    else if Digit.isOctal c then 2 + ((rest.take 2).takeWhile Digit.isOctal).length
    else if (c = '\r' ∨ c = '?') ∧ rest.head?.any Cursor.isLineSeparator then 3
    else 2
  | _ => 0

structure Inside (src : List Char) where
  trees : Forest src
  stop : Position src

def Inside.cons {src : List Char} (tree : Tree src) (inside : Inside src) : Inside src :=
  { inside with trees := tree :: inside.trees }

/-- The contents of a string up to its closing `quote`, which stays. Line ends have to be escaped.
-/
def stringInside {src : List Char} (quote : Char) : Nat → Position src → Option (Inside src)
  | 0, _ => none
  | fuel + 1, p =>
    match p.rest with
    | [] => none
    | c :: _ =>
      if c = quote then some ⟨[], p⟩
      else if c = '\\' then
        let n := escapeLength p.rest
        if n = 0 then none
        else
          let stop := p.advance n
          (stringInside quote fuel stop).map (.cons (.token .escapeSequence true p stop))
      else
        let fragment := p.rest.takeWhile fun c => c ≠ quote && c ≠ '\\' && c ≠ '\n' && c ≠ '\r'
        if fragment.isEmpty then none
        else
          let stop := p.advance fragment.length
          (stringInside quote fuel stop).map (.cons (.token .stringFragment true p stop))

/-- The length of a run of template text: up to a backquote, an escape or a substitution. -/
def templateText : List Char → Nat
  | '$' :: '\x7b' :: _ => 0
  | c :: rest => if c = '`' ∨ c = '\\' ∨ c = '\x00' then 0 else templateText rest + 1
  | [] => 0

/-! Regular expressions -/

/-- The length of a regular expression after its opening slash, up to its closing slash. Inside
brackets a slash does not close it. -/
def patternLength (inBrackets : Bool) : List Char → Option Nat
  | '\\' :: c :: rest =>
    if c = '\n' then none else (patternLength inBrackets rest).map (· + 2)
  | '/' :: rest => if inBrackets then (patternLength true rest).map (· + 1) else some 0
  | '[' :: rest => (patternLength true rest).map (· + 1)
  | ']' :: rest => (patternLength false rest).map (· + 1)
  | c :: rest =>
    if c = '\n' ∨ c = '\\' then none else (patternLength inBrackets rest).map (· + 1)
  | [] => none

end ParamLint.Lexeme

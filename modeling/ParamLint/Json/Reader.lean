import ParamLint.Json.Value
import ParamLint.Number.Name
import ParamLint.Text.Utf16

/-!
# Reading JSON

The grammar of JSON with the numbers `NaN`, `Infinity` and `-Infinity`, strings that may hold one
half of a surrogate pair, and blanks that are space, tab, line feed and carriage return only. A
fault carries what is left of the input where it was found, so that its line can be told.
-/
namespace ParamLint.Json

inductive Problem
  | byteOrderMark
  | expectingValue
  | expectingName
  | expectingColon
  | expectingComma
  | extraData
  | unterminatedString
  | controlCharacter
  | invalidEscape
  | invalidUnicodeEscape
  | integerTooLong (digits : Nat)
deriving DecidableEq

structure Fault where
  problem : Problem
  rest : List Char

def isBlank (c : Char) : Bool := c = ' ' || c = '\t' || c = '\n' || c = '\r'

def skipBlanks (cs : List Char) : List Char := cs.dropWhile isBlank

def hexDigit? (c : Char) : Option Nat := (Digit.value? c).filter (· < 16)

/-- Four hexadecimal digits that are not the end of the input. -/
def hex4? : List Char → Option (Nat × List Char)
  | a :: b :: c :: d :: rest =>
    if rest.isEmpty then none
    else do
      let a ← hexDigit? a
      let b ← hexDigit? b
      let c ← hexDigit? c
      let d ← hexDigit? d
      return (((a * 16 + b) * 16 + c) * 16 + d, rest)
  | _ => none

def shortEscape? : Char → Option Char
  | '"' => some '"'
  | '\\' => some '\\'
  | '/' => some '/'
  | 'b' => some '\x08'
  | 'f' => some '\x0c'
  | 'n' => some '\n'
  | 'r' => some '\r'
  | 't' => some '\t'
  | _ => none

/-- What the unit `n` before `rest` stands for: a high half takes a following escaped low half with
it. -/
def joined? (n : Nat) (rest : List Char) : Option (CodePoint × List Char) :=
  if Utf16.isHigh n then
    match rest with
    | '\\' :: 'u' :: more =>
      if more.length ≤ 4 then some (Utf16.single n, rest)
      else do
        let (m, rest') ← hex4? more
        if Utf16.isLow m then return (Utf16.pair n m, rest') else return (Utf16.single n, rest)
    | _ => some (Utf16.single n, rest)
  else some (Utf16.single n, rest)

def unicodeEscape? (cs : List Char) : Option (CodePoint × List Char) := do
  let (n, rest) ← hex4? cs
  joined? n rest

/-- The string after its opening quote; `start` is the input from the quote on. -/
def readStringFrom (start : List Char) : Nat → List Char → Except Fault (Text × List Char)
  | 0, _ => .error ⟨.unterminatedString, start⟩
  | _ + 1, [] => .error ⟨.unterminatedString, start⟩
  | _ + 1, '"' :: rest => .ok ([], rest)
  | _ + 1, ['\\'] => .error ⟨.unterminatedString, start⟩
  | fuel + 1, '\\' :: 'u' :: rest =>
    match unicodeEscape? rest with
    | none => .error ⟨.invalidUnicodeEscape, '\\' :: 'u' :: rest⟩
    | some (p, rest) => (readStringFrom start fuel rest).map fun (t, rest) => (p :: t, rest)
  | fuel + 1, '\\' :: c :: rest =>
    match shortEscape? c with
    | none => .error ⟨.invalidEscape, '\\' :: c :: rest⟩
    | some d => (readStringFrom start fuel rest).map fun (t, rest) => (.scalar d :: t, rest)
  | fuel + 1, c :: rest =>
    if c.toNat < 0x20 then .error ⟨.controlCharacter, c :: rest⟩
    else (readStringFrom start fuel rest).map fun (t, rest) => (.scalar c :: t, rest)

def readString (cs : List Char) : Except Fault (Text × List Char) :=
  readStringFrom cs cs.length cs.tail

/-- The digits that `cs` starts with, if the first one may be there. -/
def wholePart? : List Char → Option (List Char × List Char)
  | '0' :: rest => some (['0'], rest)
  | c :: rest => if c.isDigit then some ((c :: rest).span (·.isDigit)) else none
  | [] => none

def fractionPart (cs : List Char) : List Char × List Char :=
  match cs with
  | '.' :: rest =>
    let (digits, after) := rest.span (·.isDigit)
    if digits.isEmpty then ([], cs) else ('.' :: digits, after)
  | cs => ([], cs)

def exponentSign (cs : List Char) : List Char × List Char :=
  match cs with
  | '+' :: rest => (['+'], rest)
  | '-' :: rest => (['-'], rest)
  | rest => ([], rest)

def exponentPart (cs : List Char) : List Char × List Char :=
  match cs with
  | e :: rest =>
    if e = 'e' ∨ e = 'E' then
      let (sign, rest) := exponentSign rest
      let (digits, after) := rest.span (·.isDigit)
      if digits.isEmpty then ([], cs) else (e :: sign ++ digits, after)
    else ([], cs)
  | [] => ([], [])

def numberSign (cs : List Char) : List Char × List Char :=
  match cs with
  | '-' :: rest => (['-'], rest)
  | rest => ([], rest)

/-- The digits before the point, the fraction and the exponent of a number without a sign, and what
comes after it. -/
def numberParts? (body : List Char) : Option (List Char × List Char × List Char × List Char) := do
  let (whole, rest) ← wholePart? body
  let (fraction, rest) := fractionPart rest
  let (exponent, rest) := exponentPart rest
  return (whole, fraction, exponent, rest)

def numberValue? (sign whole fraction exponent : List Char) : Option Json :=
  if fraction.isEmpty && exponent.isEmpty then (Integer.read? 10 (sign ++ whole)).map .integer
  else (Number.decimal? (sign ++ whole ++ fraction ++ exponent)).map .decimal

def readNumber (cs : List Char) : Except Fault (Json × List Char) :=
  let (sign, body) := numberSign cs
  match numberParts? body with
  | none => .error ⟨.expectingValue, cs⟩
  | some (whole, fraction, exponent, rest) =>
    match numberValue? sign whole fraction exponent with
    | some v => .ok (v, rest)
    | none =>
      if fraction.isEmpty && exponent.isEmpty then .error ⟨.integerTooLong whole.length, cs⟩
      else .error ⟨.expectingValue, cs⟩

def words : List (String × Json) :=
  [("null", .null), ("true", .bool true), ("false", .bool false), ("NaN", .decimal .nan),
   ("Infinity", .decimal (.infinite false)), ("-Infinity", .decimal (.infinite true))]

def dropWord? (word : List Char) (cs : List Char) : Option (List Char) :=
  if word.isPrefixOf cs then some (cs.drop word.length) else none

def word? (cs : List Char) : Option (Json × List Char) :=
  words.findSome? fun (w, v) => (dropWord? w.toList cs).map (v, ·)

def readScalar (cs : List Char) : Except Fault (Json × List Char) :=
  match word? cs with
  | some reading => .ok reading
  | none => readNumber cs

/-- What stands between the brackets of a list, after the first blanks, up to its end. `value` reads
one item. -/
def readItems (value : List Char → Except Fault (Json × List Char)) :
    Nat → List Char → Except Fault (List Json × List Char)
  | 0, cs => .error ⟨.expectingValue, cs⟩
  | fuel + 1, cs => do
    let (v, rest) ← value cs
    match skipBlanks rest with
    | ']' :: rest => return ([v], rest)
    | ',' :: rest =>
      let (vs, rest) ← readItems value fuel (skipBlanks rest)
      return (v :: vs, rest)
    | rest => .error ⟨.expectingComma, rest⟩

def readArray (value : List Char → Except Fault (Json × List Char)) (cs : List Char) :
    Except Fault (Json × List Char) :=
  match skipBlanks cs with
  | ']' :: rest => .ok (.array [], rest)
  | rest => (readItems value rest.length rest).map fun (vs, rest) => (.array vs, rest)

def readMember (value : List Char → Except Fault (Json × List Char)) (cs : List Char) :
    Except Fault ((Text × Json) × List Char) :=
  match cs with
  | '"' :: _ => do
    let (name, rest) ← readString cs
    match skipBlanks rest with
    | ':' :: rest =>
      let (v, rest) ← value (skipBlanks rest)
      return ((name, v), rest)
    | rest => .error ⟨.expectingColon, rest⟩
  | cs => .error ⟨.expectingName, cs⟩

/-- What stands between the braces of an object, up to its end. `known` are the members so far. -/
def readMembers (value : List Char → Except Fault (Json × List Char)) :
    Nat → List (Text × Json) → List Char → Except Fault (List (Text × Json) × List Char)
  | 0, _, cs => .error ⟨.expectingName, cs⟩
  | fuel + 1, known, cs => do
    let ((name, v), rest) ← readMember value cs
    let known := Entries.put name v known
    match skipBlanks rest with
    | '\x7d' :: rest => return (known, rest)
    | ',' :: rest => readMembers value fuel known (skipBlanks rest)
    | rest => .error ⟨.expectingComma, rest⟩

def readObject (value : List Char → Except Fault (Json × List Char)) (cs : List Char) :
    Except Fault (Json × List Char) :=
  match skipBlanks cs with
  | '\x7d' :: rest => .ok (.object [], rest)
  | rest => (readMembers value (rest.length + 1) [] rest).map fun (ms, rest) => (.object ms, rest)

/-- One value; `fuel` bounds the depth of nesting. -/
def readFrom : Nat → List Char → Except Fault (Json × List Char)
  | 0, cs => .error ⟨.expectingValue, cs⟩
  | fuel + 1, cs =>
    match cs with
    | [] => .error ⟨.expectingValue, []⟩
    | '"' :: _ => (readString cs).map fun (t, rest) => (.string t, rest)
    | '[' :: rest => readArray (readFrom fuel) rest
    | '\x7b' :: rest => readObject (readFrom fuel) rest
    | cs => readScalar cs

def parse (cs : List Char) : Except Fault Json :=
  if cs.head? = some '\ufeff' then .error ⟨.byteOrderMark, cs⟩
  else do
    let (v, rest) ← readFrom (cs.length + 1) (skipBlanks cs)
    match skipBlanks rest with
    | [] => return v
    | rest => .error ⟨.extraData, rest⟩

def Fault.line (f : Fault) (text : List Char) : Nat :=
  1 + (text.take (text.length - f.rest.length)).count '\n'

def Problem.message : Problem → String
  | byteOrderMark => "Unexpected UTF-8 BOM (decode using utf-8-sig)"
  | expectingValue => "Expecting value"
  | expectingName => "Expecting property name enclosed in double quotes"
  | expectingColon => "Expecting ':' delimiter"
  | expectingComma => "Expecting ',' delimiter"
  | extraData => "Extra data"
  | unterminatedString => "Unterminated string starting at"
  | controlCharacter => "Invalid control character at"
  | invalidEscape => "Invalid \\escape"
  | invalidUnicodeEscape => "Invalid \\uXXXX escape"
  | integerTooLong digits =>
    s!"Exceeds the limit ({Integer.digitLimit} digits) for integer string conversion: value has " ++
      s!"{digits} digits; use sys.set_int_max_str_digits() to increase the limit"

end ParamLint.Json

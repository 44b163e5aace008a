import ParamLint.Json.Value
import ParamLint.Number.Name
import ParamLint.Text.Utf16

/-!
# Writing JSON

The layout of reports: two blanks for each level, one member or item on a line, and ASCII only, with
every other character written as the escapes of its UTF-16 units. A value with an integer that has
too many digits is not written at all.
-/
namespace ParamLint.Json

def hex4 (u : UInt16) : List Char :=
  let n := u.toNat
  [Nat.digitChar (n / 0x1000), Nat.digitChar (n / 0x100 % 16), Nat.digitChar (n / 16 % 16),
   Nat.digitChar (n % 16)]

def escapeUnits (p : CodePoint) : List Char :=
  (Utf16.unitsOf p.toNat).flatMap fun u => '\\' :: 'u' :: hex4 u

def escapePoint (p : CodePoint) : List Char :=
  match p with
  | .scalar '"' => ['\\', '"']
  | .scalar '\\' => ['\\', '\\']
  | .scalar '\n' => ['\\', 'n']
  | .scalar '\r' => ['\\', 'r']
  | .scalar '\t' => ['\\', 't']
  | .scalar '\x08' => ['\\', 'b']
  | .scalar '\x0c' => ['\\', 'f']
  | .scalar c => if 0x20 ≤ c.toNat ∧ c.toNat ≤ 0x7e then [c] else escapeUnits p
  | .surrogate _ => escapeUnits p

def quote (t : Text) : List Char := '"' :: t.flatMap escapePoint ++ ['"']

def newLine (level : Nat) : List Char := '\n' :: List.replicate (2 * level) ' '

def printInteger (n : Int) : List Char :=
  if n < 0 then '-' :: Nat.toDigits 10 n.natAbs else Nat.toDigits 10 n.natAbs

mutual

def printAt (level : Nat) : Json → List Char
  | null => "null".toList
  | bool b => (if b then "true" else "false").toList
  | integer n => printInteger n
  | decimal v => Number.format v
  | string t => quote t
  | array [] => ['[', ']']
  | array (v :: vs) =>
    '[' :: newLine (level + 1) ++ printAt (level + 1) v ++ printItems (level + 1) vs ++
      newLine level ++ [']']
  | object [] => ['\x7b', '\x7d']
  | object ((k, v) :: ms) =>
    '\x7b' :: newLine (level + 1) ++ quote k ++ ':' :: ' ' :: printAt (level + 1) v ++
      printMembers (level + 1) ms ++ newLine level ++ ['\x7d']

/-- The items after the first. -/
def printItems (level : Nat) : List Json → List Char
  | [] => []
  | v :: vs => ',' :: newLine level ++ printAt level v ++ printItems level vs

def printMembers (level : Nat) : List (Text × Json) → List Char
  | [] => []
  | (k, v) :: ms =>
    ',' :: newLine level ++ quote k ++ ':' :: ' ' :: printAt level v ++ printMembers level ms

end

mutual

/-- No integer in the value has too many digits. -/
def isWritable : Json → Bool
  | integer n => (Integer.decimal? n).isSome
  | array items => areItemsWritable items
  | object members => areMembersWritable members
  | _ => true

def areItemsWritable : List Json → Bool
  | [] => true
  | v :: vs => isWritable v && areItemsWritable vs

def areMembersWritable : List (Text × Json) → Bool
  | [] => true
  | (_, v) :: ms => isWritable v && areMembersWritable ms

end

def print? (v : Json) : Option (List Char) := if v.isWritable then some (printAt 0 v) else none

end ParamLint.Json

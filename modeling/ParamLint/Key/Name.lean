import ParamLint.Key.Escape
import ParamLint.Number.Name
import ParamLint.Text.Utf16

/-!
# Names of property keys

The name by which a member can be ignored: the value of an identifier, string, number or constant, a
private name with its mark, or the value of a computed key that is one literal. Other computed keys
have no name.
-/
namespace ParamLint.Key

def isLiteral (k : Kind) : Bool :=
  k ∈ [.string, .number, .trueLiteral, .falseLiteral, .nullLiteral]

/-- What one child of a string literal adds to its value. -/
def stringPart (s : Source) (n : Node) : Except ReadError Text :=
  match n.kind with
  | .stringFragment => (s.text n).map Text.ofChars
  | .escapeSequence => do Escape.value (← s.text n)
  | _ => .ok []

/-- The value of a string literal, in which the halves of surrogate pairs are joined. -/
def stringValue (s : Source) (n : Node) : Except ReadError Text := do
  let parts ← n.namedChildren.mapM (stringPart s)
  return Text.joinSurrogates parts.flatten

def literalValue (s : Source) (n : Node) : Except ReadError (Option Text) :=
  match n.kind with
  | .string => (stringValue s n).map some
  | .number => (s.text n).map fun raw => some (Text.ofChars (Number.name raw))
  | .trueLiteral => .ok (some (Text.ofString "true"))
  | .falseLiteral => .ok (some (Text.ofString "false"))
  | .nullLiteral => .ok (some (Text.ofString "null"))
  | _ => .ok none

def privateName : List Char → List Char
  | '#' :: rest => '#' :: rest
  | cs => '#' :: cs

def name (s : Source) (n : Node) : Except ReadError (Option Text) :=
  match n.kind with
  | .identifier | .propertyIdentifier => (s.text n).map fun cs => some (Text.ofChars cs)
  | .privatePropertyIdentifier =>
    (s.text n).map fun cs => some (Text.ofChars (privateName cs))
  | .computedPropertyName =>
    match n.namedChildren.filter (·.kind ≠ .comment) with
    | [inner] => if isLiteral inner.kind then literalValue s inner else .ok none
    | _ => .ok none
  | k => if isLiteral k then literalValue s n else .ok none

end ParamLint.Key

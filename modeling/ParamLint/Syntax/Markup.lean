import ParamLint.Syntax.Expression

/-!
# Markup

Elements with attributes and contents as expressions. The text between tags is raw: only braces and
tags interrupt it, and an ampersand has to begin a character reference.
-/
namespace ParamLint.Syntax

variable {src : List Char}

def referenceLength (cs : List Char) : Nat :=
  let closed (lead least most : Nat) (isPart : Char → Bool) : Nat :=
    let n := ((cs.drop lead).takeWhile isPart).length
    if least ≤ n ∧ n ≤ most ∧ (cs.drop (lead + n)).head? = some ';' then lead + n + 1 else 0
  match cs with
  | '&' :: '#' :: x :: _ =>
    if x = 'x' ∨ x = 'X' then closed 3 1 6 Lexeme.isHex else closed 2 1 5 Char.isDigit
  | '&' :: _ => closed 1 1 30 Char.isAlpha
  | _ => 0

def attributeLength (quote : Char) : Nat → List Char → Option Nat
  | 0, _ => none
  | fuel + 1, cs =>
    match cs with
    | [] => none
    | c :: rest =>
      if c = quote then some 0
      else if c = '&' then
        let n := referenceLength cs
        if 0 < n then (attributeLength quote fuel (cs.drop n)).map (· + n)
        else
          match rest with
          | d :: rest' =>
            if d.isAlpha || d = '#' then none else (attributeLength quote fuel rest').map (· + 2)
          | [] => none
      else (attributeLength quote fuel rest).map (· + 1)

def attributeString : Read src (Forest src) := do
  match (← get).rest with
  | quote :: rest =>
    if quote = '"' ∨ quote = '\'' then
      match attributeLength quote (rest.length + 1) rest with
      | some n => take (n + 2) .string true
      | none => failure
    else failure
  | [] => failure

def dashedName : Read src (Forest src) := do
  let rest := (← get).rest
  let isPlain (c : Char) : Bool := c.isAlphanum || c = '_' || c = '$'
  let head := (rest.takeWhile isPlain).length
  let whole := (rest.takeWhile fun c => isPlain c || c = '-').length
  if head < whole && 0 < head && !(rest.head?.any Char.isDigit) then take whole .identifier true
  else wordAs .identifier

def markupName (members : Bool) : Read src (Forest src) := do
  let first ← dashedName
  if ← looking ":" then
    let colon ← punctuation ":"
    return grouped "jsx_namespace_name" (first ++ colon ++ (← dashedName))
  else if members then
    loop (fun nodes => do
      if ← looking "." then
        let dot ← punctuation "."
        return some (grouped "member_expression" (nodes ++ dot ++ (← wordAs .propertyIdentifier)))
      else return none) first
  else return first

def markupExpression : Read src (Forest src) :=
  enclosed do
    let opening ← punctuation "\x7b"
    let inner ← if ← looking "\x7d" then pure []
      else if ← looking "..." then spread
      else expressions
    return grouped "jsx_expression" (opening ++ inner ++ (← punctuation "\x7d"))

def markupAttribute : Read src (Forest src) := do
  if ← looking "\x7b" then markupExpression
  else
    let name ← markupName false
    if ← looking "=" then
      let equals ← punctuation "="
      let value ← if ← isStringStart then attributeString
        else if ← looking "\x7b" then markupExpression
        else recur .markup
      return grouped "jsx_attribute" (name ++ equals ++ value)
    else return grouped "jsx_attribute" name

def toRaw : Read src Unit := do
  jump (← get).behind

def isMarkupText (c : Char) : Bool := c ∉ ['<', '>', '\x7b', '\x7d', '&']

def contents : Read src (Forest src) := do
  toRaw
  loop (fun nodes => do
    let here ← get
    match here.rest with
    | '<' :: '/' :: _ => return none
    | '<' :: _ =>
      let element ← recur .markup
      toRaw
      return some (nodes ++ element)
    | '\x7b' :: _ =>
      let inner ← markupExpression
      toRaw
      return some (nodes ++ inner)
    | '&' :: _ =>
      let n := referenceLength here.rest
      if n = 0 then failure
      jump (here.next.advance n)
      return some nodes
    | rest =>
      let text := rest.takeWhile isMarkupText
      if text.isEmpty then failure
      jump (here.next.advance text.length)
      return some nodes) []

/-- The end of an element: its closing tag, whose name need not be the opening one's. -/
def closingTag : Read src (Forest src) := do
  let opening ← punctuation "</"
  let name ← if ← looking ">" then pure [] else markupName true
  return grouped "jsx_closing_element" (opening ++ name ++ (← punctuation ">"))

def element : Read src (Forest src) :=
  enclosed do
    let opening ← punctuation "<"
    if ← looking ">" then
      let tag ← punctuation ">"
      let inner ← contents
      return grouped "jsx_element" (opening ++ tag ++ inner ++ (← closingTag))
    else
      let name ← markupName true
      let types ← if (← hasTypes) && (← looking "<") then typeArguments else pure []
      let attributes ← upTo (return (← looking ">") || (← looking "/")) markupAttribute
      let lead := opening ++ name ++ types ++ attributes
      if ← looking "/" then
        return grouped "jsx_self_closing_element" (lead ++ (← punctuation "/>"))
      else
        let tag ← punctuation ">"
        let inner ← contents
        return grouped "jsx_element" (lead ++ tag ++ inner ++ (← closingTag))

end ParamLint.Syntax

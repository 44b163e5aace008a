import ParamLint.Syntax.Callable
import ParamLint.Syntax.Operator
import ParamLint.Syntax.Target

/-!
# Expressions

From operands with what is appended to them, through the levels of binary operators, to conditional
expressions and sequences. An assignment is read together with the operand it assigns to.
-/
namespace ParamLint.Syntax

variable {src : List Char}

def expressions : Read src (Forest src) := do
  let first ← recur .expression
  if ← looking "," then
    let more ← upTo (return !(← looking ",")) do
      return (← punctuation ",") ++ (← recur .expression)
    return grouped "sequence_expression" (first ++ more)
  else return first

/-! Literals that hold expressions -/

def spread : Read src (Forest src) := do
  let dots ← punctuation "..."
  return grouped "spread_element" (dots ++ (← recur .expression))

/-- A key on its own: a name that is also its value, perhaps with a default. -/
def shorthand (key : Forest src) (name : String) : Read src (Forest src) := do
  if ← isReserved name then failure
  if (← looking "=") && !(← looking "=>") && !(← looking "==") then
    let equals ← punctuation "="
    let left := mapNodes (·.withKind (.other "shorthand_property_identifier_pattern")) key
    return grouped "object_assignment_pattern"
      (under .left left ++ equals ++ under .right (← recur .expression))
  else return mapNodes (·.withKind (.other "shorthand_property_identifier")) key

def objectMember : Read src (Forest src) := do
  if ← looking "..." then spread
  else
    let marks ← if ← hasTypes then pure [] else decorators
    let word ← peekWord
    let lead ← memberLead
    let modifiers := marks ++ lead.modifiers ++ lead.ofMethod
    if ← looking ":" then
      unless modifiers.isEmpty do failure
      let colon ← punctuation ":"
      return group .pair (under .key lead.key ++ colon ++ under .value (← recur .expression))
    else if (← looking "(") || (← hasTypes) && ((← looking "<") || (← looking "?")) then
      methodAfter (modifiers ++ under .name lead.key)
    else if modifiers.isEmpty && word ≠ "" then shorthand lead.key word
    else failure

def objectLiteral : Read src (Forest src) :=
  enclosed do
    let opening ← punctuation "\x7b"
    let members ← sparse "\x7d" objectMember
    return grouped "object" (opening ++ members ++ (← punctuation "\x7d"))

def arrayLiteral : Read src (Forest src) :=
  enclosed do
    let opening ← punctuation "["
    let items ← sparse "]" (do if ← looking "..." then spread else recur .expression)
    return grouped "array" (opening ++ items ++ (← punctuation "]"))

def regularExpression : Read src (Forest src) := do
  match (← get).rest with
  | '/' :: rest =>
    match Lexeme.patternLength false rest with
    | none | some 0 => failure
    | some n =>
      let flags := ((rest.drop (n + 1)).takeWhile fun c => 'a' ≤ c && c ≤ 'z').length
      take (n + 2 + flags) (.other "regex") true
  | _ => failure

def parenthesized : Read src (Forest src) :=
  enclosed do
    let opening ← punctuation "("
    let inner ← expressions
    let type ← perhapsType
    return group .parenthesizedExpression (opening ++ inner ++ type ++ (← punctuation ")"))

/-! Operands -/

def startsOperand (cs : List Char) : Bool :=
  match cs with
  | c :: _ =>
    Lexeme.isWordStart c || c.isDigit ||
      c ∈ ['"', '\'', '`', '[', '\x7b', '+', '-', '~', '/', '<', '#', '@', '\\']
  | [] => false

/-- A type list after an operand, if it can only be one: a call follows, or no operand does. -/
def appendedTypes : Read src (Forest src) := do
  let types ← typeArguments
  let rest := (← get).rest
  if startsOperand rest && rest.head? ≠ some '`' && (← goesOn) then failure
  return types

/-- One more piece appended to an operand. Calls are left to the caller where `calls` is false.
After an operand the marks of a markup comment are operators. -/
def appended (calls : Bool) (nodes : Forest src) : Read src (Option (Forest src)) := do
  modify Cursor.withoutMarkup
  unless ← goesOn do return none
  let member (dot : Forest src) : Read src (Option (Forest src)) := do
    let name ← privateName <|> wordAs .propertyIdentifier
    return some (grouped "member_expression" (nodes ++ dot ++ under .property name))
  let subscript (lead : Forest src) : Read src (Option (Forest src)) :=
    enclosed do
      let opening ← punctuation "["
      let index ← expressions
      return some
        (grouped "subscript_expression" (nodes ++ lead ++ opening ++ index ++ (← punctuation "]")))
  match (← get).rest with
  | '?' :: '.' :: rest =>
    if rest.head?.any Char.isDigit then return none
    let chain ← punctuation "?."
    match (← get).rest with
    | '[' :: _ => subscript chain
    | '(' :: _ =>
      if calls then return some (grouped "call_expression" (nodes ++ chain ++ (← arguments)))
      else failure
    | '<' :: _ =>
      typed
      let types ← typeArguments
      return some (grouped "call_expression" (nodes ++ chain ++ types ++ (← arguments)))
    | _ => member chain
  | '.' :: _ => member (← punctuation ".")
  | '[' :: _ => subscript []
  | '(' :: _ =>
    if calls then return some (grouped "call_expression" (nodes ++ (← arguments)))
    else return none
  | '`' :: _ =>
    return some (grouped "call_expression"
      (nodes ++ (← template "template_string" expressions)))
  | '!' :: rest =>
    if (← hasTypes) && rest.head? ≠ some '=' then
      return some (grouped "non_null_expression" (nodes ++ (← punctuation "!")))
    else return none
  | '<' :: _ =>
    if (← hasTypes) && calls then
      (do
        let types ← appendedTypes
        if ← looking "(" then
          return some (grouped "call_expression" (nodes ++ types ++ (← arguments)))
        else return some (grouped "instantiation_expression" (nodes ++ types)))
      <|> return none
    else return none
  | _ => return none

def newExpression : Read src (Forest src) := do
  let new ← keyword "new"
  if ← looking "." then
    let dot ← punctuation "."
    return grouped "meta_property" (new ++ dot ++ (← keyword "target"))
  else
    let callee ← recur (.constructed)
    let types ← if (← hasTypes) && (← looking "<") then perhaps appendedTypes else pure []
    let inputs ← if (← looking "(") && (← goesOn) then arguments else pure []
    return grouped "new_expression" (new ++ callee ++ types ++ inputs)

def importOperand : Read src (Forest src) := do
  let word ← keyword "import"
  if ← looking "." then
    let dot ← punctuation "."
    return grouped "meta_property" (word ++ dot ++ (← keyword "meta"))
  else if ← looking "(" then return word
  else failure

def yieldExpression : Read src (Forest src) := do
  let yield ← keyword "yield"
  if ← looking "*" then
    let star ← punctuation "*"
    return grouped "yield_expression" (yield ++ star ++ (← recur .expression))
  else if ← goesOn then
    return grouped "yield_expression" (yield ++ (← perhaps (recur .expression)))
  else return grouped "yield_expression" yield

/-- A name, which is a parameter if an arrow follows. -/
def nameOrArrow (async : Forest src) : Read src (Forest src) := do
  let name ← if (← peekWord) = "export" then wordAs .identifier else binding
  if ← looking "=>" then arrowAfter (async ++ under .parameter name)
  else if async.isEmpty then return name
  else failure

def asyncOperand : Read src (Forest src) :=
  (do
    let here ← get
    let async ← keyword "async"
    unless ← goesOn do failure
    if (← peekWord) = "function" then
      set here
      functionExpression
    else if (← looking "(") || (← looking "<") then
      set here
      arrowFunction
    else nameOrArrow async)
  <|> nameOrArrow []

def wordOperand : Read src (Forest src) := do
  match ← peekWord with
  | "" => failure
  | "function" => functionExpression
  | "async" => asyncOperand
  | "class" => classAfter "class" false []
  | "new" => newExpression
  | "import" => importOperand
  | "yield" => yieldExpression
  | "this" => wordAs .this
  | "super" => wordAs (.other "super")
  | "null" => wordAs .nullLiteral
  | "true" => wordAs .trueLiteral
  | "false" => wordAs .falseLiteral
  | "undefined" => wordAs .undefined
  | _ => nameOrArrow []

def typeAssertion : Read src (Forest src) := do
  let types ← typeArguments
  return grouped "type_assertion" (types ++ (← recur .unary))

/-- What an angle bracket begins: an arrow function with type parameters, an assertion, markup. -/
def angleOperand : Read src (Forest src) := do
  match (← read).dialect with
  | .javascript => recur .markup
  | .tsx => arrowFunction <|> recur .markup
  | .typescript => arrowFunction <|> typeAssertion

/-- A private name may only be looked for in something. -/
def privateOperand : Read src (Forest src) := do
  let name ← privateName
  if (← peekWord) = "in" then return name else failure

def primary : Read src (Forest src) := do
  match (← get).rest with
  | '(' :: _ => arrowFunction <|> parenthesized
  | '[' :: _ => arrayLiteral
  | '\x7b' :: _ => objectLiteral
  | '"' :: _ | '\'' :: _ => stringLiteral
  | '`' :: _ => template "template_string" expressions
  | '/' :: _ => regularExpression
  | '<' :: _ => angleOperand
  | '#' :: _ => privateOperand
  | '@' :: _ => do
    let marks ← decorators
    classAfter "class" false marks
  | c :: _ => if c.isDigit || c = '.' then numberLiteral else wordOperand
  | [] => failure

/-- A primary expression and all that is appended to it. -/
def operand (calls : Bool) : Read src (Forest src) := do
  loop (appended calls) (← primary)

def assigned : Read src (Forest src) := do
  let nodes ← recur .operand
  unless ← goesOn do return nodes
  let mark ← peekMark
  if mark = "=" then
    match target? nodes with
    | none => failure
    | some left =>
      let equals ← punctuation "="
      return group .assignmentExpression
        (under .left left ++ equals ++ under .right (← recur .expression))
  else if mark ∈ augmentedMarks then
    unless (kindOf? nodes).any isAugmentable do failure
    let sign ← punctuation mark
    return group .augmentedAssignmentExpression
      (under .left nodes ++ sign ++ under .right (← recur .expression))
  else if mark = "++" || mark = "--" then
    let sign ← punctuation mark
    modify Cursor.withoutMarkup
    return grouped "update_expression" (nodes ++ sign)
  else return nodes

/-! Operators -/

def unaryWith (kind : String) (sign : Read src (Forest src)) : Read src (Forest src) := do
  let sign ← sign
  return grouped kind (sign ++ (← recur .unary))

def awaitOperand : Read src (Forest src) :=
  (do
    let await ← keyword "await"
    unless ← goesOn do failure
    return grouped "await_expression" (await ++ (← recur .unary)))
  <|> assigned

def unary : Read src (Forest src) := do
  match (← get).rest with
  | '+' :: '+' :: _ => unaryWith "update_expression" (punctuation "++")
  | '-' :: '-' :: _ => unaryWith "update_expression" (punctuation "--")
  | '+' :: _ => unaryWith "unary_expression" (punctuation "+")
  | '-' :: _ => unaryWith "unary_expression" (punctuation "-")
  | '!' :: _ => unaryWith "unary_expression" (punctuation "!")
  | '~' :: _ => unaryWith "unary_expression" (punctuation "~")
  | _ =>
    match ← peekWord with
    | "typeof" => unaryWith "unary_expression" (keyword "typeof")
    | "void" => unaryWith "unary_expression" (keyword "void")
    | "delete" => unaryWith "unary_expression" (keyword "delete")
    | "await" => awaitOperand
    | _ => assigned

def ascribed (word : String) (nodes : Forest src) : Read src (Forest src) := do
  let sign ← keyword word
  return grouped (word ++ "_expression") (nodes ++ sign ++ (← recur .type))

/-- Operands joined by operators of at least this level. -/
def binary (level : Nat) : Read src (Forest src) := do
  let first ← recur .unary
  loop (fun nodes => do
    unless ← goesOn do return none
    let sign ← peekOperator
    if (← hasTypes) && (sign = "as" || sign = "satisfies") && level ≤ 8 then
      return some (← ascribed sign nodes)
    match level? sign with
    | none => return none
    | some found =>
      if found < level then return none
      let mark ← take sign.length (.other sign) false
      let right ← recur (.binary (levelAfter sign found))
      return some (grouped "binary_expression" (nodes ++ mark ++ right))) first

/-- The middle of a conditional expression. A return type that would take the colon away is given
up. -/
def consequence : Read src (Forest src) :=
  (do
    let nodes ← enclosed (recur .expression)
    if ← looking ":" then return nodes else failure)
  <|> (do
    typed
    withMode ⟨false, false⟩ (recur .expression))

def expression : Read src (Forest src) := do
  let test ← recur (.binary 1)
  if (← goesOn) && (← looksConditional) then
    let question ← punctuation "?"
    let yes ← consequence
    let colon ← punctuation ":"
    return grouped "ternary_expression" (test ++ question ++ yes ++ colon ++ (← recur .expression))
  else return test

end ParamLint.Syntax

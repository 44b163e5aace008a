import ParamLint.Syntax.Reader

/-!
# Patterns and parameters

What may be bound: names, places, and patterns that take a value apart; and the parameters of a
function, which in the typed dialects are wrapped with their modifiers and types.
-/
namespace ParamLint.Syntax

variable {src : List Char}

def typeAnnotation : Read src (Forest src) := do
  let colon ← punctuation ":"
  return grouped "type_annotation" (colon ++ (← recur .type))

def perhapsType : Read src (Forest src) := do
  if (← hasTypes) && (← looking ":") then typeAnnotation else return []

def initializer : Read src (Forest src) := do
  let equals ← punctuation "="
  return equals ++ under .value (← recur .expression)

def perhapsInitializer : Read src (Forest src) := do
  if (← looking "=") && !(← looking "=>") then initializer else return []

def arguments : Read src (Forest src) :=
  enclosed do
    let opening ← punctuation "("
    let items ← sparse ")" do
      if ← looking "..." then
        let dots ← punctuation "..."
        return grouped "spread_element" (dots ++ (← recur .expression))
      else recur .expression
    return grouped "arguments" (opening ++ items ++ (← punctuation ")"))

def typeArguments : Read src (Forest src) :=
  enclosed do
    let opening ← punctuation "<"
    let items ← listed ">" (recur .type)
    return grouped "type_arguments" (opening ++ items ++ (← punctuation ">"))

/-! Decorators -/

def nameChain : Read src (Forest src) := do
  let first ← binding
  loop (fun nodes => do
    if (← looking ".") && !(← looking "...") then
      let dot ← punctuation "."
      return some (grouped "member_expression" (nodes ++ dot ++ (← wordAs .propertyIdentifier)))
    else return none) first

def decoratorCall : Read src (Forest src) := do
  let name ← nameChain
  let types ← if (← hasTypes) && (← looking "<") then typeArguments else pure []
  if (← looking "(") || !types.isEmpty then
    return grouped "call_expression" (name ++ types ++ (← arguments))
  else return name

def decorator : Read src (Forest src) := do
  let mark ← punctuation "@"
  if (← hasTypes) && (← looking "(") then
    let opening ← punctuation "("
    let inner ← decoratorCall
    return group .decorator
      (mark ++ group .parenthesizedExpression (opening ++ inner ++ (← punctuation ")")))
  else return group .decorator (mark ++ (← decoratorCall))

def decorators : Read src (Forest src) := upTo (return !(← looking "@")) decorator

/-! Patterns -/

def isPlace (k : Kind) : Bool :=
  k = .identifier || k = .undefined || k = .other "member_expression" ||
    k = .other "subscript_expression" || k = .other "non_null_expression"

def patternWithDefault (certain : Bool) : Read src (Forest src) := do
  let pattern ← recur (.pattern certain)
  if (← looking "=") && !(← looking "=>") then
    let equals ← punctuation "="
    return group .assignmentPattern
      (under .left pattern ++ equals ++ under .right (← recur .expression))
  else return pattern

def restPattern (certain : Bool) : Read src (Forest src) := do
  let dots ← punctuation "..."
  return group .restPattern (dots ++ (← recur (.pattern certain)))

def arrayPattern (certain : Bool) : Read src (Forest src) :=
  enclosed do
    let opening ← punctuation "["
    let items ← sparse "]" (patternWithDefault certain)
    return group .arrayPattern (opening ++ items ++ (← punctuation "]"))

/-- A member of an object pattern: a key with a pattern, a name with or without a default, or the
rest. -/
def memberPattern (certain : Bool) : Read src (Forest src) := do
  if ← looking "..." then restPattern certain
  else
    let after ← afterWord
    let isName := 0 < Lexeme.wordLength (← get).rest && after.head? ≠ some ':'
    if isName then
      let name ← bindingAs (.other "shorthand_property_identifier_pattern")
      if ← looking "=" then
        let equals ← punctuation "="
        return grouped "object_assignment_pattern"
          (under .left name ++ equals ++ under .right (← recur .expression))
      else return name
    else
      let key ← propertyName
      let colon ← punctuation ":"
      return grouped "pair_pattern"
        (under .key key ++ colon ++ under .value (← patternWithDefault certain))

def objectPattern (certain : Bool) : Read src (Forest src) :=
  enclosed do
    let opening ← punctuation "\x7b"
    let items ← sparse "\x7d" (memberPattern certain)
    return group .objectPattern (opening ++ items ++ (← punctuation "\x7d"))

def destructuring (certain : Bool) : Read src (Forest src) := do
  if ← looking "\x7b" then objectPattern certain
  else if ← looking "[" then arrayPattern certain
  else failure

/-- Words that begin an expression of their own and name no place. -/
def operatorWords : List String :=
  ["function", "class", "new", "typeof", "void", "delete", "yield", "this", "super", "null", "true",
   "false", "import"]

/-- A name and the places in it, without a call: what may be a parameter as long as it is not
certain that there is a function. -/
def uncertainPlace : Read src (Forest src) := do
  let w ← peekWord
  if w ∈ operatorWords then failure
  let name ← if w = "undefined" then wordAs .undefined
    else if w = "export" then wordAs .identifier
    else binding
  loop (fun nodes => do
    modify Cursor.withoutMarkup
    if (← looking ".") && !(← looking "...") then
      let dot ← punctuation "."
      let property ← privateName <|> wordAs .propertyIdentifier
      return some (grouped "member_expression" (nodes ++ dot ++ property))
    else if ← looking "?." then
      let chain ← punctuation "?."
      let property ← privateName <|> wordAs .propertyIdentifier
      return some (grouped "member_expression" (nodes ++ chain ++ property))
    else if ← looking "[" then
      enclosed do
        let opening ← punctuation "["
        let index ← recur .expression
        let closing ← punctuation "]"
        return some (grouped "subscript_expression" (nodes ++ opening ++ index ++ closing))
    else if (← hasTypes) && (← looking "!") then
      return some (grouped "non_null_expression" (nodes ++ (← punctuation "!")))
    else return none) name

/-- A pattern, without its default. -/
def pattern (certain : Bool) : Read src (Forest src) := do
  if ← looking "..." then restPattern certain
  else if (← looking "\x7b") || (← looking "[") then destructuring certain
  else if certain then
    let place ← recur .operand
    modify Cursor.withMarkup
    if (kindOf? place).any isPlace then return place else failure
  else uncertainPlace

/-! Parameters -/

def parameterModifier (words : List String) : Read src (Forest src) := do
  let w ← peekWord
  let after ← afterWord
  let modifies := match after with
    | c :: _ => Lexeme.isWordStart c || c ∈ ['\x7b', '[', '\\']
    | [] => false
  if w ∈ words && modifies then take w.length (.other w) false else return []

def typedParameter (certain : Bool) : Read src (Forest src) := do
  let marks ← decorators
  let access ← parameterModifier ["public", "private", "protected"]
  let override ← parameterModifier ["override"]
  let readonly ← parameterModifier ["readonly"]
  let pattern ← if (← peekWord) = "this" then wordAs .this else recur (.pattern certain)
  let question ← optional "?"
  let type ← perhapsType
  let value ← perhapsInitializer
  let kind : Kind := if question.isEmpty then .requiredParameter else .optionalParameter
  return group kind
    (marks ++ access ++ override ++ readonly ++ under .pattern pattern ++ question ++ type ++ value)

/-- The parameters of a function. It may not yet be certain that there is one. -/
def formalParameters (certain : Bool) : Read src (Forest src) :=
  enclosed do
    let opening ← punctuation "("
    let item := do
      if ← hasTypes then typedParameter certain else patternWithDefault certain
    let items ← if ← looking ")" then pure [] else listed ")" item
    return under .parameters (grouped "formal_parameters" (opening ++ items ++ (← punctuation ")")))

/-! Signatures -/

def typeParameter : Read src (Forest src) := do
  let after ← afterWord
  let const ← if (← peekWord) = "const" && after.head?.any Lexeme.isWordStart then keyword "const"
    else pure []
  let name ← wordAs (.other "type_identifier")
  let bound ← if (← peekWord) = "extends" then pure ((← keyword "extends") ++ (← recur .type))
    else if ← looking ":" then pure ((← punctuation ":") ++ (← recur .type))
    else pure []
  let default ← if ← looking "=" then pure ((← punctuation "=") ++ (← recur .type)) else pure []
  return grouped "type_parameter" (const ++ name ++ bound ++ default)

def typeParameters : Read src (Forest src) :=
  enclosed do
    let opening ← punctuation "<"
    let items ← listed ">" typeParameter
    return grouped "type_parameters" (opening ++ items ++ (← punctuation ">"))

def perhapsTypeParameters : Read src (Forest src) := do
  if (← hasTypes) && (← looking "<") then typeParameters else return []

def typePredicate : Read src (Forest src) := do
  let name ← wordAs .identifier
  let is ← keyword "is"
  return grouped "type_predicate" (name ++ is ++ (← recur .type))

def resultType : Read src (Forest src) :=
  (do
    let asserts ← keyword "asserts"
    let subject ← typePredicate <|> wordAs .identifier
    return grouped "asserts" (asserts ++ subject))
  <|> typePredicate
  <|> recur .type

def resultAnnotation : Read src (Forest src) := do
  let colon ← punctuation ":"
  return grouped "type_annotation" (colon ++ (← resultType))

def callSignature (certain : Bool) : Read src (Forest src) := do
  let types ← perhapsTypeParameters
  let parameters ← formalParameters certain
  let result ← if (← hasTypes) && (← looking ":") then resultAnnotation else pure []
  return types ++ parameters ++ result

end ParamLint.Syntax

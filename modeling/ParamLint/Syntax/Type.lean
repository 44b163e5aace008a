import ParamLint.Syntax.Parameter

/-!
# Types

The types of the typed dialects. Nothing in them is a function that could be judged, but a source
reads only if they do, and where they end decides what comes after them.
-/
namespace ParamLint.Syntax

variable {src : List Char}

/-- The parameters of a function type, certain only at its arrow, and its result. -/
def functionType : Read src (Forest src) := do
  let types ← perhapsTypeParameters
  let parameters ← formalParameters false
  let arrow ← punctuation "=>"
  return grouped "function_type" (types ++ parameters ++ arrow ++ (← resultType))

def constructorType : Read src (Forest src) := do
  let abstract ← if (← peekWord) = "abstract" then keyword "abstract" else pure []
  let new ← keyword "new"
  return grouped "constructor_type" (abstract ++ new ++ (← functionType))

/-! Members of object types -/

/-- The brackets of an index: a key with its type, or a name that runs over a type. -/
def indexKey : Read src (Forest src) :=
  enclosed do
    let opening ← punctuation "["
    let name ← wordAs .identifier
    let range ← if ← looking ":" then pure ((← punctuation ":") ++ (← recur .type))
      else do
        let inside ← keyword "in"
        let type ← recur .type
        let renamed ← if (← peekWord) = "as" then pure ((← keyword "as") ++ (← recur .type))
          else pure []
        pure (inside ++ type ++ renamed)
    return opening ++ name ++ range ++ (← punctuation "]")

def indexSignature : Read src (Forest src) := do
  let sign ← if ← looking "-" then punctuation "-" else optional "+"
  let readonly ← if (← peekWord) = "readonly" then keyword "readonly" else pure []
  if readonly.isEmpty && !sign.isEmpty then failure
  let key ← indexKey
  let optionSign ← if ← looking "-?" then punctuation "-?"
    else if ← looking "+?" then punctuation "+?"
    else optional "?"
  return grouped "index_signature" (sign ++ readonly ++ key ++ optionSign ++ (← typeAnnotation))

/-- A modifier that a generator may have too. -/
def plainModifier (s : String) : Read src (Forest src) := modifier s (.other s) true

def accessModifier : Read src (Forest src) := do
  let w ← peekWord
  if w = "public" || w = "private" || w = "protected" then plainModifier w else return []

def accessorModifier : Read src (Forest src) := do
  let w ← peekWord
  if w = "get" || w = "set" then modifier w (.other w) false else return []

def methodModifiers : Read src (Forest src) := do
  let async ← plainModifier "async"
  let star ← optional "*"
  return async ++ star ++ (← if star.isEmpty then accessorModifier else pure [])

def memberSignature : Read src (Forest src) := do
  let access ← accessModifier
  let static ← modifier "static" .staticMark true
  let override ← plainModifier "override"
  let readonly ← plainModifier "readonly"
  let method ← methodModifiers
  let name ← propertyName
  let question ← optional "?"
  let lead := access ++ static ++ override ++ readonly ++ method ++ under .name name ++ question
  if (← looking "(") || (← looking "<") then
    return grouped "method_signature" (lead ++ (← callSignature true))
  else if method.isEmpty then return grouped "property_signature" (lead ++ (← perhapsType))
  else failure

def startsSignature (cs : List Char) : Bool := cs.head? = some '(' || cs.head? = some '<'

def constructSignature : Read src (Forest src) := do
  let abstract ← if (← peekWord) = "abstract" then keyword "abstract" else pure []
  let new ← keyword "new"
  unless startsSignature (← get).rest do failure
  return grouped "construct_signature" (abstract ++ new ++ (← callSignature true))

def typeMember : Read src (Forest src) := do
  if startsSignature (← get).rest then
    return grouped "call_signature" (← callSignature true)
  else constructSignature <|> indexSignature <|> memberSignature

def memberSeparator : Read src (Forest src) := do
  if ← looking "," then punctuation "," else optional ";"

def typeMembers (close : String) : Read src (Forest src) :=
  inStatement do
    let first ← memberSeparator
    let members ← upTo (looking close) do
      let member ← typeMember
      let separator ← memberSeparator
      if separator.isEmpty && !(← looking close) && !(← mayEnd false false) then failure
      return member ++ separator
    return first ++ members

def objectType : Read src (Forest src) := do
  let exact ← looking "\x7b|"
  let opening ← punctuation (if exact then "\x7b|" else "\x7b")
  let close := if exact then "|\x7d" else "\x7d"
  let members ← typeMembers close
  return grouped "object_type" (opening ++ members ++ (← punctuation close))

/-! Other types -/

def tupleMember : Read src (Forest src) :=
  (do
    let dots ← optional "..."
    let name ← wordAs .identifier
    let question ← optional "?"
    return grouped "tuple_parameter" (dots ++ name ++ question ++ (← typeAnnotation)))
  <|> (do
    let dots ← optional "..."
    let type ← recur .type
    let question ← if dots.isEmpty then optional "?" else pure []
    return grouped "tuple_member" (dots ++ type ++ question))

def tupleType : Read src (Forest src) :=
  enclosed do
    let opening ← punctuation "["
    let members ← if ← looking "]" then pure [] else listed "]" tupleMember
    return grouped "tuple_type" (opening ++ members ++ (← punctuation "]"))

def parenthesizedType : Read src (Forest src) :=
  enclosed do
    let opening ← punctuation "("
    let type ← recur .type
    return grouped "parenthesized_type" (opening ++ type ++ (← punctuation ")"))

def memberNames (nodes : Forest src) : Read src (Forest src) :=
  loop (fun nodes => do
    let chain ← looking "?."
    if (← looking ".") && !(← looking "...") || chain then
      let dot ← punctuation (if chain then "?." else ".")
      let name ← privateName <|> wordAs .propertyIdentifier
      return some (grouped "member_expression" (nodes ++ dot ++ name))
    else return none) nodes

def importType : Read src (Forest src) := do
  let call ← pure ((← keyword "import") ++ (← arguments))
  memberNames (grouped "call_expression" call)

def typeQuery : Read src (Forest src) := do
  let typeof ← keyword "typeof"
  let value ← if (← peekWord) = "import" then importType else memberNames (← wordAs .identifier)
  let types ← if ← looking "<" then typeArguments else pure []
  return grouped "type_query" (typeof ++ value ++ types)

def typeName : Read src (Forest src) := do
  let name ← memberNames (← wordAs (.other "type_identifier"))
  if (← looking "<") && (← nameGoesOn) then
    return grouped "generic_type" (name ++ (← typeArguments))
  else return name

def signedNumber : Read src (Forest src) := do
  let sign ← if ← looking "-" then punctuation "-" else optional "+"
  return grouped "literal_type" (sign ++ (← numberLiteral))

def wordOperator (s kind : String) (c : Category) : Read src (Forest src) := do
  let word ← keyword s
  return grouped kind (word ++ (← recur c))

def inferredType : Read src (Forest src) := do
  let infer ← keyword "infer"
  let name ← wordAs (.other "type_identifier")
  let bound ← perhaps do
    let sign ← keyword "extends"
    let type ← recur .typeOperand
    if (← looking "?") then failure
    return sign ++ type
  return grouped "infer_type" (infer ++ name ++ bound)

def uniqueSymbol : Read src (Forest src) := do
  let unique ← keyword "unique"
  return grouped "predefined_type" (unique ++ (← keyword "symbol"))

def typeWord : Read src (Forest src) := do
  match ← peekWord with
  | "new" | "abstract" => constructorType <|> typeName
  | "keyof" => wordOperator "keyof" "index_type_query" .typeOperand
  | "readonly" => wordOperator "readonly" "readonly_type" .typeOperand
  | "typeof" => typeQuery
  | "infer" => inferredType
  | "unique" => uniqueSymbol
  | "import" => importType
  | _ => typeName

def typeTail (nodes : Forest src) : Read src (Forest src) :=
  loop (fun nodes => do
    if (← looking "[") && (← nameGoesOn) then
      enclosed do
        let opening ← punctuation "["
        let index ← if ← looking "]" then pure [] else recur .type
        return some (grouped "lookup_type" (nodes ++ opening ++ index ++ (← punctuation "]")))
    else return none) nodes

def typeOperand : Read src (Forest src) := do
  match (← get).rest with
  | '(' :: _ => functionType <|> (do typeTail (← parenthesizedType))
  | '<' :: _ => functionType
  | '\x7b' :: _ => typeTail (← objectType)
  | '[' :: _ => typeTail (← tupleType)
  | '"' :: _ | '\'' :: _ => typeTail (← stringLiteral)
  | '`' :: _ => typeTail (← template "template_literal_type" (recur .type))
  | '?' :: _ => return grouped "flow_maybe_type" ((← punctuation "?") ++ (← recur .typeOperand))
  | '*' :: _ => typeTail (← punctuation "*")
  | c :: _ =>
    if c.isDigit || c ∈ ['-', '+', '.'] then typeTail (← signedNumber)
    else typeTail (← typeWord)
  | [] => failure

/-- Operands between bars and ampersands, of which one may stand in front. -/
def typeUnion : Read src (Forest src) := do
  let lead ← if ← looking "|" then punctuation "|" else optional "&"
  let first ← recur .typeOperand
  loop (fun nodes => do
    if ← looking "|\x7d" then return none
    else if (← looking "|") || (← looking "&") then
      let mark ← if ← looking "|" then punctuation "|" else punctuation "&"
      return some (grouped "union_type" (nodes ++ mark ++ (← recur .typeOperand)))
    else return none) (lead ++ first)

/-- A type, which may depend on whether another extends a third. -/
def fullType : Read src (Forest src) := do
  let type ← typeUnion
  if (← peekWord) = "extends" && (← nameGoesOn) then
    (do
      let sign ← keyword "extends"
      let bound ← typeUnion
      let question ← punctuation "?"
      let yes ← enclosed (recur .type)
      let colon ← punctuation ":"
      return grouped "conditional_type" (type ++ sign ++ bound ++ question ++ yes ++ colon ++
        (← recur .type)))
    <|> return type
  else return type

end ParamLint.Syntax

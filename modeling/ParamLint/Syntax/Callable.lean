import ParamLint.Syntax.Bracket
import ParamLint.Syntax.Type

/-!
# Functions, methods and classes

The bodies, signatures and modifiers of everything that is called. What may follow a class member or
a function without a body depends on the dialect.
-/
namespace ParamLint.Syntax

variable {src : List Char}

def block : Read src (Forest src) := do
  let opening ← punctuation "\x7b"
  let statements ← inStatement (upTo (looking "\x7d") (recur .statement))
  return grouped "statement_block" (opening ++ statements ++ (← closeBlock))

/-! Function expressions -/

def perhapsAsync : Read src (Forest src) := do
  if (← peekWord) = "async" then keyword "async" else return []

def perhapsName (kind : Kind) : Read src (Forest src) := do
  if 0 < Lexeme.wordLength (← get).rest then return under .name (← bindingAs kind) else return []

/-- A function as an expression: its name may be missing, its body may not. -/
def functionExpression : Read src (Forest src) := do
  let async ← perhapsAsync
  let function ← keyword "function"
  let star ← optional "*"
  let name ← perhapsName .identifier
  let signature ← callSignature true
  let body ← block
  let kind : FunctionKind := if star.isEmpty then .functionExpression else .generatorFunction
  return group (.function kind) (async ++ function ++ star ++ name ++ signature ++ body)

/-! Arrow functions -/

/-- `word :` after an opening brace: a pair, or a labelled statement. -/
def startsPair (cs : List Char) : Bool :=
  let rest := Cursor.pastBlanks (cs.drop 1)
  let n := Lexeme.wordLength rest
  0 < n && (Cursor.pastBlanks (rest.drop n)).head? = some ':'

def arrowBody : Read src (Forest src) := do
  if ← looking "\x7b" then
    if startsPair (← get).rest then recur .expression <|> block
    else block <|> recur .expression
  else recur .expression

def arrowAfter (lead : Forest src) : Read src (Forest src) := do
  let arrow ← punctuation "=>"
  return group (.function .arrowFunction) (lead ++ arrow ++ (← arrowBody))

/-- The bracket that comes next may open a list of parameters: behind the one that closes it there
is an arrow or the type of a result. -/
def mayOpenParameters : Read src Bool := do
  match Bracket.behind (← get).rest with
  | none => return true
  | some rest =>
    let next := Cursor.pastBlanks rest
    return "=>".toList.isPrefixOf next || (← hasTypes) && next.head? = some ':'

def arrowFunction : Read src (Forest src) := do
  let async ← perhapsAsync
  let types ← perhapsTypeParameters
  unless ← mayOpenParameters do failure
  let parameters ← formalParameters false
  let result ← if (← hasTypes) && (← looking ":") then
      if (← read).mode.returnTypes then resultAnnotation else failure
    else pure []
  arrowAfter (async ++ types ++ parameters ++ result)

/-! Methods -/

/-- What may stand between a word `static` and a line end to make one mark of both words. -/
def isNarrowBlank (c : Char) : Bool := c = ' ' || 0x09 ≤ c.toNat && c.toNat ≤ 0x0d

def staticGetLength (cs : List Char) : Nat :=
  let afterStatic := cs.drop 6
  let blanks := (afterStatic.takeWhile isNarrowBlank).length
  let afterGet := afterStatic.drop (blanks + 3)
  let tail := afterGet.takeWhile isNarrowBlank
  let ending := (tail.reverse.dropWhile (· ≠ '\n')).length
  if "static".toList.isPrefixOf cs && 0 < blanks &&
      "get".toList.isPrefixOf (afterStatic.drop blanks) && 0 < ending then
    6 + blanks + 3 + ending
  else 0

def staticModifier : Read src (Forest src) := do
  let n := staticGetLength (← get).rest
  if !(← hasTypes) && 0 < n then take n (.other "static get") false
  else modifier "static" .staticMark true

/-- A member so far: all that comes before its signature or its value. -/
structure Lead (src : List Char) where
  /-- The modifiers that methods and fields share, and those of methods. -/
  modifiers : Forest src
  ofMethod : Forest src
  key : Forest src

def memberLead : Read src (Lead src) := do
  if ← hasTypes then
    let access ← accessModifier
    let static ← staticModifier
    let override ← plainModifier "override"
    let readonly ← plainModifier "readonly"
    let method ← methodModifiers
    return ⟨access ++ static ++ override ++ readonly, method, ← propertyName⟩
  else
    let static ← staticModifier
    let method ← methodModifiers
    return ⟨static, method, ← propertyName⟩

def methodAfter (lead : Forest src) : Read src (Forest src) := do
  let question ← if ← hasTypes then optional "?" else pure []
  let signature ← callSignature true
  return group (.function .methodDefinition) (lead ++ question ++ signature ++ (← block))

/-! Classes -/

def fieldAfter (lead : Lead src) : Read src (Forest src) := do
  unless lead.ofMethod.isEmpty do failure
  if ← hasTypes then
    let mark ← if ← looking "!" then punctuation "!" else optional "?"
    let type ← perhapsType
    let value ← perhapsInitializer
    return group .publicFieldDefinition
      (lead.modifiers ++ under .name lead.key ++ mark ++ type ++ value)
  else
    let value ← perhapsInitializer
    return group .fieldDefinition (lead.modifiers ++ under .property lead.key ++ value)

def memberEnd (signature : Bool) : Read src (Forest src) := do
  if (← hasTypes) && (← looking ",") then punctuation ","
  else semicolonAfter false signature <|> semicolonAfter true signature

def staticBlock : Read src (Forest src) := do
  let static ← keyword "static"
  unless ← looking "\x7b" do failure
  return grouped "class_static_block" (static ++ (← block))

def plainMember : Read src (Forest src) := do
  let marks ← decorators
  let lead ← memberLead
  if ← looking "(" then
    let method ← methodAfter (marks ++ lead.modifiers ++ lead.ofMethod ++ under .name lead.key)
    return method ++ (← optional ";")
  else
    let field ← fieldAfter { lead with modifiers := marks ++ lead.modifiers }
    return field ++ (← memberEnd false)

def typedMethod (modifiers : Forest src) (lead : Lead src) : Read src (Forest src) := do
  let question ← optional "?"
  let signature ← callSignature true
  let nodes := modifiers ++ lead.modifiers ++ lead.ofMethod ++ under .name lead.key ++ question ++
    signature
  if ← looking "\x7b" then
    let method := group (.function .methodDefinition) (nodes ++ (← block))
    return method ++ (← perhaps semicolon)
  else return grouped "method_signature" nodes ++ (← memberEnd true)

def typedMember : Read src (Forest src) := do
  let declare ← plainModifier "declare"
  let access ← accessModifier
  let declare' ← if declare.isEmpty then plainModifier "declare" else pure []
  let abstract ← plainModifier "abstract"
  let accessor ← plainModifier "accessor"
  let lead ← memberLead
  let modifiers := declare ++ access ++ declare' ++ abstract ++ accessor
  let after := (← get).rest
  let afterQuestion := Cursor.pastBlanks (after.drop 1)
  if startsSignature after || after.head? = some '?' && startsSignature afterQuestion then
    typedMethod modifiers lead
  else
    let field ← fieldAfter { lead with modifiers := modifiers ++ lead.modifiers }
    return field ++ (← memberEnd false)

def classMember : Read src (Forest src) := do
  if ← looking ";" then punctuation ";"
  else if ← hasTypes then
    if ← looking "@" then decorator
    else staticBlock <|> (do return (← indexSignature) ++ (← memberEnd false)) <|> typedMember
  else staticBlock <|> plainMember

def classBody : Read src (Forest src) := do
  let opening ← punctuation "\x7b"
  let members ← inStatement (upTo (looking "\x7d") classMember)
  return group .classBody (opening ++ members ++ (← closeBlock))

def heritage : Read src (Forest src) := do
  let base ← if (← peekWord) = "extends" then do
      let sign ← keyword "extends"
      if ← hasTypes then
        let item := do
          let value ← enclosed (recur .operand)
          return value ++ (← if ← looking "<" then typeArguments else pure [])
        let first ← item
        let more ← upTo (return !(← looking ",")) do return (← punctuation ",") ++ (← item)
        pure (grouped "extends_clause" (sign ++ first ++ more))
      else
        pure (sign ++ (← enclosed (recur .expression)))
    else pure []
  let interfaces ← if (← hasTypes) && (← peekWord) = "implements" then do
      let implements ← keyword "implements"
      let first ← enclosed (recur .type)
      let more ← upTo (return !(← looking ",")) do
        return (← punctuation ",") ++ (← enclosed (recur .type))
      pure (grouped "implements_clause" (implements ++ first ++ more))
    else pure []
  return grouped "class_heritage" (base ++ interfaces)

/-- A class after its decorators and its modifiers. The name may be missing where `named` is false.
-/
def classAfter (kind : String) (named : Bool) (lead : Forest src) : Read src (Forest src) := do
  let word ← keyword "class"
  let w ← peekWord
  let isName := w ≠ "" && w ≠ "extends" && !((← hasTypes) && w = "implements")
  if named && !isName then failure
  let name ← if isName then
      perhapsName (if ← hasTypes then .other "type_identifier" else .identifier)
    else pure []
  let types ← perhapsTypeParameters
  let bases ← heritage
  return grouped kind (lead ++ word ++ name ++ types ++ bases ++ (← classBody))

end ParamLint.Syntax

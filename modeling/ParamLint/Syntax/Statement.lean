import ParamLint.Syntax.Markup

/-!
# Statements

Declarations, control flow and expressions in statement position. A statement that could be read in
two ways is read in the first way that goes through.
-/
namespace ParamLint.Syntax

variable {src : List Char}

/-! Declarations -/

def functionDeclaration : Read src (Forest src) := do
  let async ← perhapsAsync
  let function ← keyword "function"
  let star ← optional "*"
  let name ← under .name <$> binding
  let signature ← callSignature true
  let lead := async ++ function ++ star ++ name ++ signature
  if (← hasTypes) && !(← looking "\x7b") then
    return grouped "function_signature" (lead ++ (← semicolonAfter false true))
  else
    let kind : FunctionKind :=
      if star.isEmpty then .functionDeclaration else .generatorFunctionDeclaration
    return group (.function kind) (lead ++ (← block))

def looksAsyncFunction : Read src Bool := do
  let here ← get
  if (← peekWord) = "async" then
    let _ ← keyword "async"
    let follows := (← peekWord) = "function" && (← goesOn)
    set here
    return follows
  else return false

def classDeclaration (lead : Forest src) : Read src (Forest src) :=
  classAfter "class_declaration" true lead

def declarator : Read src (Forest src) := do
  let name ← if (← looking "\x7b") || (← looking "[") then destructuring true
    else if (← peekWord) = "export" then wordAs .identifier
    else binding
  let sure ← if (← hasTypes) && (← looking "!") then punctuation "!" else pure []
  let type ← perhapsType
  let value ← perhapsInitializer
  return group .variableDeclarator (under .name name ++ sure ++ type ++ value)

def declarators : Read src (Forest src) := do
  let first ← declarator
  let more ← upTo (return !(← looking ",")) do
    return (← punctuation ",") ++ (← declarator)
  return first ++ more

def declarationWords : Read src (Forest src) := do
  let w ← peekWord
  let after ← afterWord
  let declares := after.head?.any fun c => Lexeme.isWordStart c || c ∈ ['\x7b', '[', '\\']
  if w = "var" || w = "const" then keyword w
  else if w = "let" && declares then
    let here ← get
    let nodes ← keyword w
    let next ← peekWord
    if next = "in" || next = "instanceof" || next = "of" then
      let follows := (← afterWord).head?
      set here
      if follows = some '=' || follows = some ';' || follows = some ',' then keyword w else failure
    else return nodes
  else if w = "using" && declares && !(← hasTypes) then
    let nodes ← keyword w
    if (← goesOn) && !(← looking "[") && !(← looking "\x7b") then return nodes else failure
  else if w = "await" && !(← hasTypes) && "using".toList.isPrefixOf after then
    return (← keyword "await") ++ (← keyword "using")
  else failure

def variableDeclaration : Read src (Forest src) := do
  let words ← declarationWords
  let names ← declarators
  return grouped "lexical_declaration" (words ++ names ++ (← semicolon))

/-! Typed declarations -/

def enumMember : Read src (Forest src) := do
  let name ← propertyName
  return grouped "enum_assignment" (under .name name ++ (← perhapsInitializer))

def enumDeclaration : Read src (Forest src) := do
  let const ← if (← peekWord) = "const" then keyword "const" else pure []
  let enum ← keyword "enum"
  let name ← wordAs .identifier
  let opening ← punctuation "\x7b"
  let members ← enclosed (if ← looking "\x7d" then pure [] else listed "\x7d" enumMember)
  let closing ← punctuation "\x7d"
  return grouped "enum_declaration" (const ++ enum ++ name ++ opening ++ members ++ closing)

def interfaceDeclaration : Read src (Forest src) := do
  let word ← keyword "interface"
  let name ← wordAs (.other "type_identifier")
  let types ← perhapsTypeParameters
  let bases ← if (← peekWord) = "extends" then do
      let sign ← keyword "extends"
      let first ← enclosed (recur .type)
      let more ← upTo (return !(← looking ",")) do
        return (← punctuation ",") ++ (← enclosed (recur .type))
      pure (sign ++ first ++ more)
    else pure []
  let body ← objectType
  modify Cursor.withoutMarkup
  return grouped "interface_declaration" (word ++ name ++ types ++ bases ++ body)

def typeAlias : Read src (Forest src) := do
  let word ← keyword "type"
  let name ← wordAs (.other "type_identifier")
  let types ← perhapsTypeParameters
  let equals ← punctuation "="
  let type ← inStatement (recur .type)
  return grouped "type_alias_declaration"
    (word ++ name ++ types ++ equals ++ type ++ (← semicolonAfter false false))

def moduleDeclaration (word : String) : Read src (Forest src) := do
  let lead ← keyword word
  unless ← nameGoesOn do failure
  let name ← if ← isStringStart then
      if word = "module" then stringLiteral else failure
    else do memberNames (← wordAs .identifier)
  if ← looking "\x7b" then return grouped "internal_module" (lead ++ name ++ (← block))
  else if word = "module" then return grouped "module" (lead ++ name ++ (← semicolon))
  else failure

def importAlias : Read src (Forest src) := do
  let word ← keyword "import"
  let name ← wordAs .identifier
  let equals ← punctuation "="
  let target ← memberNames (← wordAs .identifier)
  return grouped "import_alias" (word ++ name ++ equals ++ target ++ (← semicolon))

def declaration : Read src (Forest src) := do
  let w ← peekWord
  let marks ← decorators
  unless marks.isEmpty do
    let abstract ← if (← peekWord) = "abstract" then keyword "abstract" else pure []
    return ← classDeclaration (marks ++ abstract)
  if w = "function" || (← looksAsyncFunction) then functionDeclaration
  else if w = "class" then classDeclaration []
  else if ← hasTypes then
    match w with
    | "const" => enumDeclaration <|> variableDeclaration
    | "abstract" => do
      let abstract ← keyword "abstract"
      unless ← goesOn do failure
      classDeclaration abstract
    | "enum" => enumDeclaration
    | "interface" => interfaceDeclaration
    | "type" => typeAlias
    | "namespace" => moduleDeclaration "namespace"
    | "module" => moduleDeclaration "module"
    | "import" => importAlias
    | "declare" => do
      let declare ← keyword "declare"
      unless ← goesOn do failure
      let inner ← if (← peekWord) = "global" then pure ((← keyword "global") ++ (← block))
        else recur .declaration
      return grouped "ambient_declaration" (declare ++ inner)
    | _ => variableDeclaration
  else variableDeclaration

/-! Control flow -/

def ifStatement : Read src (Forest src) := do
  let word ← keyword "if"
  let test ← parenthesized
  let yes ← recur .statement
  let no ← if (← peekWord) = "else" then
      pure (grouped "else_clause" ((← keyword "else") ++ (← recur .statement)))
    else pure []
  return grouped "if_statement" (word ++ test ++ yes ++ no)

/-- The word between what a loop binds and what it goes over comes next. -/
def relates : Read src Bool := return (← peekWord) = "in" || (← peekWord) = "of"

/-- The value a loop variable starts with. An `in` is an operator of the value only if another
relation is left to the loop. -/
def loopInitializer : Read src (Forest src) :=
  (do
    let value ← perhapsInitializer
    if ← relates then return value else failure)
  <|> (do
    let equals ← punctuation "="
    return equals ++ under .value (← recur (.binary 9)))

def overHeader : Read src (Forest src) :=
  enclosed do
    let opening ← punctuation "("
    let declared : Read src (Forest src) := do
      let w ← peekWord
      unless w = "var" || w = "let" || w = "const" || w = "using" || w = "await" do failure
      let words ← keyword w
      let more ← if w = "await" then keyword "using" else pure []
      let name ← if (← looking "\x7b") || (← looking "[") then destructuring true else binding
      let type ← perhapsType
      let value ← if w = "var" then loopInitializer else pure []
      if ← relates then return words ++ more ++ name ++ type ++ value else failure
    let place : Read src (Forest src) := do
      let nodes ← if ← looking "(" then parenthesized else recur (.pattern true)
      if ← relates then return nodes else failure
    let left ← declared <|> place
    let relation ← keyword (← peekWord)
    let right ← expressions
    return opening ++ left ++ relation ++ right ++ (← punctuation ")")

def countHeader : Read src (Forest src) := do
  let opening ← punctuation "("
  let start ← enclosed do
    if ← looking ";" then punctuation ";"
    else (do
        let words ← declarationWords
        let names ← declarators
        return grouped "lexical_declaration" (words ++ names ++ (← punctuation ";")))
      <|> (do return (← expressions) ++ (← punctuation ";"))
  enclosed do
    let test ← if ← looking ";" then pure [] else expressions
    let mark ← punctuation ";"
    let step ← if ← looking ")" then pure [] else expressions
    return opening ++ start ++ test ++ mark ++ step ++ (← punctuation ")")

def forStatement : Read src (Forest src) := do
  let word ← keyword "for"
  let await ← if (← peekWord) = "await" then keyword "await" else pure []
  let header ← if await.isEmpty then overHeader <|> countHeader else overHeader
  return grouped "for_statement" (word ++ await ++ header ++ (← recur .statement))

def whileStatement : Read src (Forest src) := do
  let word ← keyword "while"
  let test ← parenthesized
  return grouped "while_statement" (word ++ test ++ (← recur .statement))

def doStatement : Read src (Forest src) := do
  let word ← keyword "do"
  let body ← recur .statement
  let sign ← keyword "while"
  let test ← parenthesized
  return grouped "do_statement" (word ++ body ++ sign ++ test ++ (← perhaps semicolon))

def switchCase : Read src (Forest src) := do
  let lead ← if (← peekWord) = "case" then
      pure ((← keyword "case") ++ (← enclosed expressions))
    else keyword "default"
  let colon ← punctuation ":"
  let stops : Read src Bool := do
    let w ← peekWord
    return w = "case" || (w = "default" && (← afterWord).head? = some ':') || (← looking "\x7d")
  return grouped "switch_case" (lead ++ colon ++ (← upTo stops (recur .statement)))

def switchStatement : Read src (Forest src) := do
  let word ← keyword "switch"
  let subject ← parenthesized
  let opening ← punctuation "\x7b"
  let cases ← upTo (looking "\x7d") switchCase
  return grouped "switch_statement" (word ++ subject ++ opening ++ cases ++ (← punctuation "\x7d"))

def catchClause : Read src (Forest src) := do
  let word ← keyword "catch"
  let parameter ← if ← looking "(" then
      enclosed do
        let opening ← punctuation "("
        let name ← if (← looking "\x7b") || (← looking "[") then destructuring true else binding
        let type ← perhapsType
        return opening ++ under .parameter name ++ type ++ (← punctuation ")")
    else pure []
  return grouped "catch_clause" (word ++ parameter ++ (← block))

def tryStatement : Read src (Forest src) := do
  let word ← keyword "try"
  let body ← block
  let handler ← if (← peekWord) = "catch" then catchClause else pure []
  let finalizer ← if (← peekWord) = "finally" then
      pure (grouped "finally_clause" ((← keyword "finally") ++ (← block)))
    else pure []
  return grouped "try_statement" (word ++ body ++ handler ++ finalizer)

def withStatement : Read src (Forest src) := do
  let word ← keyword "with"
  let subject ← parenthesized
  return grouped "with_statement" (word ++ subject ++ (← recur .statement))

def jumpStatement (word : String) : Read src (Forest src) := do
  let lead ← keyword word
  let label ← if (← looking ";") || (← mayEnd false false) then pure []
    else bindingAs (.other "statement_identifier")
  return grouped (word ++ "_statement") (lead ++ label ++ (← semicolonAfter false false))

def returnStatement : Read src (Forest src) := do
  let word ← keyword "return"
  if (← looking ";") || (← mayEnd false false) then
    return grouped "return_statement" (word ++ (← semicolonAfter false false))
  else return grouped "return_statement" (word ++ (← expressions) ++ (← semicolon))

def throwStatement : Read src (Forest src) := do
  let word ← keyword "throw"
  return grouped "throw_statement" (word ++ (← expressions) ++ (← semicolon))

def debuggerStatement : Read src (Forest src) := do
  let word ← keyword "debugger"
  return grouped "debugger_statement" (word ++ (← semicolonAfter false false))

def labeledStatement : Read src (Forest src) := do
  let label ← bindingAs (.other "statement_identifier")
  let colon ← punctuation ":"
  return grouped "labeled_statement" (label ++ colon ++ (← recur .statement))

def expressionStatement : Read src (Forest src) := do
  return grouped "expression_statement" ((← expressions) ++ (← semicolon))

/-- A named function or class in statement position is a declaration, never an expression. -/
def looksDeclared : Read src Bool := do
  let here ← get
  let w ← peekWord
  if w = "class" then
    let _ ← keyword "class"
    let next ← peekWord
    set here
    return next ≠ "" && next ≠ "extends"
  else
    if w = "async" then let _ ← keyword "async"
    if (← peekWord) = "function" then
      let _ ← keyword "function"
      let _ ← optional "*"
      let next ← peekWord
      set here
      return next ≠ ""
    else
      set here
      return false

/-! Modules -/

def exportName : Read src (Forest src) := do
  if ← isStringStart then stringLiteral else wordAs .identifier

def specifier : Read src (Forest src) := do
  let renamed : Read src (Forest src) := do
    let name ← exportName
    let renamed ← if (← peekWord) = "as" then
        pure ((← keyword "as") ++ (← exportName))
      else pure []
    if (← looking ",") || (← looking "\x7d") then return grouped "specifier" (name ++ renamed)
    else failure
  if ← hasTypes then
    renamed <|> (do
      let w ← peekWord
      if w = "type" || w = "typeof" then return (← keyword w) ++ (← renamed) else failure)
  else renamed

def specifiers : Read src (Forest src) :=
  enclosed do
    let opening ← punctuation "\x7b"
    let items ← if ← looking "\x7d" then pure [] else listed "\x7d" specifier
    return grouped "named_specifiers" (opening ++ items ++ (← punctuation "\x7d"))

def fromSource : Read src (Forest src) := do
  let sign ← keyword "from"
  return sign ++ (← stringLiteral)

def importAttribute : Read src (Forest src) := do
  let w ← peekWord
  if w = "with" || w = "assert" then
    perhaps do
      let word ← keyword w
      return grouped "import_attribute" (word ++ (← objectLiteral))
  else return []

def namespaceImport : Read src (Forest src) := do
  let star ← punctuation "*"
  let sign ← keyword "as"
  return grouped "namespace_import" (star ++ sign ++ (← binding))

def importClause : Read src (Forest src) := do
  if ← looking "*" then namespaceImport
  else if ← looking "\x7b" then specifiers
  else
    let name ← binding
    if ← looking "," then
      let comma ← punctuation ","
      return name ++ comma ++ (← if ← looking "*" then namespaceImport else specifiers)
    else return name

def importRequire : Read src (Forest src) := do
  let name ← wordAs .identifier
  let equals ← punctuation "="
  let require ← keyword "require"
  let opening ← punctuation "("
  let source ← stringLiteral
  return name ++ equals ++ require ++ opening ++ source ++ (← punctuation ")")

def importStatement : Read src (Forest src) := do
  let word ← keyword "import"
  let plain : Read src (Forest src) := do
    if ← isStringStart then return (← stringLiteral) ++ (← importAttribute)
    else return (← importClause) ++ (← fromSource) ++ (← importAttribute)
  let body ← plain <|> (do
    typed
    let w ← peekWord
    if w = "type" || w = "typeof" then
      let mark ← keyword w
      return mark ++ (← (do return (← importClause) ++ (← fromSource) ++ (← importAttribute))
        <|> importRequire)
    else importRequire)
  return grouped "import_statement" (word ++ body ++ (← semicolon))

def exportDefault : Read src (Forest src) := do
  let default ← keyword "default"
  let value : Read src (Forest src) := do
    return under .value (← inStatement (recur .expression)) ++ (← semicolon)
  if ← looksDeclared then return default ++ (← recur .declaration)
  else if (← hasTypes) then return default ++ (← value <|> recur .declaration)
  else return default ++ (← value)

/-- Exports that name nothing of their own: of another module, or of what is declared elsewhere. -/
def exportNames : Read src (Forest src) := do
  if ← looking "*" then
    let star ← punctuation "*"
    let name ← if (← peekWord) = "as" then pure ((← keyword "as") ++ (← exportName)) else pure []
    return star ++ name ++ (← fromSource) ++ (← importAttribute) ++ (← semicolon)
  else
    let names ← specifiers
    let source ← if (← peekWord) = "from" then pure ((← fromSource) ++ (← importAttribute))
      else pure []
    return names ++ source ++ (← semicolon)

def typedExport : Read src (Forest src) := do
  typed
  if ← looking "=" then
    return (← punctuation "=") ++ (← inStatement (recur .expression)) ++ (← semicolon)
  else
    match ← peekWord with
    | "as" => do
      let lead ← pure ((← keyword "as") ++ (← keyword "namespace"))
      return lead ++ (← wordAs .identifier) ++ (← semicolon)
    | "type" => do return (← keyword "type") ++ (← exportNames)
    | _ => failure

def exportStatement : Read src (Forest src) := do
  let marks ← decorators
  let word ← keyword "export"
  let body ← if (← looking "*") || (← looking "\x7b") then exportNames
    else if (← peekWord) = "default" then exportDefault
    else typedExport <|> recur .declaration
  return grouped "export_statement" (marks ++ word ++ body)

/-! Statements -/

/-- A brace in statement position: a block, unless what it holds is an object. -/
def braceStatement : Read src (Forest src) := do
  if startsPair (← get).rest then expressionStatement <|> block
  else block <|> expressionStatement

def wordStatement : Read src (Forest src) := do
  let w ← peekWord
  let after ← afterWord
  match w with
  | "if" => ifStatement
  | "for" => forStatement
  | "while" => whileStatement
  | "do" => doStatement
  | "switch" => switchStatement
  | "try" => tryStatement
  | "with" => withStatement
  | "break" | "continue" => jumpStatement w
  | "return" => returnStatement
  | "throw" => throwStatement
  | "debugger" => debuggerStatement
  | "export" => exportStatement <|> expressionStatement
  | "import" =>
    if after.head? = some '(' || after.head? = some '.' then expressionStatement
    else importStatement <|> recur .declaration
  | "var" | "const" => recur .declaration
  | _ =>
    if ← looksDeclared then recur .declaration
    else if after.head? = some ':' then labeledStatement
    else if w = "function" || w = "class" then expressionStatement
    else recur .declaration <|> expressionStatement

def statement : Read src (Forest src) :=
  inStatement do
    match (← get).rest with
    | '\x7b' :: _ => braceStatement
    | ';' :: _ => return grouped "empty_statement" (← punctuation ";")
    | '@' :: _ => exportStatement <|> recur .declaration <|> expressionStatement
    | _ => if (← peekWord) = "" then expressionStatement else wordStatement

end ParamLint.Syntax

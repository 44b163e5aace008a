import ParamLint.Syntax.Lexeme
import ParamLint.Syntax.Semicolon

/-!
# Reading syntax

The state of reading is a cursor, and reading may fail. Readers of one syntactic category reach
every other category through their surroundings, with less fuel, so that each of them is an ordinary
definition. What is read is a list of trees: the comments in front and the tree after them.
-/
namespace ParamLint.Syntax

variable {src : List Char}

structure Mode where
  /-- It ends a statement, so a line break may end it. -/
  inStatement : Bool
  /-- Arrow functions in it may have a return type. -/
  returnTypes : Bool

inductive Category
  | statement
  | declaration
  | expression
  | binary (level : Nat)
  | unary
  /-- A primary expression with what is appended to it. -/
  | operand
  /-- What is made by `new`: an operand without calls. -/
  | constructed
  | pattern (certain : Bool)
  | type
  | typeOperand
  | markup
deriving DecidableEq

structure Surroundings (src : List Char) where
  dialect : Dialect
  mode : Mode
  fuel : Nat
  sub : Mode → Category → Cursor src → Option (Forest src × Cursor src)

abbrev Read (src : List Char) := ReaderT (Surroundings src) (StateT (Cursor src) Option)

/-! Categories and modes -/

def recur (c : Category) : Read src (Forest src) := fun s cursor => s.sub s.mode c cursor

def withMode {α : Type} (m : Mode) (p : Read src α) : Read src α := fun s => p { s with mode := m }

/-- Between brackets: no line break ends anything. -/
def enclosed {α : Type} (p : Read src α) : Read src α := withMode ⟨false, true⟩ p

def inStatement {α : Type} (p : Read src α) : Read src α := withMode ⟨true, true⟩ p

def hasTypes : Read src Bool := return (← read).dialect.hasTypes

def typed : Read src Unit := do
  unless ← hasTypes do failure

/-! Tokens -/

def looking (s : String) : Read src Bool := return s.toList.isPrefixOf (← get).rest

def take (n : Nat) (kind : Kind) (isNamed : Bool) : Read src (Forest src) := do
  let (nodes, c) := (← get).token n kind isNamed
  set c
  return nodes

def punctuation (s : String) : Read src (Forest src) := do
  if ← looking s then take s.length (.other s) false else failure

/-- The punctuation if it comes next, nothing otherwise. -/
def optional (s : String) : Read src (Forest src) := do
  if ← looking s then punctuation s else return []

def peekWord : Read src String := return String.ofList (Lexeme.word (← get).rest)

def keyword (s : String) : Read src (Forest src) := do
  if (← peekWord) = s then take s.length (.other s) false else failure

def wordAs (kind : Kind) : Read src (Forest src) := do
  let n := Lexeme.wordLength (← get).rest
  if n = 0 then failure else take n kind true

def afterWord : Read src (List Char) := do
  let c ← get
  let n := Lexeme.wordLength c.rest
  return Cursor.pastBlanks (c.rest.drop n)

/-- Words that name nothing where the dialect has no types. -/
def reservedWords : List String :=
  ["break", "case", "catch", "class", "const", "continue", "debugger", "default", "delete", "do",
   "else", "export", "extends", "false", "finally", "for", "function", "if", "import", "in",
   "instanceof", "new", "null", "return", "super", "switch", "this", "throw", "true", "try",
   "typeof", "var", "void", "while", "with"]

def isReserved (w : String) : Read src Bool :=
  return !(← hasTypes) && w ∈ reservedWords

def bindingAs (kind : Kind) : Read src (Forest src) := do
  if ← isReserved (← peekWord) then failure else wordAs kind

def binding : Read src (Forest src) := bindingAs .identifier

/-! Nodes -/

def isComment (n : Node) : Bool := n.kind = .comment || n.kind = Cursor.markupComment

/-- One node over the given ones; comments in front of them stay in front. -/
def group (kind : Kind) (nodes : Forest src) : Forest src :=
  let (comments, body) := nodes.span fun t => isComment t.node
  match body.head?, body.getLast? with
  | some first, some last => comments ++ [.spanning kind first last body]
  | _, _ => nodes

def grouped (name : String) (nodes : Forest src) : Forest src := group (.other name) nodes

/-- Changes what is no comment. -/
def mapNodes (f : Tree src → Tree src) (nodes : Forest src) : Forest src :=
  nodes.map fun t => if isComment t.node then t else f t

def under (f : Field) (nodes : Forest src) : Forest src := mapNodes (·.under f) nodes

def markAt (s : String) (p : Position src) : Tree src := .token (.other s) false p (p.advance 1)

def kindOf? (nodes : Forest src) : Option Kind := nodes.getLast?.map (·.node.kind)

/-! Repetition -/

def loopFrom {α : Type} (step : α → Read src (Option α)) : Nat → α → Read src α
  | 0, a => return a
  | n + 1, a => do
    match ← step a with
    | some b => loopFrom step n b
    | none => return a

/-- Steps on until a step gives nothing; such a step must not have read anything. -/
def loop {α : Type} (step : α → Read src (Option α)) (a : α) : Read src α := do
  loopFrom step (← read).fuel a

def upTo (stop : Read src Bool) (item : Read src (Forest src)) : Read src (Forest src) :=
  loop (fun nodes => do
    if ← stop then return none else return some (nodes ++ (← item))) []

/-- Items between commas up to `close`, of which any may be missing. -/
def sparse (close : String) (item : Read src (Forest src)) : Read src (Forest src) :=
  upTo (looking close) do
    if ← looking "," then punctuation ","
    else
      let nodes ← item
      if (← looking ",") || (← looking close) then return nodes else failure

/-- At least one item, commas between them and perhaps one at the end, up to `close`. -/
def listed (close : String) (item : Read src (Forest src)) : Read src (Forest src) := do
  let first ← item
  let rest ← upTo (looking close) do
    let comma ← punctuation ","
    if ← looking close then return comma else return comma ++ (← item)
  return first ++ rest

def perhaps (item : Read src (Forest src)) : Read src (Forest src) := item <|> return []

/-! Line ends -/

/-- A statement may end here without a semicolon. `operand` says that an expression has just ended,
`signature` that a function body could follow. -/
def mayEnd (operand signature : Bool) : Read src Bool := do
  let c ← get
  return Semicolon.mayOmit (← read).dialect operand signature c.comments.length c.behind.rest

def semicolonAfter (operand signature : Bool) : Read src (Forest src) := do
  if ← looking ";" then punctuation ";"
  else if ← mayEnd operand signature then
    modify Cursor.withMarkup
    return []
  else failure

/-- The end of a statement whose last part is an expression. -/
def semicolon : Read src (Forest src) := semicolonAfter true false

def goesOn : Read src Bool :=
  return !((← read).mode.inStatement && (← mayEnd true false))

def nameGoesOn : Read src Bool :=
  return !((← read).mode.inStatement && (← mayEnd false false))

/-- After a closing brace that may end a statement a markup comment is none, unless the statement
does end. -/
def closeBlock : Read src (Forest src) := do
  let nodes ← punctuation "\x7d"
  modify Cursor.withoutMarkup
  if ← mayEnd false false then modify Cursor.withMarkup
  return nodes

/-! Literals -/

def isStringStart : Read src Bool := return (← looking "\"") || (← looking "'")

def jump (p : Position src) : Read src Unit := set (Cursor.mk p [] p)

def stringLiteral : Read src (Forest src) := do
  let c ← get
  match c.rest with
  | quote :: rest =>
    if quote = '"' ∨ quote = '\'' then
      let mark := markAt (String.singleton quote)
      match Lexeme.stringInside quote (rest.length + 1) (c.next.advance 1) with
      | some inside =>
        set (Cursor.after true (inside.stop.advance 1))
        return group .string
          (c.comments ++ [mark c.next] ++ inside.trees ++ [mark inside.stop])
      | none => failure
    else failure
  | [] => failure

def numberLiteral : Read src (Forest src) := do
  let n := Lexeme.numberLength (← get).rest
  if n = 0 then failure else take n .number true

def privateName : Read src (Forest src) := do
  match (← get).rest with
  | '#' :: rest =>
    let n := Lexeme.wordLength rest
    if n = 0 then failure else take (n + 1) .privatePropertyIdentifier true
  | _ => failure

def propertyName : Read src (Forest src) := do
  match (← get).rest with
  | '[' :: _ =>
    enclosed do
      let opening ← punctuation "["
      let key ← recur .expression
      let closing ← punctuation "]"
      return group .computedPropertyName (opening ++ key ++ closing)
  | '"' :: _ | '\'' :: _ => stringLiteral
  | '#' :: _ => privateName
  | c :: _ =>
    if c.isDigit || c = '.' then numberLiteral else wordAs .propertyIdentifier
  | [] => failure

/-- The source could begin with the key of a member. -/
def startsKey (cs : List Char) : Bool :=
  match cs with
  | c :: rest =>
    Lexeme.isWordStart c || c.isDigit || c ∈ ['[', '"', '\'', '#', '\\'] ||
      c = '.' && rest.head?.any Char.isDigit
  | [] => false

/-- The word `s` as a modifier: what follows is the key it modifies, or a star where one may come.
Where a statement may end after the word it is a key itself. -/
def modifier (s : String) (kind : Kind) (star : Bool) : Read src (Forest src) := do
  if (← peekWord) = s then
    let rest ← afterWord
    if startsKey rest || star && rest.head? = some '*' then
      let before ← get
      let nodes ← take s.length kind false
      if ← nameGoesOn then return nodes
      else
        set before
        return []
    else return []
  else return []

def template (kind : String) (inner : Read src (Forest src)) : Read src (Forest src) := do
  let c ← get
  unless c.rest.head? = some '`' do failure
  let mark := markAt "`"
  jump (c.next.advance 1)
  let parts ← loop (fun nodes => do
    let here ← get
    match here.rest with
    | [] => failure
    | '`' :: _ => return none
    | '\\' :: _ =>
      let n := Lexeme.escapeLength here.rest
      if n = 0 then failure
      jump (here.next.advance n)
      return some nodes
    | '$' :: '\x7b' :: _ =>
      let opening ← punctuation "$\x7b"
      let body ← enclosed inner
      let behind ← get
      match behind.rest with
      | '\x7d' :: _ =>
        let closing := markAt "\x7d" behind.next
        jump (behind.next.advance 1)
        return some (nodes ++
          grouped "template_substitution" (opening ++ body ++ behind.comments ++ [closing]))
      | _ => failure
    | _ =>
      let n := Lexeme.templateText here.rest
      if n = 0 then failure
      jump (here.next.advance n)
      return some nodes) []
  let last ← get
  set (Cursor.after true (last.next.advance 1))
  return grouped kind (c.comments ++ [mark c.next] ++ parts ++ [mark last.next])

end ParamLint.Syntax

import ParamLint.CommandLine.Token
import ParamLint.CommandLine.Usage
import ParamLint.Json.Value
import ParamLint.Path.Basic
import ParamLint.Text.Quoted

/-!
# Arguments

The arguments of the one command, read from the tokens of its command line. Options may stand before
and after the paths; the paths are one run of words, and what is left over is an error of the
program.
-/
namespace ParamLint.CommandLine

inductive Format
  | text
  | json
deriving DecidableEq, Inhabited

def Format.name : Format → String
  | text => "text"
  | json => "json"

structure Arguments where
  paths : List Text := [[Path.dot]]
  config : Option Path := none
  functions : Option (List Text) := none
  methods : Option (List Text) := none
  files : Option (List Text) := none
  constructors : Option Bool := none
  singleParam : Option Bool := none
  noParams : Option Bool := none
  testFiles : Option Bool := none
  root : Option Path := none
  changedSince : Option Text := none
  format : Format := .text
  debug : Bool := false
deriving DecidableEq

inductive Exit
  | help (scope : Scope)
  | error (scope : Scope) (message : Text)
  /-- An option was given two dashes for its value. -/
  | noValue
deriving DecidableEq

def failed {α : Type} (scope : Scope) (message : Text) : Except Exit α :=
  .error (.error scope message)

def argumentMessage (title : String) (message : Text) : Text :=
  Text.ofString s!"argument {title}: " ++ message

def ignoredValue {α : Type} (scope : Scope) (a : Action) (value : Text) : Except Exit α :=
  failed scope
    (argumentMessage a.title (Text.ofString "ignored explicit argument " ++ Quoted.quote value))

def invalidChoice {α : Type} (scope : Scope) (title : String) (value : Text)
    (choices : List String) : Except Exit α :=
  let listed := Text.join (Text.ofString ", ") (choices.map (Quoted.quote ∘ Text.ofString))
  failed scope
    (argumentMessage title
      (Text.ofString "invalid choice: " ++ Quoted.quote value ++ Text.ofString " (choose from " ++
        listed ++ Text.ofString ")"))

/-- The tokens of one level, or the error that one of them is. -/
def scopeTokens (scope : Scope) (known : List Switch) (arguments : List Text) :
    Except Exit (List Token) :=
  match tokens known arguments with
  | .ok found => .ok found
  | .error a =>
    failed scope
      (Text.ofString "ambiguous option: " ++ a.option ++ Text.ofString " could match " ++
        Text.join (Text.ofString ", ") (a.candidates.map Text.ofString))

/-- The help of a level. Its short name may be repeated after one dash, and then the help is meant
all the same; anything else after it is no value. -/
def askHelp {α : Type} (scope : Scope) (isShort : Bool) : Option Text → Except Exit α
  | none => .error (.help scope)
  | some [] => ignoredValue scope .help []
  | some (p :: rest) =>
    if isShort && p = .scalar 'h' then
      match rest with
      | [] => .error (.help scope)
      | q :: more => askHelp scope isShort (some (q :: more))
    else ignoredValue scope .help (p :: rest)

def Arguments.withValue (args : Arguments) (a : Action) (value : Text) : Except Exit Arguments :=
  let extended (found : Option (List Text)) : Option (List Text) := some (found.getD [] ++ [value])
  if value = dashesText then .error .noValue
  else
    match a with
    | .config => .ok { args with config := some (Path.ofText value) }
    | .function => .ok { args with functions := extended args.functions }
    | .method => .ok { args with methods := extended args.methods }
    | .file => .ok { args with files := extended args.files }
    | .root => .ok { args with root := some (Path.ofText value) }
    | .changedSince => .ok { args with changedSince := some value }
    | .format =>
      if value = Text.ofString "text" then .ok { args with format := .text }
      else if value = Text.ofString "json" then .ok { args with format := .json }
      else invalidChoice .check a.title value ["text", "json"]
    | _ => .ok args

/-- The effect of an option without a value; none if it needs one. -/
def Arguments.withFlag? (args : Arguments) (s : Switch) : Option Arguments :=
  let on := !"--no-".isPrefixOf s.name
  match s.action with
  | .constructors => some { args with constructors := some on }
  | .singleParam => some { args with singleParam := some on }
  | .noParams => some { args with noParams := some on }
  | .testFiles => some { args with testFiles := some on }
  | .debug => some { args with debug := true }
  | _ => none

structure Reading where
  arguments : Arguments := {}
  hasPaths : Bool := false
  leftOver : List Text := []

/-- Words between options: the paths if there are none yet. Of the words the first `--` is left
out. -/
def Reading.words (r : Reading) (found : List Text) : Reading :=
  if r.hasPaths then { r with leftOver := r.leftOver ++ found }
  else
    match found.erase dashesText with
    | [] => { r with hasPaths := true }
    | paths => { r with hasPaths := true, arguments := { r.arguments with paths } }

def isWord : Token → Bool
  | .word _ | .dashes => true
  | _ => false

def readTokens (r : Reading) : (fuel : Nat) → List Token → Except Exit Reading
  | 0, _ => .ok r
  | _, [] => .ok r
  | fuel + 1, .unknown t :: rest =>
    readTokens { r with leftOver := r.leftOver ++ [t] } fuel rest
  | fuel + 1, .option s value :: rest =>
    if s.action = .help then askHelp .check (s.name = "-h") value
    else
      match r.arguments.withFlag? s, value with
      | some arguments, none => readTokens { r with arguments } fuel rest
      | some _, some value => ignoredValue .check s.action value
      | none, some value => do
        let arguments ← r.arguments.withValue s.action value
        readTokens { r with arguments } fuel rest
      | none, none =>
        match rest with
        | .word value :: rest => do
          let arguments ← r.arguments.withValue s.action value
          readTokens { r with arguments } fuel rest
        | _ =>
          failed .check (argumentMessage s.action.title (Text.ofString "expected one argument"))
  | fuel + 1, found@(.word _ :: _) | fuel + 1, found@(.dashes :: _) =>
    let (run, rest) := found.span isWord
    readTokens (r.words (run.map Token.text)) fuel rest

/-- The arguments of the command, and what is left over. -/
def readCheck (arguments : List Text) : Except Exit (Arguments × List Text) := do
  let found ← scopeTokens .check (switches Action.ofCheck) arguments
  let r ← readTokens {} (found.length + 1) found
  return (r.arguments, r.leftOver)

def commandTitle : String := "\x7bcheck\x7d"

/-- The command in the arguments after some that were left over. -/
def readCommand (leftOver : List Text) : List Text → Except Exit (Arguments × List Text)
  | [] =>
    failed .program (Text.ofString s!"the following arguments are required: {commandTitle}")
  | command :: rest =>
    if command = Text.ofString "check" then do
      let (arguments, more) ← readCheck rest
      return (arguments, leftOver ++ more)
    else invalidChoice .program commandTitle command ["check"]

/-- Reads the tokens of the program up to its command; all that comes after it is the command's. -/
def readProgram (leftOver : List Text) :
    List Token → List Text → Except Exit (Arguments × List Text)
  | .option s value :: _, _ => askHelp .program (s.name = "-h") value
  | .unknown t :: rest, _ :: arguments => readProgram (leftOver ++ [t]) rest arguments
  | [.dashes], _ => readCommand leftOver []
  | _, arguments => readCommand leftOver arguments

def parse (arguments : List Text) : Except Exit Arguments := do
  let found ← scopeTokens .program (switches [.help]) arguments
  match ← readProgram [] found arguments with
  | (args, []) => return args
  | (_, leftOver) =>
    failed .program
      (Text.ofString "unrecognized arguments: " ++ Text.join (Text.ofString " ") leftOver)

/-! Overrides -/

def listValue (names : Option (List Text)) : Json :=
  match names with
  | some names => .array (names.map .string)
  | none => .null

def flagValue (flag : Option Bool) : Json :=
  match flag with
  | some b => .bool b
  | none => .null

/-- The options that the arguments lay over a configuration file. -/
def Arguments.overrides (args : Arguments) : List (Text × Json) :=
  [(Text.ofString "ignoreFunctions", listValue args.functions),
   (Text.ofString "ignoreMethods", listValue args.methods),
   (Text.ofString "ignoreFiles", listValue args.files),
   (Text.ofString "ignoreConstructors", flagValue args.constructors),
   (Text.ofString "ignoreSingleParam", flagValue args.singleParam),
   (Text.ofString "ignoreNoParams", flagValue args.noParams),
   (Text.ofString "ignoreTestFiles", flagValue args.testFiles)]

end ParamLint.CommandLine

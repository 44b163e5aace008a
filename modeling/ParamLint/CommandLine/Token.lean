import ParamLint.Text.CodePoint
import ParamLint.Text.Digit

/-!
# Tokens of a command line

An argument is an option, a plain word, or the two dashes after which all are words. An option may
be cut short as long as one name begins with it, and may carry its value after an equals sign.
-/
namespace ParamLint.CommandLine

inductive Action
  | help
  | config
  | function
  | method
  | file
  | constructors
  | singleParam
  | noParams
  | testFiles
  | root
  | changedSince
  | format
  | debug
deriving DecidableEq

namespace Action

def names : Action → List String
  | help => ["-h", "--help"]
  | config => ["--config"]
  | function => ["--ignore-function"]
  | method => ["--ignore-method"]
  | file => ["--ignore-file"]
  | constructors => ["--ignore-constructors", "--no-ignore-constructors"]
  | singleParam => ["--ignore-single-param", "--no-ignore-single-param"]
  | noParams => ["--ignore-no-params", "--no-ignore-no-params"]
  | testFiles => ["--ignore-test-files", "--no-ignore-test-files"]
  | root => ["--root"]
  | changedSince => ["--changed-since"]
  | format => ["--format"]
  | debug => ["--debug"]

def title (a : Action) : String := "/".intercalate a.names

def ofCheck : List Action :=
  [help, config, function, method, file, constructors, singleParam, noParams, testFiles, root,
   changedSince, format, debug]

end Action

structure Switch where
  name : String
  action : Action
deriving DecidableEq

def switches (actions : List Action) : List Switch :=
  actions.flatMap fun a => a.names.map (⟨·, a⟩)

inductive Token
  | word (t : Text)
  /-- The first `--`. -/
  | dashes
  | option (switch : Switch) (value : Option Text)
  | unknown (t : Text)
deriving DecidableEq

def dash : CodePoint := .scalar '-'

def dashesText : Text := [dash, dash]

/-- The argument as it was written, where it is left over. -/
def Token.text : Token → Text
  | word t | unknown t => t
  | dashes => dashesText
  | option s _ => Text.ofString s.name

structure Ambiguity where
  option : Text
  candidates : List String

def splitEquals (t : Text) : Text × Option Text :=
  match t.span (· ≠ .scalar '=') with
  | (before, []) => (before, none)
  | (before, _ :: after) => (before, some after)

/-- The switches that an option could mean, each with the value it would carry. A single dash and a
letter may be followed by the value. -/
def candidates (known : List Switch) (t : Text) : List (Switch × Option Text) :=
  if t.take 2 = dashesText then
    let (begun, value) := splitEquals t
    (known.filter fun s => begun.isPrefixOf (Text.ofString s.name)).map (·, value)
  else
    known.filterMap fun s =>
      if Text.ofString s.name = t.take 2 then some (s, some (t.drop 2))
      else if t.isPrefixOf (Text.ofString s.name) then some (s, none)
      else none

def isDecimal : CodePoint → Bool
  | .scalar c => (Digit.decimal? c).isSome
  | .surrogate _ => false

/-- A number below zero, which is no option. A line feed at its end does not count. -/
def isNegative (t : Text) : Bool :=
  let t := if t.getLast? = some (.scalar '\n') then t.dropLast else t
  match t with
  | p :: rest =>
    let (whole, more) := rest.span isDecimal
    p = dash &&
      match more with
      | [] => !whole.isEmpty
      | q :: fraction => q = .scalar '.' && !fraction.isEmpty && fraction.all isDecimal
  | [] => false

def named? (known : List Switch) (t : Text) : Option Switch :=
  known.find? fun s => Text.ofString s.name = t

def classify (known : List Switch) (t : Text) : Except Ambiguity Token :=
  if t.head? ≠ some dash then .ok (.word t)
  else
    match named? known t with
    | some s => .ok (.option s none)
    | none =>
      if t.length = 1 then .ok (.word t)
      else
        match splitEquals t with
        | (name, some value) =>
          match named? known name with
          | some s => .ok (.option s (some value))
          | none => inexact
        | _ => inexact
where
  inexact : Except Ambiguity Token :=
    match candidates known t with
    | [(s, value)] => .ok (.option s value)
    | [] =>
      if isNegative t || t.any (· = .scalar ' ') then .ok (.word t) else .ok (.unknown t)
    | several => .error ⟨t, several.map (·.1.name)⟩

def tokens (known : List Switch) : List Text → Except Ambiguity (List Token)
  | [] => .ok []
  | t :: rest =>
    if t = dashesText then .ok (.dashes :: rest.map .word)
    else do
      let first ← classify known t
      return first :: (← tokens known rest)

end ParamLint.CommandLine

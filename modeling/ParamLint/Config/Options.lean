import ParamLint.Json.Value
import ParamLint.Rule.Configuration

/-!
# Options

The settings a user may write, under two spellings of each name, checked strictly: lists hold
strings, flags are booleans, and no other key is accepted. All problems are reported, those of the
known settings first.

The checks, their order and the texts of the problems restate what a strict model of pydantic does
with its input, which is taken as given.
-/
namespace ParamLint

inductive Setting
  | functions
  | methods
  | constructors
  | singleParam
  | noParams
  | testFiles
  | files
deriving DecidableEq

namespace Setting

/-- In the order in which they are checked. -/
def all : List Setting :=
  [functions, methods, constructors, singleParam, noParams, testFiles, files]

def camelName : Setting → String
  | functions => "ignoreFunctions"
  | methods => "ignoreMethods"
  | constructors => "ignoreConstructors"
  | singleParam => "ignoreSingleParam"
  | noParams => "ignoreNoParams"
  | testFiles => "ignoreTestFiles"
  | files => "ignoreFiles"

def snakeName : Setting → String
  | functions => "ignore_functions"
  | methods => "ignore_methods"
  | constructors => "ignore_constructors"
  | singleParam => "ignore_single_param"
  | noParams => "ignore_no_params"
  | testFiles => "ignore_test_files"
  | files => "ignore_files"

def camelKey (s : Setting) : Text := Text.ofString s.camelName

def snakeKey (s : Setting) : Text := Text.ofString s.snakeName

/-- The key under which a setting is given, and its value. The camel-case key comes first. -/
def given? (raw : List (Text × Json)) (s : Setting) : Option (Text × Json) :=
  match raw.lookup s.camelKey with
  | some v => some (s.camelKey, v)
  | none => (raw.lookup s.snakeKey).map (s.snakeKey, ·)

end Setting

inductive OptionProblem
  | notList (key : Text)
  | notString (key : Text) (index : Nat)
  | notBoolean (key : Text)
  | unknownKey (key : Text)
deriving DecidableEq

namespace OptionProblem

/-- Where the problem is; the empty key is called `options`. -/
def location : OptionProblem → Text
  | notString key index => key ++ Text.ofString s!".{index}"
  | notList key | notBoolean key | unknownKey key =>
    if key.isEmpty then Text.ofString "options" else key

def reason : OptionProblem → String
  | notList _ => "Input should be a valid list"
  | notString _ _ => "Input should be a valid string"
  | notBoolean _ => "Input should be a valid boolean"
  | unknownKey _ => "Extra inputs are not permitted"

def message (p : OptionProblem) : Text := p.location ++ Text.ofString s!": {p.reason}"

end OptionProblem

namespace Options

def isString : Json → Bool
  | .string _ => true
  | _ => false

def strings (items : List Json) : List Text :=
  items.filterMap fun
    | .string t => some t
    | _ => none

def itemProblems (key : Text) (index : Nat) : List Json → List OptionProblem
  | [] => []
  | v :: rest =>
    (if isString v then [] else [.notString key index]) ++ itemProblems key (index + 1) rest

def listProblems (key : Text) : Json → List OptionProblem
  | .array items => itemProblems key 0 items
  | _ => [.notList key]

def flagProblems (key : Text) : Json → List OptionProblem
  | .bool _ => []
  | _ => [.notBoolean key]

def problemsOf (raw : List (Text × Json)) (s : Setting) : List OptionProblem :=
  match s.given? raw with
  | none => []
  | some (key, value) =>
    match s with
    | .functions | .methods | .files => listProblems key value
    | .constructors | .singleParam | .noParams | .testFiles => flagProblems key value

def usedKeys (raw : List (Text × Json)) : List Text :=
  Setting.all.filterMap fun s => (s.given? raw).map (·.1)

def problems (raw : List (Text × Json)) : List OptionProblem :=
  Setting.all.flatMap (problemsOf raw) ++
    ((raw.map (·.1)).filter (· ∉ usedKeys raw)).map .unknownKey

def listOr (raw : List (Text × Json)) (s : Setting) : List Text :=
  match s.given? raw with
  | some (_, .array items) => strings items
  | _ => []

def flagOr (raw : List (Text × Json)) (s : Setting) (default : Bool) : Bool :=
  match s.given? raw with
  | some (_, .bool b) => b
  | _ => default

/-- The configuration that an object of options stands for, or everything that is wrong with it. -/
def parse (raw : List (Text × Json)) : Except (List OptionProblem) Configuration :=
  match problems raw with
  | [] =>
    .ok
      { functionNames := listOr raw .functions
        methodNames := listOr raw .methods
        constructors := flagOr raw .constructors true
        singleParam := flagOr raw .singleParam true
        noParams := flagOr raw .noParams true
        testFiles := flagOr raw .testFiles true
        filePatterns := listOr raw .files }
  | found => .error found

/-- Lays an override over what is there: null changes nothing, a list extends a list, anything else
replaces. -/
def override (raw : List (Text × Json)) (key : Text) (value : Json) : List (Text × Json) :=
  match value, raw.lookup key with
  | .null, _ => raw
  | .array more, some (.array items) => Entries.put key (.array (items ++ more)) raw
  | value, _ => Entries.put key value raw

def merge (raw overrides : List (Text × Json)) : List (Text × Json) :=
  overrides.foldl (fun raw (key, value) => override raw key value) raw

end Options

end ParamLint

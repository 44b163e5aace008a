import ParamLint.Config.Options
import ParamLint.Files.Tree
import ParamLint.Json.Reader
import ParamLint.Path.Encoding
import ParamLint.Text.Lines
import ParamLint.Text.Utf8

/-!
# Configuration files

A file of options is a JSON object in UTF-8. Overrides are laid over it before the options are
checked.
-/
namespace ParamLint

inductive ConfigError
  | unnamable (fault : Path.Fault)
  | unreadable (path : Text) (error : OpenError)
  | undecodable (fault : Utf8.Fault)
  | malformed (path : Text) (problem : Json.Problem) (line : Nat)
  /-- A number with more digits than are read. -/
  | numberTooLong (digits : Nat)
  | notObject (path : Text)
  | invalid (problems : List OptionProblem)

namespace ConfigError

def message : ConfigError → Text
  | unnamable fault => Text.ofString fault.message
  | unreadable path error =>
    Text.ofString "Cannot read config file " ++ path ++ Text.ofString s!": {error.reason}"
  | undecodable fault => Text.ofString fault.message
  | malformed path problem line =>
    Text.ofString "Config file " ++ path ++
      Text.ofString s!" is not valid JSON: {problem.message} (line {line})"
  | numberTooLong digits => Text.ofString (Json.Problem.integerTooLong digits).message
  | notObject path =>
    Text.ofString "Config file " ++ path ++ Text.ofString " must contain a JSON object"
  | invalid problems =>
    Text.ofString "Invalid options: " ++
      Text.join (Text.ofString "; ") (problems.map (·.message))

end ConfigError

namespace Configuration

/-- The options in the text of a file, which the errors call `path`. -/
def optionsOfText (path : Text) (cs : List Char) : Except ConfigError (List (Text × Json)) :=
  match Json.parse cs with
  | .error ⟨.integerTooLong digits, _⟩ => .error (.numberTooLong digits)
  | .error fault => .error (.malformed path fault.problem (fault.line cs))
  | .ok (.object members) => .ok members
  | .ok _ => .error (.notObject path)

/-- The options in the bytes of a file. All line ends are line feeds. -/
def optionsOfBytes (path : Text) (bytes : List UInt8) : Except ConfigError (List (Text × Json)) :=
  match Utf8.decode bytes with
  | .error fault => .error (.undecodable fault)
  | .ok cs => optionsOfText path (Lines.unify cs)

def optionsOfFile (top : FileTree) (here : Place) (p : Path) :
    Except ConfigError (List (Text × Json)) :=
  match Path.fault? p.toText with
  | some fault => .error (.unnamable fault)
  | none =>
    match top.openPath here p with
    | .error error => .error (.unreadable p.toText error)
    | .ok bytes => optionsOfBytes p.toText bytes

def ofOptions (raw overrides : List (Text × Json)) : Except ConfigError Configuration :=
  (Options.parse (Options.merge raw overrides)).mapError .invalid

def load (top : FileTree) (here : Place) (file : Option Path) (overrides : List (Text × Json)) :
    Except ConfigError Configuration :=
  match file with
  | none => ofOptions [] overrides
  | some p =>
    match optionsOfFile top here p with
    | .error e => .error e
    | .ok raw => ofOptions raw overrides

end Configuration

end ParamLint

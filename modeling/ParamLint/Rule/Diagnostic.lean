import ParamLint.Json.Value
import ParamLint.Rule.Verdict
import ParamLint.Text.Quoted

/-!
# Diagnostics

A violation in a file, with the message that says how to write the function instead. Messages are
templates whose gaps are filled by name.
-/
namespace ParamLint

inductive Piece
  | text (s : String)
  | gap (name : String)

inductive MessageError
  | unknownMessage (id : Text)
  | missingValue (name : String)

/-- The key at fault, quoted. -/
def MessageError.message : MessageError → Text
  | unknownMessage id => Quoted.quote id
  | missingValue name => Quoted.quote (Text.ofString name)

namespace Message

def ruleId : String := "prefer-object-params"

def useObjectParams : String := "useObjectParams"

def templates : List (String × List Piece) :=
  [(useObjectParams,
    [.text "Functions must use object parameters only. Use ", .gap "name", .text "(",
     .gap "paramsObj", .text ") instead of ", .gap "name", .text "(", .gap "params", .text ")"])]

def fill (data : List (Text × Text)) : Piece → Except MessageError Text
  | .text s => .ok (Text.ofString s)
  | .gap name =>
    match data.lookup (Text.ofString name) with
    | some value => .ok value
    | none => .error (.missingValue name)

/-- The message with an id; the first gap without a value is at fault. -/
def render (id : Text) (data : List (Text × Text)) : Except MessageError Text :=
  match templates.find? (Text.ofString ·.1 = id) with
  | none => .error (.unknownMessage id)
  | some (_, pieces) => (pieces.mapM (fill data)).map List.flatten

end Message

structure Diagnostic where
  path : Text
  location : Location
  /-- What fills the gaps of the message. -/
  name : Text
  params : Text
  paramsObject : Text
  message : Text
deriving DecidableEq, Inhabited

namespace Diagnostic

/-- The names as the properties of one object. -/
def objectOf (names : List Text) : Text :=
  if names.isEmpty then Text.ofString "\x7b\x7d"
  else
    Text.ofString "\x7b " ++ Text.join (Text.ofString ", ") names ++ Text.ofString " \x7d"

def data (name params paramsObject : Text) : List (Text × Text) :=
  [(Text.ofString "name", name), (Text.ofString "params", params),
   (Text.ofString "paramsObj", paramsObject)]

def ofViolation (path : Text) (v : Violation) : Diagnostic :=
  let params := Text.join (Text.ofString ", ") v.paramNames
  let paramsObject := objectOf v.paramNames
  let message := Message.render (Text.ofString Message.useObjectParams)
    (data v.functionName params paramsObject)
  ⟨path, v.anchor, v.functionName, params, paramsObject, message.toOption.getD []⟩

def toJson (d : Diagnostic) : Json :=
  .object
    [(Text.ofString "path", .string d.path),
     (Text.ofString "line", .integer d.location.line),
     (Text.ofString "column", .integer d.location.column),
     (Text.ofString "ruleId", .string (Text.ofString Message.ruleId)),
     (Text.ofString "messageId", .string (Text.ofString Message.useObjectParams)),
     (Text.ofString "data",
       .object ((data d.name d.params d.paramsObject).map fun (k, v) => (k, .string v))),
     (Text.ofString "message", .string d.message)]

end Diagnostic

end ParamLint

import ParamLint.CommandLine.Arguments
import ParamLint.Config.File
import ParamLint.Json.Printer
import ParamLint.Run.Project

/-!
# Running the command

What the program writes and how it ends: with nothing found, with findings, or with an error. A
report breaks off at a number with too many digits.
-/
namespace ParamLint.CommandLine

/-- Errors of the program itself, which only the details explain. -/
inductive Breakdown
  | unreadable (error : ReadError)
  | tooLong (place : Place)
  /-- An option was given two dashes for its value. -/
  | noValue
  /-- A number in the report has too many digits. -/
  | longNumber
deriving DecidableEq

inductive Status
  | clean
  | findings
  | error
  | broken (why : Breakdown)
deriving DecidableEq

def Status.code : Status → Nat
  | clean => 0
  | findings | broken _ => 1
  | error => 2

structure Result where
  status : Status
  output : Text := []
  errors : Text := []
  calls : List Git.Call := []

def line (t : Text) : Text := t ++ Text.ofString "\n"

def lines (ts : List Text) : Text := ts.flatMap line

def findingLine (d : Diagnostic) : Text :=
  d.path ++ Text.ofString s!":{d.location.line}:{d.location.column}: " ++ d.message ++
    Text.ofString s!" [{Message.useObjectParams}]"

/-- What is written of a report, and whether that is all of it. -/
structure Writing where
  output : Text
  isWhole : Bool := true

/-- The findings as lines, up to the first that cannot be written; after all of them a line that
counts. -/
def textReport (t : Tally) : Writing :=
  let writable := t.diagnostics.takeWhile fun d =>
    [d.location.line, d.location.column].all fun n => (Integer.decimal? n).isSome
  let found := lines (writable.map findingLine)
  if writable.length < t.diagnostics.length then ⟨found, false⟩
  else
    { output :=
        found ++ (if t.diagnostics.isEmpty then [] else Text.ofString "\n") ++
          line (Text.ofString
            (s!"{t.diagnostics.length} problem(s) in {t.checked} file(s) checked" ++
              s!" ({t.exempt} exempt, {t.skipped.length} skipped)")) }

/-- The records of the findings, or nothing if one cannot be written. -/
def jsonReport (t : Tally) : Writing :=
  match Json.print? (.array (t.diagnostics.map Diagnostic.toJson)) with
  | some cs => { output := line (Text.ofChars cs) }
  | none => ⟨[], false⟩

def shown (debug : Bool) (j : Journal) : Text :=
  lines ((j.filter fun e => debug || e.level = .warning).map Entry.line)

def errorLine (message : Text) : Text := line (Text.ofString "Error: " ++ message)

def internalError : Text :=
  lines [Text.ofString "Internal error while checking files.",
    Text.ofString "Run with --debug for details."]

def report (args : Arguments) (r : Project.Report) : Result :=
  let log := shown args.debug r.journal
  let failure (message : Text) : Result :=
    { status := .error, errors := log ++ errorLine message, calls := r.calls }
  let breakdown (why : Breakdown) : Result :=
    if args.debug then { status := .broken why, errors := log, calls := r.calls }
    else { status := .error, errors := log ++ internalError, calls := r.calls }
  match r.result with
  | .ok t =>
    let written := if args.format = .json then jsonReport t else textReport t
    { status :=
        if !written.isWhole then .broken .longNumber else if t.isClean then .clean else .findings
      output := written.output
      errors := log
      calls := r.calls }
  | .error (.discovery (.unnamable fault)) => failure (Text.ofString fault.message)
  | .error (.discovery (.missing place)) =>
    failure (Text.ofString "Path does not exist: " ++ place.toText)
  | .error (.git e) => failure e.message
  | .error (.discovery (.tooLong place)) => breakdown (.tooLong place)
  | .error (.unreadable e) => breakdown (.unreadable e)

def check (parse : Parser) (top : FileTree) (git : Git.Program) (here : Place) (args : Arguments) :
    Result :=
  match Configuration.load top here args.config args.overrides with
  | .error e => { status := .error, errors := errorLine e.message }
  | .ok c =>
    let root := args.root.getD ⟨0, []⟩
    match root.resolveFault? with
    | some fault => { status := .error, errors := errorLine (Text.ofString fault.message) }
    | none =>
      report args
        (Project.check parse top git here (root.resolve here) c args.paths args.changedSince)

def run (parse : Parser) (top : FileTree) (git : Git.Program) (here : Place)
    (arguments : List Text) : Result :=
  match CommandLine.parse arguments with
  | .ok args => check parse top git here args
  | .error (.help scope) => { status := .clean, output := Text.ofString scope.help }
  | .error (.error scope message) =>
    { status := .error
      errors := Text.ofString scope.usage ++
        line (Text.ofString s!"{scope.name}: error: " ++ message) }
  | .error .noValue => { status := .broken .noValue }

end ParamLint.CommandLine

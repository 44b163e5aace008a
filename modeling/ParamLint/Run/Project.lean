import ParamLint.Git.Changes
import ParamLint.Run.Discovery
import ParamLint.Run.Source
import ParamLint.Text.Lines

/-!
# Checking a project

Every file is exempt, skipped or checked, and a run tallies them. A file that cannot be decoded or
parsed is skipped; only a key that cannot be named ends the run.
-/
namespace ParamLint

structure Tally where
  diagnostics : List Diagnostic := []
  checked : Nat := 0
  exempt : Nat := 0
  skipped : List Text := []
deriving DecidableEq

def Tally.isClean (t : Tally) : Bool := t.diagnostics.isEmpty

/-- What becomes of one file, which is reported under `path`. -/
inductive Outcome
  | exempt
  | skipped (path : Text)
  | checked (diagnostics : List Diagnostic)

def Tally.add (t : Tally) : Outcome → Tally
  | .exempt => { t with exempt := t.exempt + 1 }
  | .skipped path => { t with skipped := t.skipped ++ [path] }
  | .checked diagnostics =>
    { t with checked := t.checked + 1, diagnostics := t.diagnostics ++ diagnostics }

inductive RunError
  | discovery (failure : Discovery.Failure)
  | git (failure : Git.Failure)
  | unreadable (error : ReadError)

namespace Project

/-- The path under which a file is reported: relative to the root if it is below it. -/
def displayPath (root file : Place) : Text :=
  match root.below? file with
  | some names => (Path.mk 0 names).toText
  | none => file.toText

def entry (level : Level) (message : Text) : Entry := ⟨level, Findings.part, message⟩

def openMessage (e : OpenError) (file : Place) : Text :=
  Text.ofString s!"[Errno {e.number}] {e.reason}: " ++ Quoted.quote file.toText

def readText (top : FileTree) (file : Place) : Except Text (List Char) :=
  match top.read file with
  | .error e => .error (openMessage e file)
  | .ok bytes =>
    match Utf8.decode bytes with
    | .error fault => .error (Text.ofString fault.message)
    | .ok cs => .ok (Lines.unify cs)

def checkFile (parse : Parser) (top : FileTree) (root : Place) (c : Configuration) (file : Place) :
    Journal × Except ReadError Outcome :=
  let path := displayPath root file
  let context := FileContext.enter c path
  if context.isExempt then
    ([entry .debug (Text.ofString "Skipping exempt file " ++ path)], .ok .exempt)
  else
    match readText top file with
    | .error reason =>
      ([entry .warning (Text.ofString "Cannot read " ++ path ++ Text.ofString ": " ++ reason)],
        .ok (.skipped path))
    | .ok cs =>
      let found := Findings.ofSource parse c context cs
      match found.result with
      | .ok diagnostics => (found.journal, .ok (.checked diagnostics))
      | .error (.unparsable _) =>
        (found.journal ++
          [entry .warning (Text.ofString "Skipping " ++ path ++ Text.ofString ": syntax errors")],
          .ok (.skipped path))
      | .error (.unreadable e) => (found.journal, .error e)

def checkFiles (parse : Parser) (top : FileTree) (root : Place) (c : Configuration) (t : Tally) :
    List Place → Journal × Except ReadError Tally
  | [] => ([], .ok t)
  | file :: rest =>
    match checkFile parse top root c file with
    | (journal, .error e) => (journal, .error e)
    | (journal, .ok outcome) =>
      let (more, result) := checkFiles parse top root c (t.add outcome) rest
      (journal ++ more, result)

structure Report where
  calls : List Git.Call := []
  journal : Journal := []
  result : Except RunError Tally

/-- The files among `files` that changed since a revision, if one is given. -/
def select (git : Git.Program) (here root : Place) (since : Option Text) (files : List Place) :
    Git.Asking (List Place) :=
  match since with
  | none => return files
  | some revision => do
    let changed ← Git.changedSince git here root.toText revision
    let selected := files.filter (· ∈ changed)
    let message := Text.ofString s!"{selected.length} file(s) changed since " ++ revision
    modify fun t => { t with journal := t.journal ++ [entry .debug message] }
    return selected

def check (parse : Parser) (top : FileTree) (git : Git.Program) (here root : Place)
    (c : Configuration) (paths : List Text) (since : Option Text) : Report :=
  match Discovery.discover top here paths with
  | .error failure => { result := .error (.discovery failure) }
  | .ok files =>
    match (select git here root since files).run.run {} with
    | (.error failure, t) =>
      { calls := t.calls, journal := t.journal, result := .error (.git failure) }
    | (.ok selected, t) =>
      let (journal, result) := checkFiles parse top root c {} selected
      { calls := t.calls, journal := t.journal ++ journal
        result := result.mapError .unreadable }

end Project

end ParamLint

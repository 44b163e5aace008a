import ParamLint.Path.Absolute
import ParamLint.Run.Journal
import ParamLint.Text.Blank
import ParamLint.Text.Lines

/-!
# Changed files

Which files changed since a revision, asked of git: those that differ from the revision and still
exist, and those that are new and not ignored. Git itself is a function from calls to replies.
-/
namespace ParamLint.Git

structure Call where
  arguments : List Text
  directory : Place
deriving DecidableEq

structure Reply where
  code : Int
  output : Text
  error : Text
deriving DecidableEq

abbrev Program := Call → Reply

inductive Failure
  | notRepository (path : Text)
  | unknownRevision (revision : Text)
  | commandFailed (arguments : List Text) (error : Text)
deriving DecidableEq

def Failure.message : Failure → Text
  | notRepository path => Text.ofString "Not a Git repository: " ++ path
  | unknownRevision revision => Text.ofString "Unknown revision: " ++ revision
  | commandFailed arguments error =>
    Text.ofString "Git command failed: " ++ Text.join (Text.ofString " ") arguments ++
      Text.ofString "\n" ++ error

structure Transcript where
  calls : List Call := []
  journal : Journal := []

abbrev Asking := ExceptT Failure (StateM Transcript)

def words (ws : List String) : List Text := ws.map Text.ofString

def ask (git : Program) (call : Call) : Asking Reply := do
  modify fun t => { t with calls := t.calls ++ [call] }
  return git call

/-- A call that leaves the names of files as they are. -/
def run (git : Program) (top : Place) (arguments : List Text) : Asking Reply := do
  let message := Text.ofString "git " ++ Text.join (Text.ofString " ") arguments ++
    Text.ofString " (in " ++ top.toText ++ Text.ofString ")"
  modify fun t => { t with journal := t.journal ++ [⟨.debug, "objparams.git_changes", message⟩] }
  ask git ⟨words ["-c", "core.quotepath=off"] ++ arguments, top⟩

def runChecked (git : Program) (top : Place) (arguments : List Text) : Asking Text := do
  let reply ← run git top arguments
  if reply.code = 0 then return reply.output
  else throw (.commandFailed arguments reply.error)

def topLevel (git : Program) (here : Place) (path : Text) : Asking Place := do
  let reply ← ask git ⟨words ["rev-parse", "--show-toplevel"], (Path.ofText path).resolve here⟩
  if reply.code = 0 then return (Path.ofText reply.output.trim).resolve here
  else throw (.notRepository path)

def verify (git : Program) (top : Place) (revision : Text) : Asking Unit := do
  let commit := revision ++ Text.ofString "^\x7bcommit\x7d"
  let reply ← run git top (words ["rev-parse", "--verify", "--quiet"] ++ [commit])
  unless reply.code = 0 do throw (.unknownRevision revision)

/-- The files in a list of names, one on a line. -/
def places (top : Place) (output : Text) : List Place :=
  ((Lines.split output).filter (· ≠ [])).map fun line => (Path.ofText line).resolve top

def changedSince (git : Program) (here : Place) (path revision : Text) : Asking (List Place) := do
  let top ← topLevel git here path
  verify git top revision
  let changed ← runChecked git top
    (words ["diff", "--name-only", "--diff-filter=ACMR"] ++ [revision] ++ words ["--"])
  let new ← runChecked git top (words ["ls-files", "--others", "--exclude-standard"])
  return places top changed ++ places top new

end ParamLint.Git

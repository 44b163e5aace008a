import ParamLint.Path.Encoding
import ParamLint.Text.Entries

/-!
# File trees

The files and folders that a run sees, as data. A path is followed name by name, and every name but
the last has to be a folder. A path that is too long is not followed at all, and a name that is too
long is not looked for.
-/
namespace ParamLint

inductive FileTree
  | file (content : List UInt8)
  | folder (entries : List (Text × FileTree))
deriving Inhabited

inductive OpenError
  | missing
  | notFolder
  | isFolder
  | tooLong
deriving DecidableEq

namespace OpenError

def number : OpenError → Nat
  | missing => 2
  | notFolder => 20
  | isFolder => 21
  | tooLong => 36

def reason : OpenError → String
  | missing => "No such file or directory"
  | notFolder => "Not a directory"
  | isFolder => "Is a directory"
  | tooLong => "File name too long"

end OpenError

namespace FileTree

def isFile : FileTree → Bool
  | file _ => true
  | folder _ => false

def content : FileTree → Except OpenError (List UInt8)
  | file content => .ok content
  | folder _ => .error .isFolder

/-- What the names lead to, one after the other. -/
def walk : FileTree → Place → Except OpenError FileTree
  | t, [] => .ok t
  | file _, _ :: _ => .error .notFolder
  | folder entries, name :: rest =>
    if Path.nameLimit < Path.size name then .error .tooLong
    else
      match entries.lookup name with
      | some t => walk t rest
      | none => .error .missing

def status (top : FileTree) (p : Place) : Except OpenError FileTree :=
  if Path.pathLimit < Path.size p.toText then .error .tooLong else top.walk p

def read (top : FileTree) (p : Place) : Except OpenError (List UInt8) :=
  match top.status p with
  | .error e => .error e
  | .ok t => t.content

/-- What is reached from `here` name by name. To go on or back from somewhere, it has to be a
folder. -/
def follow (top : FileTree) : Place → List Text → Except OpenError FileTree
  | here, [] => top.walk here
  | here, name :: rest =>
    match top.walk here with
    | .error e => .error e
    | .ok (file _) => .error .notFolder
    | .ok (folder _) => follow top (here.step name) rest

def openPath (top : FileTree) (here : Place) (p : Path) : Except OpenError (List UInt8) :=
  if Path.pathLimit < Path.size p.toText then .error .tooLong
  else
    match top.follow (if p.slashes = 0 then here else []) p.parts with
    | .error e => .error e
    | .ok t => t.content

def insert : FileTree → Place → FileTree → FileTree
  | _, [], t => t
  | folder entries, name :: rest, t =>
    folder (Entries.put name (insert ((entries.lookup name).getD (folder [])) rest t) entries)
  | file _, name :: rest, t => folder [(name, insert (folder []) rest t)]

def erase : Place → FileTree → FileTree
  | [], t => t
  | [name], folder entries => folder (entries.filter (·.1 ≠ name))
  | name :: rest, folder entries =>
    match entries.lookup name with
    | some t => folder (Entries.put name (erase rest t) entries)
    | none => folder entries
  | _, file content => file content

mutual

/-- All that is inside a tree, each by the names that lead to it. -/
def inside : FileTree → List (Place × FileTree)
  | file _ => []
  | folder entries => insideAll entries

def insideAll : List (Text × FileTree) → List (Place × FileTree)
  | [] => []
  | (name, t) :: rest =>
    ([name], t) :: (inside t).map (fun e => (name :: e.1, e.2)) ++ insideAll rest

end

end FileTree

end ParamLint

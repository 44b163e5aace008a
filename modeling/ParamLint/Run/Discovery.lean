import ParamLint.Files.Tree

/-!
# Discovering files

The source files that path arguments stand for: a file is itself, a folder all files below it that
are not in a hidden or generated folder. The order is that of the arguments, and below a folder that
of the names; no file comes twice. To look into a folder, the file system is asked for all folders
below it and for all source files, and it may refuse a path that is too long.
-/
namespace ParamLint.Discovery

inductive Failure
  | unnamable (fault : Path.Fault)
  | missing (place : Place)
  | tooLong (place : Place)
deriving DecidableEq

def isSupported (name : Text) : Bool := (Path.dialectOf? (Path.suffixOf name)).isSome

def generatedFolders : List Text :=
  ["node_modules", "dist", "build", "coverage"].map Text.ofString

/-- A folder that is not looked into. -/
def isSkipped (name : Text) : Bool :=
  name.head? = some Path.dot && name ≠ [Path.dot] && name ≠ Place.parentName ||
    name ∈ generatedFolders

def folders (inside : List (Place × FileTree)) : List Place :=
  (inside.filter fun e => !e.2.isFile).map (·.1)

def sources (inside : List (Place × FileTree)) : List Place :=
  ((inside.filter fun e => e.2.isFile && isSupported (e.1.getLast?.getD [])).map (·.1)).mergeSort
    Place.before

/-- The files at a place, where this tree is. -/
def filesOf (p : Place) : FileTree → List Place
  | .file _ => if isSupported (p.getLast?.getD []) then [p] else []
  | .folder entries =>
    let taken := (sources (FileTree.insideAll entries)).filter fun names =>
      !names.dropLast.any isSkipped
    taken.map (p ++ ·)

/-- What the file system is asked for to look into the place, where this tree is. -/
def asked (p : Place) : FileTree → List Place
  | .file _ => []
  | .folder entries =>
    let inside := FileTree.insideAll entries
    (folders inside ++ sources inside).map (p ++ ·)

def candidates (top : FileTree) (p : Place) : Except Failure (List Place) :=
  match top.status p with
  | .error .tooLong => .error (.tooLong p)
  | .error _ => .error (.missing p)
  | .ok t =>
    match (asked p t).find? Place.isTooLong with
    | some q => .error (.tooLong q)
    | none => .ok (filesOf p t)

def found (top : FileTree) (here : Place) (path : Text) : Except Failure (List Place) :=
  let p := Path.ofText path
  match p.resolveFault? with
  | some fault => .error (.unnamable fault)
  | none => candidates top (p.resolve here)

/-- The files of all arguments, or why those of one cannot be told, for the first such argument. -/
def discover (top : FileTree) (here : Place) (paths : List Text) : Except Failure (List Place) :=
  (paths.mapM (found top here)).map fun lists => lists.flatten.eraseDups

end ParamLint.Discovery

import ParamLint.CommandLine.Run
import ParamLint.Syntax.Parse

/-!
# The program

Reads from disk what the command line asks for, runs the command on it, and writes what it says. Git
is not called: to a run that asks for changes there is no repository.
-/
namespace ParamLint.Program

def shown (t : Text) : String :=
  String.ofList (t.map fun
    | .scalar c => c
    | .surrogate _ => '�')

/-- What is at a path on disk, of a folder only what a run could look at. -/
partial def load (path : String) : IO (Option FileTree) := do
  try
    let found ← IO.FS.realPath path
    if ← found.isDir then
      let mut entries := []
      for e in ← found.readDir do
        let name := Text.ofString e.fileName
        if (← e.path.isDir) && !Discovery.isSkipped name || Discovery.isSupported name then
          if let some t ← load e.path.toString then entries := (name, t) :: entries
      return some (.folder entries)
    else return some (.file (← IO.FS.readBinFile found).toList)
  catch _ => return none

def places (here : Place) (arguments : List Text) : List Place :=
  match CommandLine.parse arguments with
  | .ok args =>
    let named := args.config.toList ++ args.paths.map Path.ofText
    (named.map (·.resolve here)).mergeSort fun p q => p.length ≤ q.length
  | .error _ => []

def run (arguments : List Text) : IO CommandLine.Result := do
  let here := (Path.ofText (Text.ofString (← IO.currentDir).toString)).resolve []
  let mut top := (FileTree.folder []).insert here (.folder [])
  for p in places here arguments do
    if let some t ← load (shown p.toText) then top := top.insert p t
  return CommandLine.run Syntax.parse top (fun _ => ⟨128, [], []⟩) here arguments

end ParamLint.Program

def main (arguments : List String) : IO UInt32 := do
  let result ← ParamLint.Program.run (arguments.map ParamLint.Text.ofString)
  (← IO.getStdout).putStr (ParamLint.Program.shown result.output)
  (← IO.getStderr).putStr (ParamLint.Program.shown result.errors)
  return result.status.code.toUInt32

import ParamLint.Path.Glob
import ParamLint.Rule.Diagnostic
import ParamLint.Rule.Exemption
import ParamLint.Run.Journal
import ParamLint.Site.OfTree
import ParamLint.Syntax.Position

/-!
# Checking one source

A source is parsed in the dialect of its path, and its functions are judged one after the other.
What is said about the functions before one that cannot be read stays said. The parser is a
parameter.
-/
namespace ParamLint

/-- A file as it is entered: the path under which it is reported, and whether it is looked at. -/
structure FileContext where
  path : Text
  isExempt : Bool
deriving DecidableEq

def FileContext.enter (c : Configuration) (path : Text) : FileContext :=
  let path := Path.normalize path
  ⟨path, c.exemptsFile path⟩

inductive CheckError
  | unparsable (path : Text)
  | unreadable (error : ReadError)
deriving DecidableEq

/-- What checking gives: the journal so far, and the diagnostics unless something failed. -/
structure Findings where
  journal : Journal
  result : Except CheckError (List Diagnostic)

namespace Findings

def part : String := "objparams.orchestrator"

def exemptEntry (path : Text) (s : Site) : Entry :=
  ⟨.debug, part,
    path ++ Text.ofString s!":{s.location.line}: exempt {s.kind.name} " ++ s.displayName⟩

def diagnostics (c : Configuration) (path : Text) (s : Site) : List Diagnostic :=
  match s.verdict c with
  | .compliant => []
  | .violation v => [Diagnostic.ofViolation path v]

def ofOccurrences (c : Configuration) (path : Text) (source : Source) :
    List Occurrence → Findings
  | [] => ⟨[], .ok []⟩
  | o :: rest =>
    match o.site source with
    | .error e => ⟨[], .error (.unreadable e)⟩
    | .ok s =>
      let more := ofOccurrences c path source rest
      if s.isExempt c then ⟨exemptEntry path s :: more.journal, more.result⟩
      else ⟨more.journal, more.result.map (diagnostics c path s ++ ·)⟩

def ofTree (c : Configuration) (path : Text) (source : Source) (root : Node) : Findings :=
  ofOccurrences c path source root.occurrences

def ofSource (parse : Parser) (c : Configuration) (file : FileContext) (cs : List Char) :
    Findings :=
  if file.isExempt then ⟨[], .ok []⟩
  else
    match parse (Path.dialect file.path) cs with
    | none => ⟨[], .error (.unparsable file.path)⟩
    | some root => ofTree c file.path (Source.ofChars cs) root

end Findings

end ParamLint

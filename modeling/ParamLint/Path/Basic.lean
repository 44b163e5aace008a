import ParamLint.Syntax.Dialect
import ParamLint.Text.CodePoint

/-!
# Paths

A path as it is written, in two readings. For names and patterns a backslash is a slash and leading
`./` do not count. For the file system only slashes divide a path, empty and `.` parts are left out,
and the rest is kept.
-/
namespace ParamLint

namespace Path

def slash : CodePoint := .scalar '/'

def dot : CodePoint := .scalar '.'

/-- The parts of a text between slashes. There is always at least one. -/
def segments : Text → List Text
  | [] => [[]]
  | p :: rest =>
    if p = slash then [] :: segments rest
    else
      match segments rest with
      | [] => [[p]]
      | s :: more => (p :: s) :: more

def lastSegment (t : Text) : Text := (segments t).getLast?.getD []

/-! Names and patterns -/

def withSlashes (t : Text) : Text := t.map fun p => if p = .scalar '\\' then slash else p

/-- Leaves out every `./` in front. -/
def withoutDots : Text → Text
  | .scalar '.' :: .scalar '/' :: rest => withoutDots rest
  | t => t

def normalize (t : Text) : Text := withoutDots (withSlashes t)

/-- Two letters are one apart from their case; the long s is an s. -/
def foldCase : CodePoint → CodePoint
  | .scalar c => .scalar (if c = 'ſ' then 's' else c.toLower)
  | p => p

def testEndings : List Text :=
  ["test", "spec"].flatMap fun mark =>
    ["js", "jsx", "ts", "tsx", "mjs", "cjs", "mts", "cts"].map fun ending =>
      Text.ofString s!".{mark}.{ending}"

def withoutLineFeed (t : Text) : Text :=
  if t.getLast? = some (.scalar '\n') then t.dropLast else t

/-- The last part of the path ends like `.test.js` or `.spec.ts`, in any case; one line feed after
that does not count. -/
def isTestFile (t : Text) : Bool :=
  let name := (withoutLineFeed (lastSegment (normalize t))).map foldCase
  testEndings.any (·.isSuffixOf name)

end Path

/-! Paths of the file system -/

structure Path where
  /-- The slashes in front: none for a relative path, one, or two. -/
  slashes : Nat
  parts : List Text
deriving DecidableEq, Inhabited

namespace Path

/-- Two slashes in front are kept; any other number of them is one. -/
def leadingSlashes (t : Text) : Nat :=
  match (t.takeWhile (· = slash)).length with
  | 0 => 0
  | 2 => 2
  | _ => 1

def ofText (t : Text) : Path :=
  ⟨leadingSlashes t, (segments t).filter fun s => s ≠ [] && s ≠ [dot]⟩

/-- The path with nothing in it is written as a point. -/
def toText (p : Path) : Text :=
  if p.slashes = 0 ∧ p.parts = [] then [dot]
  else List.replicate p.slashes slash ++ Text.join [slash] p.parts

/-- The end of a name from its last point on, where that is neither its first nor its last
character. -/
def suffixOf (name : Text) : Text :=
  let ending := (name.reverse.takeWhile (· ≠ dot)).reverse
  if ending ≠ [] ∧ ending.length + 1 < name.length then dot :: ending else []

def suffix (p : Path) : Text := suffixOf (p.parts.getLast?.getD [])

def dialects : List (String × Dialect) :=
  [(".js", .javascript), (".jsx", .javascript), (".mjs", .javascript), (".cjs", .javascript),
   (".ts", .typescript), (".mts", .typescript), (".cts", .typescript), (".tsx", .tsx)]

def toLower (t : Text) : Text :=
  t.map fun
    | .scalar c => .scalar c.toLower
    | p => p

/-- The dialect of a suffix in any case; none for a file that holds no source. -/
def dialectOf? (suffix : Text) : Option Dialect :=
  (dialects.find? fun d => Text.ofString d.1 = toLower suffix).map (·.2)

def dialect (t : Text) : Dialect := (dialectOf? (ofText t).suffix).getD .javascript

end Path

end ParamLint

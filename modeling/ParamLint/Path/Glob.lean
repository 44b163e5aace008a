import ParamLint.Path.Basic
import ParamLint.Path.Wildcard
import ParamLint.Rule.Configuration

/-!
# Globs

A pattern is matched against a path part by part. `**` stands for any number of parts, and inside a
part `*` stands for any run of characters, `?` for one, and brackets for one of a set.
-/
namespace ParamLint.Glob

/-! Sets -/

/-- A set in brackets: chunks of members, where the last character of a chunk and the first of the
next are the ends of a range. -/
structure CharSet where
  negated : Bool
  chunks : List Text

/-- Cuts the text of a set at the hyphens that make ranges. `chunk` holds the current chunk, last
character first; a hyphen cuts only after `wait` further characters. -/
def cut (chunk : Text) : (wait : Nat) → Text → List Text
  | _, [] => [chunk.reverse]
  | 0, p :: rest =>
    if p = .scalar '-' then chunk.reverse :: cut [] 2 rest else cut (p :: chunk) 0 rest
  | wait + 1, p :: rest => cut (p :: chunk) wait rest

/-- A hyphen after which nothing comes is a member. -/
def keepLastHyphen (chunks : List Text) : List Text :=
  match chunks.reverse with
  | [] :: last :: more => (last ++ [.scalar '-']) :: more |>.reverse
  | _ => chunks

/-- Two chunks that would make an empty range become one, without its ends. -/
def dropEmptyRanges : List Text → List Text
  | [] => []
  | chunk :: rest =>
    match dropEmptyRanges rest with
    | [] => [chunk]
    | next :: more =>
      match chunk.getLast?, next.head? with
      | some low, some high =>
        if high.toNat < low.toNat then (chunk.dropLast ++ next.tail) :: more
        else chunk :: next :: more
      | _, _ => chunk :: next :: more

/-- A mark of negation is one that stands first when the empty ranges are gone. A range that would
begin with it has no beginning, and its hyphen is a member. -/
def CharSet.ofChunks : List Text → CharSet
  | [.scalar '!'] :: next :: more => ⟨true, (.scalar '-' :: next) :: more⟩
  | (.scalar '!' :: first) :: more => ⟨true, first :: more⟩
  | chunks => ⟨false, chunks⟩

/-- The set that the text between brackets describes. The first member, after the mark of negation,
is no hyphen of a range. -/
def CharSet.ofText (t : Text) : CharSet :=
  let wait := if t.head? = some (.scalar '!') then 2 else 1
  CharSet.ofChunks (dropEmptyRanges (keepLastHyphen (cut [] wait t)))

def inRange (p : CodePoint) (left right : Text) : Bool :=
  match left.getLast?, right.head? with
  | some low, some high => low.toNat ≤ p.toNat && p.toNat ≤ high.toNat
  | _, _ => false

def inRanges (p : CodePoint) : List Text → Bool
  | left :: right :: rest => inRange p left right || inRanges p (right :: rest)
  | _ => false

def CharSet.contains (s : CharSet) (p : CodePoint) : Bool :=
  s.negated ^^ (s.chunks.any (p ∈ ·) || inRanges p s.chunks)

/-! Parts -/

/-- The text of a set after its opening bracket, and what comes after its closing one. A closing
bracket at the very start, also after the mark of negation, is a member. -/
def setText? (t : Text) : Option (Text × Text) :=
  let mark := if t.head? = some (.scalar '!') then 1 else 0
  let fixed := mark + if (t.drop mark).head? = some (.scalar ']') then 1 else 0
  let body := (t.drop fixed).takeWhile (· ≠ .scalar ']')
  let rest := t.drop (fixed + body.length)
  if rest.isEmpty then none else some (t.take fixed ++ body, rest.tail)

/-- The wildcards of one part of a pattern. A bracket that is never closed stands for itself. -/
def partPattern : Nat → Text → List (Wildcard CodePoint)
  | 0, _ => []
  | _, [] => []
  | fuel + 1, p :: rest =>
    if p = .scalar '*' then .run :: partPattern fuel rest
    else if p = .scalar '?' then .one (fun _ => true) :: partPattern fuel rest
    else if p = .scalar '[' then
      match setText? rest with
      | some (text, more) => .one (CharSet.ofText text).contains :: partPattern fuel more
      | none => .one (· = p) :: partPattern fuel rest
    else .one (· = p) :: partPattern fuel rest

def matchesPart (pattern part : Text) : Bool :=
  Wildcard.covers (partPattern pattern.length pattern) part

/-! Paths -/

def anyParts : Text := Text.ofString "**"

def pathPattern (pattern : Text) : List (Wildcard Text) :=
  (Path.segments (Path.normalize pattern)).map fun part =>
    if part = anyParts then .run else .one (matchesPart part)

def isMatch (path pattern : Text) : Bool :=
  Wildcard.covers (pathPattern pattern) (Path.segments (Path.normalize path))

end ParamLint.Glob

namespace ParamLint.Configuration

/-- A file that is not looked at: a test file, or one that a pattern names. -/
def exemptsFile (c : Configuration) (path : Text) : Bool :=
  c.testFiles && Path.isTestFile path || c.filePatterns.any (Glob.isMatch path)

end ParamLint.Configuration

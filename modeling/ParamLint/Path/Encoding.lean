import ParamLint.Path.Absolute
import ParamLint.Text.Quoted

/-!
# Paths as bytes

The file system takes a path as bytes without a zero, and not too many of them. The halves of
surrogate pairs from U+DC80 to U+DCFF stand for bytes that are no text, and no other half can be
written.
-/
namespace ParamLint

namespace Path

inductive Fault
  | unencodable (position : Nat) (points : List CodePoint)
  | zero
deriving DecidableEq

def isEncodable : CodePoint → Bool
  | .scalar _ => true
  | .surrogate d => 0x480 ≤ d.val && d.val ≤ 0x4FF

/-- The first fault of a path: halves that cannot be written, with all halves after them, come
before a zero. -/
def fault? (t : Text) : Option Fault :=
  match (t.dropWhile isEncodable).takeWhile (·.isSurrogate) with
  | [] => if t.any (· = .scalar '\x00') then some .zero else none
  | points => some (.unencodable (t.takeWhile isEncodable).length points)

namespace Fault

def message : Fault → String
  | unencodable position points =>
    let place := match points with
      | [p] =>
        s!"character '{String.ofList (Quoted.escapeByNumber p.toNat)}' in position {position}"
      | points => s!"characters in position {position}-{position + points.length - 1}"
    s!"'utf-8' codec can't encode {place}: surrogates not allowed"
  | zero => "embedded null byte"

end Fault

/-! Resolving -/

/-- The path one name back. A relative one may lead out of where it starts. -/
def back (p : Path) : Path :=
  if p.slashes = 0 ∧ (p.parts.getLast?.getD Place.parentName) = Place.parentName then
    ⟨0, p.parts ++ [Place.parentName]⟩
  else ⟨p.slashes, p.parts.dropLast⟩

/-- The paths that are asked for while names are followed from a path on, one for each name that
does not lead back. -/
def trail : Path → List Text → List Path
  | _, [] => []
  | p, name :: rest =>
    if name = Place.parentName then trail p.back rest
    else
      let next : Path := ⟨p.slashes, p.parts ++ [name]⟩
      next :: trail next rest

def resolveFault? (p : Path) : Option Fault :=
  (trail ⟨min p.slashes 1, []⟩ p.parts).findSome? fun q => fault? q.toText

/-! Lengths -/

/-- The bytes of a text that can be written. -/
def size (t : Text) : Nat :=
  t.foldr (fun p n => n + match p with
    | .scalar c => c.utf8Size
    | .surrogate _ => 1) 0

def nameLimit : Nat := 255

def pathLimit : Nat := 4095

end Path

/-- The file system refuses to look for what is at the place. -/
def Place.isTooLong (p : Place) : Bool :=
  Path.pathLimit < Path.size p.toText || p.any (Path.nameLimit < Path.size ·)

end ParamLint

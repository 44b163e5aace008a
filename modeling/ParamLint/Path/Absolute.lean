import ParamLint.Path.Basic

/-!
# Absolute paths

A place in the file system is the list of names that lead to it from the top. Without links, `..`
goes back to the name before it, and at the top it stays there.
-/
namespace ParamLint

abbrev Place := List Text

namespace Place

instance : LawfulBEq Place := inferInstance

def toText (p : Place) : Text := Path.slash :: Text.join [Path.slash] p

def parentName : Text := [Path.dot, Path.dot]

/-- One name further, or one back. -/
def step (p : Place) (name : Text) : Place :=
  if name = parentName then p.dropLast else p ++ [name]

/-- Places by their names from the top on, each by code point. -/
def before : Place → Place → Bool
  | [], _ => true
  | _ :: _, [] => false
  | s :: p, t :: q => s = t && before p q || s ≠ t && Text.before s t

def below? (root : Place) (p : Place) : Option (List Text) :=
  if root.isPrefixOf p then some (p.drop root.length) else none

end Place

/-- The place that a path names, seen from `here`. -/
def Path.resolve (here : Place) (p : Path) : Place :=
  p.parts.foldl Place.step (if p.slashes = 0 then here else [])

end ParamLint

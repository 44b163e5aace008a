import ParamLint.Syntax.Source
import ParamLint.Text.CodePoint

/-!
# Function sites

A function as the rule sees it: its kind, the name it binds itself, its parameters, the role it has
in the syntax around it, and where it starts.
-/
namespace ParamLint

inductive ParamKind
  | plain
  | object
  | array
  | rest
  | defaulted
  | this
  | unknown
deriving DecidableEq, Inhabited

/-- One entry of a parameter list. A parameter with a default has the shape of the pattern that is
given the default as its target. -/
structure Param where
  kind : ParamKind
  name : Option Text
  location : Location
  target : Option ParamKind := none
deriving DecidableEq, Inhabited

inductive ParentKind
  | constructor
  | method
  | classProperty
  | propertyValue
  | variableDeclarator
  | assignment
  | other
deriving DecidableEq, Inhabited

def ParentKind.isMember : ParentKind → Bool
  | constructor | method | classProperty | propertyValue => true
  | variableDeclarator | assignment | other => false

/-- The role of a function, with the key or the variable it is reached by. -/
structure Parent where
  kind : ParentKind
  name : Option Text := none
deriving DecidableEq, Inhabited

structure Site where
  kind : FunctionKind
  ownName : Option Text
  params : List Param
  parent : Parent
  location : Location
deriving DecidableEq, Inhabited

namespace Site

def isAnonymous (s : Site) : Bool := s.ownName.isNone

/-- The name in messages: its own, else that of the variable it initializes. -/
def displayName (s : Site) : Text :=
  match s.ownName, s.parent.kind, s.parent.name with
  | some (p :: t), _, _ => p :: t
  | _, .variableDeclarator, some (p :: t) => p :: t
  | _, _, _ => Text.ofString "function"

end Site

end ParamLint

import ParamLint.Rule.Configuration
import ParamLint.Site.Basic

/-!
# Exempt functions

The reasons for which a function is left alone, each decided on its own. A function is exempt if one
of them applies.
-/
namespace ParamLint

inductive Exemption
  /-- A member whose key is ignored, or a constructor while constructors are. -/
  | member
  | ownName
  | declarator
  | propertyValue
  | assignment
deriving DecidableEq

namespace Exemption

/-- In the order in which they are looked at. -/
def all : List Exemption := [member, ownName, declarator, propertyValue, assignment]

/-- The function has no name of its own, and one in `names` by a parent of this kind. -/
def namedBy (kind : ParentKind) (names : List Text) (s : Site) : Bool :=
  s.isAnonymous && s.parent.kind = kind && s.parent.name.any (· ∈ names)

def applies (c : Configuration) (s : Site) : Exemption → Bool
  | member =>
    s.parent.kind.isMember &&
      (s.parent.name.any (· ∈ c.methodNames) ||
        s.parent.kind = .constructor && c.constructors)
  | ownName => s.ownName.any (· ∈ c.functionNames)
  | declarator => namedBy .variableDeclarator c.functionNames s
  | propertyValue => namedBy .propertyValue c.functionNames s
  | assignment => namedBy .assignment c.functionNames s

end Exemption

def Site.isExempt (s : Site) (c : Configuration) : Bool :=
  Exemption.all.any (Exemption.applies c s)

end ParamLint

import ParamLint.Rule.Configuration
import ParamLint.Site.Basic

/-!
# Verdicts

Whether the parameters of a function follow the rule: every one is taken apart on arrival, gathers
the rest, or is `this`. A violation names all parameters that do not.
-/
namespace ParamLint

namespace Param

def isDestructured : ParamKind → Bool
  | .object | .array => true
  | _ => false

/-- A default is allowed on a destructured parameter only. -/
def isAllowed (p : Param) : Bool :=
  match p.kind with
  | .object | .array | .rest | .this => true
  | .defaulted => p.target.any isDestructured
  | .plain | .unknown => false

def label (p : Param) : Text := p.name.getD (Text.ofString "param")

end Param

structure Violation where
  anchor : Location
  functionName : Text
  paramNames : List Text
deriving DecidableEq, Inhabited

inductive Verdict
  | compliant
  | violation (v : Violation)
deriving DecidableEq

namespace Site

def offending (s : Site) : List Param := s.params.filter (!·.isAllowed)

def verdict (s : Site) (c : Configuration) : Verdict :=
  match s.params with
  | [] => if c.noParams then .compliant else .violation ⟨s.location, s.displayName, []⟩
  | [_] => if c.singleParam then .compliant else judge s
  | _ => judge s
where
  /-- Anchors a violation at its first parameter. -/
  judge (s : Site) : Verdict :=
    match s.offending with
    | [] => .compliant
    | p :: rest =>
      .violation ⟨p.location, s.displayName, (p :: rest).map Param.label⟩

end Site

end ParamLint

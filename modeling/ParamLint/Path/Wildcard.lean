/-!
# Wildcards

Patterns over lists: an element of a pattern stands for one item of some kind, or for any run of
items. The answers for all suffixes of a list are found together, so that no suffix is looked at
twice for the same rest of the pattern.
-/
namespace ParamLint

inductive Wildcard (α : Type)
  | run
  | one (fits : α → Bool)

namespace Wildcard

variable {α : Type}

/-- Each answer together with the ones for shorter suffixes. -/
def orLater : List Bool → List Bool
  | [] => []
  | b :: rest =>
    match orLater rest with
    | [] => [b]
    | c :: more => (b || c) :: c :: more

/-- Whether a pattern stands for each suffix of a list, the whole list first. -/
def answers : List (Wildcard α) → List α → List Bool
  | [], items => items.map (fun _ => false) ++ [true]
  | .run :: rest, items => orLater (answers rest items)
  | .one fits :: rest, items =>
    items.zipWith (fun item answer => fits item && answer) (answers rest items).tail ++ [false]

/-- The pattern stands for the whole list. -/
def covers (pattern : List (Wildcard α)) (items : List α) : Bool :=
  (answers pattern items).headD false

end Wildcard

end ParamLint

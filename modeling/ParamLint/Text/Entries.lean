import ParamLint.Text.CodePoint

/-!
# Entries

A list of values under names, in the order in which the names were first given. What is under a name
is what `List.lookup` finds.
-/
namespace ParamLint.Entries

/-- Sets the value under a name, in its place if the name is there and at the end otherwise. -/
def put {α : Type} (name : Text) (value : α) : List (Text × α) → List (Text × α)
  | [] => [(name, value)]
  | (n, v) :: rest => if n = name then (n, value) :: rest else (n, v) :: put name value rest

end ParamLint.Entries

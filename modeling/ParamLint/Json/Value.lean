import ParamLint.Number.Binary64
import ParamLint.Text.Entries

/-!
# JSON values

Objects keep the order in which their keys were first given; a later value for a key replaces the
earlier one in its place.
-/
namespace ParamLint

inductive Json
  | null
  | bool (b : Bool)
  | integer (n : Int)
  | decimal (v : Binary64)
  | string (t : Text)
  | array (items : List Json)
  | object (members : List (Text × Json))
deriving Inhabited

end ParamLint

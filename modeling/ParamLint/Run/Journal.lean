import ParamLint.Text.CodePoint

/-!
# Journals

What a run tells about itself while it goes on: entries of two levels, each from one part of the
program.
-/
namespace ParamLint

inductive Level
  | debug
  | warning
deriving DecidableEq

namespace Level

def name : Level → String
  | debug => "DEBUG"
  | warning => "WARNING"

end Level

structure Entry where
  level : Level
  part : String
  message : Text
deriving DecidableEq

namespace Entry

def line (e : Entry) : Text := Text.ofString s!"{e.level.name} {e.part}: " ++ e.message

end Entry

abbrev Journal := List Entry

end ParamLint

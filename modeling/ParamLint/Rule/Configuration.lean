import ParamLint.Text.CodePoint

/-!
# Configuration

What a run ignores. The two lists of names are sets: order and repetition do not matter.
-/
namespace ParamLint

structure Configuration where
  functionNames : List Text := []
  methodNames : List Text := []
  constructors : Bool := true
  singleParam : Bool := true
  noParams : Bool := true
  testFiles : Bool := true
  filePatterns : List Text := []
deriving DecidableEq, Inhabited

end ParamLint

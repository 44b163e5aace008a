/-!
# Dialects

The three grammars a source may be written in.
-/
namespace ParamLint

inductive Dialect
  | javascript
  | typescript
  | tsx
deriving DecidableEq, Inhabited

def Dialect.hasTypes : Dialect → Bool
  | javascript => false
  | typescript | tsx => true

end ParamLint

/-!
# Text as code points

Names come from escapes that may spell one half of a surrogate pair alone, so a text is a list of
code points and not only of characters. Everything read from a file is made of characters.
-/
namespace ParamLint

/-- A character, or half of a surrogate pair given by its distance from U+D800. -/
inductive CodePoint
  | scalar (c : Char)
  | surrogate (distance : Fin 2048)
deriving DecidableEq, Inhabited

namespace CodePoint

def toNat : CodePoint → Nat
  | scalar c => c.toNat
  | surrogate d => 0xD800 + d

def ofNat? (n : Nat) : Option CodePoint :=
  if h : n.isValidChar then some (scalar (Char.ofNatAux n h))
  else if h : 0xD800 ≤ n ∧ n < 0xE000 then some (surrogate ⟨n - 0xD800, by omega⟩)
  else none

def isSurrogate : CodePoint → Bool
  | scalar _ => false
  | surrogate _ => true

instance : Coe Char CodePoint := ⟨scalar⟩

theorem ofNat?_toNat (p : CodePoint) : ofNat? p.toNat = some p := by
  cases p with
  | scalar c =>
    have h : c.toNat.isValidChar := c.valid
    rw [toNat, ofNat?, dif_pos h]
    rfl
  | surrogate d =>
    have h : ¬ (0xD800 + d.val).isValidChar := by
      unfold Nat.isValidChar
      omega
    have hd : 0xD800 ≤ 0xD800 + d.val ∧ 0xD800 + d.val < 0xE000 := by omega
    rw [toNat, ofNat?, dif_neg h, dif_pos hd]
    simp

theorem toNat_injective {p q : CodePoint} (h : p.toNat = q.toNat) : p = q := by
  have hp := ofNat?_toNat p
  rw [h, ofNat?_toNat q] at hp
  exact (Option.some.inj hp).symm

end CodePoint

abbrev Text := List CodePoint

namespace Text

instance : LawfulBEq Text := inferInstance

def ofChars (cs : List Char) : Text := cs.map .scalar

def ofString (s : String) : Text := ofChars s.toList

/-- The characters of a text that has no lone surrogate. -/
def toChars? (t : Text) : Option (List Char) :=
  t.mapM fun
    | .scalar c => some c
    | .surrogate _ => none

def toString? (t : Text) : Option String := t.toChars?.map String.ofList

/-- Order by code point, a text before its extensions. -/
def before : Text → Text → Bool
  | [], _ => true
  | _ :: _, [] => false
  | p :: t, q :: u => p.toNat < q.toNat || (p == q && before t u)

def join (separator : Text) (parts : List Text) : Text := separator.intercalate parts

end Text

end ParamLint

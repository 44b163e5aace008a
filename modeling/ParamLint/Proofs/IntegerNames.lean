import Mathlib.Data.List.TakeWhile
import ParamLint.Number.Name
import ParamLint.Proofs.DecimalValues
import ParamLint.Proofs.Numerals

/-!
# Names of integer literals

Every spelling of a natural number has the same name: the text of the value nearest to the number.
Marked literals and those with a leading zero are read as integers first, all others are rounded from
their digits; where the digits are too many for that, the number is beyond the upper end anyway.
-/
namespace ParamLint

namespace Binary64

theorem ofInt_natCast (n : ℕ) : ofInt n = nearest false n 1 := by
  have hsign : decide ((n : ℤ) < 0) = false := decide_eq_false (by omega)
  rw [ofInt, hsign, Int.natAbs_natCast]

theorem ofDecimal_zero (n : ℕ) : ofDecimal false n 0 = nearest false n 1 := by
  have hdecimal := isNearest_ofDecimal false n 0
  rw [decadic, zpow_zero, mul_one] at hdecimal
  exact hdecimal.unique (isNearest_nearest_natCast false n)

end Binary64

namespace Number

open Digit (Denotes)
open Integer (IsNumeral)

/-- An integer literal without separators and its number. A leading zero stands alone, before a mark,
before octal digits, or before decimal digits that are not all octal. -/
inductive Spells : List Char → ℕ → Prop
  | decimal {cs : List Char} {n : ℕ} (h : IsNumeral 10 cs n)
      (hzero : cs.head? = some '0' → cs = ['0']) : Spells cs n
  | marked {m : Char} {base : ℕ} {cs : List Char} {n : ℕ} (hm : (m, base) ∈ Integer.marks)
      (h : IsNumeral base cs n) : Spells ('0' :: m :: cs) n
  | octal {cs : List Char} {n : ℕ} (h : IsNumeral 8 cs n) : Spells ('0' :: cs) n
  | padded {cs : List Char} {n : ℕ} (h : IsNumeral 10 cs n) (hlarge : '8' ∈ cs ∨ '9' ∈ cs)
      (hlimit : ('0' :: cs).length ≤ 4300) : Spells ('0' :: cs) n

variable {cs raw : List Char} {n : ℕ} {c : Char} {v : ℕ}

/-! Decimal digits -/

theorem isDigit_of_denotes (h : Denotes 10 c v) : c.isDigit ∧ Digit.isDigit c := by
  have hdigit : v < 10 → c.isDigit ∧ Digit.isDigit c :=
    h.of_spellings (p := fun c v => v < 10 → c.isDigit ∧ Digit.isDigit c) (by decide)
  exact hdigit h.1

theorem markBase?_of_denotes (h : Denotes 10 c v) : Integer.markBase? c = none := by
  have hmark : v < 10 → Integer.markBase? c = none :=
    h.of_spellings (p := fun c v => v < 10 → Integer.markBase? c = none) (by decide)
  exact hmark h.1

theorem toLower_ne_of_denotes {base : ℕ} (h : Denotes base c v) :
    c.toLower ≠ 'i' ∧ c.toLower ≠ 'n' :=
  h.of_spellings (p := fun c _ => c.toLower ≠ 'i' ∧ c.toLower ≠ 'n') (by decide)

theorem spanDigits_of_isNumeral (h : IsNumeral 10 cs n) : spanDigits cs = (cs, []) := by
  have hdigits : ∀ c ∈ cs, c.isDigit := by
    intro c hc
    obtain ⟨v, hv⟩ := h.exists_denotes hc
    exact (isDigit_of_denotes hv).1
  rw [spanDigits, List.span_eq_takeWhile_dropWhile, List.takeWhile_eq_self_iff.mpr hdigits,
    List.dropWhile_eq_nil_iff.mpr hdigits]

theorem decimal?_of_digit {negative : Bool} {ds : List Char}
    (hsplit : Integer.splitSign (Digit.trimBlanks (cs.map Digit.toAscii)) = (negative, c :: ds))
    (hc : Denotes 10 c v) : decimal? cs = unsigned? negative (c :: ds) := by
  obtain ⟨hi, hn⟩ := toLower_ne_of_denotes hc
  have hinf : ¬ ((c :: ds).map Char.toLower = "inf".toList ∨
      (c :: ds).map Char.toLower = "infinity".toList) := by
    rintro (heq | heq) <;> exact hi (List.cons.inj heq).1
  have hnan : (c :: ds).map Char.toLower ≠ "nan".toList := fun heq => hn (List.cons.inj heq).1
  rw [decimal?, hsplit]
  simp only [if_neg hinf, if_neg hnan]

theorem decimal?_of_isNumeral (h : IsNumeral 10 cs n) :
    decimal? cs = some (Binary64.nearest false n 1) := by
  obtain ⟨c, ds, rfl⟩ := List.exists_cons_of_ne_nil h.1
  obtain ⟨v, hv⟩ := h.exists_denotes List.mem_cons_self
  rw [decimal?_of_digit (Integer.splitSign_of_isPlain h.isPlain) hv]
  simp only [unsigned?, spanDigits_of_isNumeral h, List.append_nil, h.digits?_eq, exponent?]
  rw [← Binary64.ofDecimal_zero]
  rfl

/-! How a literal is read -/

theorem name_of_integer? (hcs : raw.filter (· ≠ '_') = cs) (hsuffix : cs.getLast? ≠ some 'n')
    (hkind : ((markedBase? cs).isSome || hasLeadingZero cs && cs.all Digit.isDigit) = true)
    (hread : integer? cs = some (n : ℤ)) : name raw = format (Binary64.nearest false n 1) := by
  rw [name, hcs]
  simp only [if_neg hsuffix, if_pos hkind, hread, Binary64.ofInt_natCast]

theorem name_of_decimal? (hcs : raw.filter (· ≠ '_') = cs) (hsuffix : cs.getLast? ≠ some 'n')
    (hmark : markedBase? cs = none) (hzero : hasLeadingZero cs = false)
    (h : IsNumeral 10 cs n) : name raw = format (Binary64.nearest false n 1) := by
  rw [name, hcs]
  simp only [if_neg hsuffix, hmark, hzero, decimal?_of_isNumeral h]
  rfl

theorem not_marked_of_head? (hzero : cs.head? = some '0' → cs = ['0']) :
    markedBase? cs = none ∧ hasLeadingZero cs = false := by
  have hplain : ∀ m rest, cs ≠ '0' :: m :: rest := by
    rintro m rest rfl
    exact List.cons_ne_nil m rest (List.cons.inj (hzero rfl)).2
  constructor
  · rw [markedBase?]
    exact hplain
  · rw [hasLeadingZero]
    exact hplain

theorem Spells.ne_suffix (h : Spells cs n) : ∀ c ∈ cs, c ≠ 'n' := by
  have hdigits : ∀ {base : ℕ} {ds : List Char}, IsNumeral base ds n → ∀ c ∈ ds, c ≠ 'n' := by
    rintro base ds hds c hc rfl
    obtain ⟨v, hv⟩ := hds.exists_denotes hc
    exact (toLower_ne_of_denotes hv).2 rfl
  cases h with
  | decimal h _ => exact hdigits h
  | @marked m base ds _ hm h =>
    have hmarks : ∀ e ∈ Integer.marks, e.1 ≠ 'n' := by decide
    rintro c (_ | ⟨_, _ | ⟨_, hc⟩⟩)
    · decide
    · exact hmarks (m, base) hm
    · exact hdigits h c hc
  | octal h =>
    rintro c (_ | ⟨_, hc⟩)
    · decide
    · exact hdigits h c hc
  | padded h _ _ =>
    rintro c (_ | ⟨_, hc⟩)
    · decide
    · exact hdigits h c hc

theorem Spells.getLast?_ne (h : Spells cs n) : cs.getLast? ≠ some 'n' :=
  fun hlast => h.ne_suffix 'n' (List.mem_of_getLast? hlast) rfl

/-- After a leading zero decimal digits are read as an integer, in base eight if all are octal. -/
theorem name_of_leading_zero (hcs : raw.filter (· ≠ '_') = '0' :: cs)
    (hsuffix : ('0' :: cs).getLast? ≠ some 'n') (hne : cs ≠ [])
    (hdigits : ∀ c ∈ cs, ∃ v, Denotes 10 c v)
    (hread : Integer.read? (if cs.all Digit.isOctal then 8 else 10) ('0' :: cs) = some (n : ℤ)) :
    name raw = format (Binary64.nearest false n 1) := by
  obtain ⟨c, ds, rfl⟩ := List.exists_cons_of_ne_nil hne
  obtain ⟨v, hv⟩ := hdigits c List.mem_cons_self
  have hmark : markedBase? ('0' :: c :: ds) = none := markBase?_of_denotes hv
  have hall : ('0' :: c :: ds).all Digit.isDigit = true := by
    rw [List.all_cons, List.all_eq_true.mpr fun c hc => ?_]
    · decide
    · obtain ⟨v, hv⟩ := hdigits c hc
      exact (isDigit_of_denotes hv).2
  refine name_of_integer? hcs hsuffix ?_ ?_
  · rw [hmark, hall]
    rfl
  · have hoctal : (hasLeadingZero ('0' :: c :: ds) && ('0' :: c :: ds).all Digit.isOctal) =
        (c :: ds).all Digit.isOctal := rfl
    rw [← hread, integer?, hmark, hoctal, apply_ite (Integer.read? · ('0' :: c :: ds))]

theorem Spells.name_eq (h : Spells cs n) (hcs : raw.filter (· ≠ '_') = cs) :
    name raw = format (Binary64.nearest false n 1) := by
  have hsuffix := h.getLast?_ne
  cases h with
  | decimal h hzero =>
    obtain ⟨hmark, hleading⟩ := not_marked_of_head? hzero
    exact name_of_decimal? hcs hsuffix hmark hleading h
  | @marked m base ds _ hm h =>
    have hbase : markedBase? ('0' :: m :: ds) = some base := Integer.markBase?_eq_some_iff.mpr hm
    refine name_of_integer? hcs hsuffix ?_ ?_
    · rw [hbase]
      rfl
    · rw [integer?, hbase]
      exact h.read?_marked hbase
  | @octal ds _ h =>
    have hall : ds.all Digit.isOctal = true :=
      List.all_eq_true.mpr fun c hc => Digit.isOctal_iff.mpr (h.exists_denotes hc)
    refine name_of_leading_zero hcs hsuffix h.1 ?_ ?_
    · intro c hc
      obtain ⟨v, hv⟩ := h.exists_denotes hc
      exact ⟨v, hv.mono (by norm_num)⟩
    · rw [if_pos hall]
      exact h.zero_cons.read?_eq (by norm_num)
  | @padded ds _ h hlarge hlimit =>
    have hall : ¬ ds.all Digit.isOctal = true := by
      intro hoctal
      rw [List.all_eq_true] at hoctal
      rcases hlarge with hmem | hmem
      · exact absurd (hoctal _ hmem) (by decide)
      · exact absurd (hoctal _ hmem) (by decide)
    refine name_of_leading_zero hcs hsuffix h.1 (fun c hc => h.exists_denotes hc) ?_
    rw [if_neg hall]
    exact h.zero_cons.read?_eq fun _ => hlimit

/-- All spellings of `n`, with separators anywhere, have one name: the text of the only value that is
nearest to `n`. -/
theorem name_of_integer_spellings (n : ℕ) :
    ∃ v, (∀ w, Binary64.IsNearest false n w ↔ w = v) ∧
      ∀ raw : List Char, Spells (raw.filter (· ≠ '_')) n → name raw = format v := by
  have hnearest := Binary64.isNearest_nearest false n one_pos
  rw [Nat.cast_one, div_one] at hnearest
  refine ⟨Binary64.nearest false n 1, fun w => ⟨fun hw => hw.unique hnearest, ?_⟩, ?_⟩
  · rintro rfl
    exact hnearest
  · intro raw h
    exact h.name_eq rfl

def halfway : ℕ := 9007199254740993

theorem spells_halfway_decimal : Spells "9007199254740993".toList halfway :=
  .decimal ⟨by decide, [9, 0, 0, 7, 1, 9, 9, 2, 5, 4, 7, 4, 0, 9, 9, 3], by decide, by decide⟩
    (by decide)

theorem spells_halfway_marked : Spells "0X20000000000001".toList halfway :=
  @Spells.marked 'X' 16 _ _ (by decide)
    ⟨by decide, [2, 0, 0, 0, 0, 0, 0, 0, 0, 0, 0, 0, 0, 1], by decide, by decide⟩

theorem spells_halfway_octal : Spells "0400000000000000001".toList halfway :=
  .octal ⟨by decide, [4, 0, 0, 0, 0, 0, 0, 0, 0, 0, 0, 0, 0, 0, 0, 0, 0, 1], by decide, by decide⟩

theorem spells_halfway_padded : Spells "009007199254740993".toList halfway :=
  .padded ⟨by decide, [0, 9, 0, 0, 7, 1, 9, 9, 2, 5, 4, 7, 4, 0, 9, 9, 3], by decide, by decide⟩
    (by decide) (by decide)

theorem name_of_integer_spellings_halfway :
    ∀ raw ∈ ["9_007_199_254_740_993".toList, "0X20_0000_0000_0001".toList,
        "0400000000000000001".toList, "009007199254740993".toList],
      Spells (raw.filter (· ≠ '_')) halfway ∧ name raw = "9007199254740992".toList := by
  obtain ⟨v, -, hv⟩ := name_of_integer_spellings halfway
  have hdecimal : name "9007199254740993".toList = "9007199254740992".toList := by decide +kernel
  have htext : format v = "9007199254740992".toList := by
    rw [← hdecimal]
    exact (hv "9007199254740993".toList spells_halfway_decimal).symm
  have hname : ∀ raw : List Char, Spells (raw.filter (· ≠ '_')) halfway →
      Spells (raw.filter (· ≠ '_')) halfway ∧ name raw = "9007199254740992".toList :=
    fun raw h => ⟨h, (hv raw h).trans htext⟩
  rintro raw (_ | ⟨_, _ | ⟨_, _ | ⟨_, _ | ⟨_, ⟨⟩⟩⟩⟩⟩)
  · exact hname _ spells_halfway_decimal
  · exact hname _ spells_halfway_marked
  · exact hname _ spells_halfway_octal
  · exact hname _ spells_halfway_padded

end Number

end ParamLint

import Mathlib.Data.List.Forall2
import Mathlib.Data.Nat.Digits.Defs
import Mathlib.Tactic.SplitIfs
import ParamLint.Number.Integer
import ParamLint.Proofs.Pointwise

/-!
# Numerals that are read

Digits in a base up to sixteen and the number they stand for, the first digit being the most
significant. A numeral without blanks, signs and underscores is read as this number, with the mark of
its base in front or without it. In base ten it may not be too long.
-/
namespace ParamLint

namespace Digit

/-- `c` is a digit in `base`, which is at most sixteen, and `v` its value. Letters may be small or
capital. -/
def Denotes (base : Nat) (c : Char) (v : Nat) : Prop :=
  v < base ∧ v < 16 ∧ (c = v.digitChar ∨ c = v.digitChar.toUpper)

instance (base : Nat) (c : Char) (v : Nat) : Decidable (Denotes base c v) :=
  inferInstanceAs (Decidable (_ ∧ _ ∧ _))

/-- A character that has no part in how a numeral is cut out of its surroundings. -/
structure IsPlain (c : Char) : Prop where
  ascii : toAscii c = c
  blank : isPlainBlank c = false
  minus : c ≠ '-'
  plus : c ≠ '+'

instance (c : Char) : Decidable (IsPlain c) :=
  decidable_of_iff (toAscii c = c ∧ isPlainBlank c = false ∧ c ≠ '-' ∧ c ≠ '+')
    ⟨fun ⟨ha, hb, hm, hp⟩ => ⟨ha, hb, hm, hp⟩, fun h => ⟨h.ascii, h.blank, h.minus, h.plus⟩⟩

namespace Denotes

variable {base v : Nat} {c : Char}

theorem of_spellings {p : Char → Nat → Prop}
    (hall : ∀ v < 16, p v.digitChar v ∧ p v.digitChar.toUpper v) (h : Denotes base c v) : p c v := by
  obtain ⟨-, hv, rfl | rfl⟩ := h
  · exact (hall v hv).1
  · exact (hall v hv).2

theorem value?_eq (h : Denotes base c v) : value? c = some v :=
  h.of_spellings (p := fun c v => value? c = some v) (by decide)

theorem isPlain (h : Denotes base c v) : IsPlain c :=
  h.of_spellings (p := fun c _ => IsPlain c) (by decide)

theorem ne_underscore (h : Denotes base c v) : c ≠ '_' :=
  h.of_spellings (p := fun c _ => c ≠ '_') (by decide)

theorem mono {base' : Nat} (h : Denotes base c v) (hle : base ≤ base') : Denotes base' c v :=
  ⟨h.1.trans_le hle, h.2⟩

/-- A digit that is also the mark of a base is none of the digits in that base. -/
theorem markBase?_ne (h : Denotes base c v) : Integer.markBase? c ≠ some base := by
  have hmark : ∀ b, Integer.markBase? c = some b → b ≤ v :=
    h.of_spellings (p := fun c v => ∀ b, Integer.markBase? c = some b → b ≤ v) (by decide)
  intro hbase
  have hle := hmark base hbase
  have hlt := h.1
  omega

end Denotes

theorem isOctal_iff {c : Char} : isOctal c ↔ ∃ v, Denotes 8 c v := by
  constructor
  · intro h
    have hrange : 48 ≤ c.toNat ∧ c.toNat ≤ 55 := by
      simpa [isOctal, Char.le_def, UInt32.le_iff_toNat_le] using h
    refine ⟨c.toNat - 48, by omega, by omega, .inl (Char.toNat_inj.mp ?_)⟩
    rw [Nat.toNat_digitChar_of_lt_ten (by omega)]
    omega
  · rintro ⟨v, h⟩
    have hoctal : v < 8 → isOctal c :=
      h.of_spellings (p := fun c v => v < 8 → isOctal c) (by decide)
    exact hoctal h.1

theorem trimBlanks_of_no_blank {cs : List Char} (h : ∀ c ∈ cs, isPlainBlank c = false) :
    trimBlanks cs = cs := by
  have hdrop : ∀ ds : List Char, (∀ c ∈ ds, isPlainBlank c = false) →
      ds.dropWhile isPlainBlank = ds := by
    intro ds hds
    cases ds with
    | nil => rfl
    | cons c ds =>
      have hc := hds c List.mem_cons_self
      exact List.dropWhile_cons_of_neg (by simp [hc])
  have hreverse : ∀ c ∈ cs.reverse, isPlainBlank c = false :=
    fun c hc => h c (List.mem_reverse.mp hc)
  rw [trimBlanks, hdrop cs h, hdrop cs.reverse hreverse, List.reverse_reverse]

end Digit

namespace Integer

open Digit (Denotes IsPlain)

/-- `cs` are digits in `base`, at least one, and `n` is their number. -/
def IsNumeral (base : Nat) (cs : List Char) (n : Nat) : Prop :=
  cs ≠ [] ∧ ∃ vs : List Nat, List.Forall₂ (Denotes base) cs vs ∧ n = Nat.ofDigits base vs.reverse

variable {base n : Nat} {cs : List Char}

theorem digitsFrom_cons {c : Char} {v : Nat} (h : Denotes base c v) (value : Nat)
    (afterDigit : Bool) (cs : List Char) :
    digitsFrom base value afterDigit (c :: cs) = digitsFrom base (value * base + v) true cs := by
  rw [digitsFrom]
  · rw [h.value?_eq]
    exact if_pos h.1
  · exact h.ne_underscore

theorem digitsFrom_eq {vs : List Nat} (h : List.Forall₂ (Denotes base) cs vs) (value : Nat) :
    digitsFrom base value true cs = some (vs.foldl (fun n v => n * base + v) value) := by
  induction h generalizing value with
  | nil => rfl
  | cons hc _ ih => rw [digitsFrom_cons hc, ih, List.foldl_cons]

theorem foldl_eq_ofDigits (base : Nat) (vs : List Nat) :
    vs.foldl (fun n v => n * base + v) 0 = Nat.ofDigits base vs.reverse := by
  rw [Nat.ofDigits_eq_foldr, List.foldr_reverse]
  congr
  funext n v
  rw [Nat.cast_id, Nat.mul_comm, Nat.add_comm]

theorem IsNumeral.digits?_eq (h : IsNumeral base cs n) : digits? base cs = some n := by
  obtain ⟨hne, vs, hvs, rfl⟩ := h
  cases hvs with
  | nil => exact absurd rfl hne
  | @cons c v cs vs hc hvs =>
    rw [digits?, digitsFrom_cons hc, digitsFrom_eq hvs, ← foldl_eq_ofDigits, List.foldl_cons]

theorem IsNumeral.exists_denotes (h : IsNumeral base cs n) {c : Char} (hc : c ∈ cs) :
    ∃ v, Denotes base c v := by
  obtain ⟨-, vs, hvs, -⟩ := h
  induction hvs with
  | nil => cases hc
  | cons hdigit _ ih =>
    rcases List.mem_cons.mp hc with rfl | hc
    · exact ⟨_, hdigit⟩
    · exact ih hc

theorem IsNumeral.unique {m : Nat} (h : IsNumeral base cs n) (h' : IsNumeral base cs m) : n = m := by
  have hn := h.digits?_eq
  rw [h'.digits?_eq] at hn
  exact (Option.some.inj hn).symm

theorem IsNumeral.lt_pow (h : IsNumeral base cs n) (hbase : 1 < base) : n < base ^ cs.length := by
  obtain ⟨-, vs, hvs, rfl⟩ := h
  have hdigits : ∀ v ∈ vs, v < base := by
    clear hbase
    induction hvs with
    | nil => simp
    | cons hdigit _ ih => simpa using ⟨hdigit.1, ih⟩
  rw [hvs.length_eq, ← List.length_reverse]
  exact Nat.ofDigits_lt_base_pow_length hbase fun v hv => hdigits v (List.mem_reverse.mp hv)

theorem exists_isNumeral (hne : cs ≠ []) (h : ∀ c ∈ cs, ∃ v, Denotes base c v) :
    ∃ n, IsNumeral base cs n := by
  obtain ⟨vs, hvs⟩ := exists_forall₂ h
  exact ⟨_, hne, vs, hvs, rfl⟩

theorem IsNumeral.zero_cons (h : IsNumeral base cs n) : IsNumeral base ('0' :: cs) n := by
  obtain ⟨hne, vs, hvs, rfl⟩ := h
  have hbase : 0 < base := by
    cases hvs with
    | nil => exact absurd rfl hne
    | cons hdigit _ => exact (Nat.zero_le _).trans_lt hdigit.1
  have hzero : Denotes base '0' 0 := ⟨hbase, by decide, .inl rfl⟩
  refine ⟨List.cons_ne_nil '0' _, 0 :: vs, .cons hzero hvs, ?_⟩
  rw [List.reverse_cons, Nat.ofDigits_append_zero]

theorem IsNumeral.isPlain (h : IsNumeral base cs n) : ∀ c ∈ cs, IsPlain c := by
  intro c hc
  obtain ⟨v, hv⟩ := h.exists_denotes hc
  exact hv.isPlain

theorem splitSign_of_isPlain (h : ∀ c ∈ cs, IsPlain c) :
    splitSign (Digit.trimBlanks (cs.map Digit.toAscii)) = (false, cs) := by
  rw [List.map_congr_left fun c hc => (h c hc).ascii, List.map_id',
    Digit.trimBlanks_of_no_blank fun c hc => (h c hc).blank]
  cases cs with
  | nil => rfl
  | cons c cs =>
    have hc := h c List.mem_cons_self
    rw [splitSign]
    · intro rest heq
      exact hc.minus (List.cons.inj heq).1
    · intro rest heq
      exact hc.plus (List.cons.inj heq).1

theorem read?_of_isPlain (h : ∀ c ∈ cs, IsPlain c)
    (hlimit : base = 10 → (dropMark base cs).length ≤ digitLimit) :
    read? base cs = (digits? base (dropMark base cs)).map (signed false) := by
  have hshort : ¬ (base = 10 ∧ digitLimit < (dropMark base cs).countP (· ≠ '_')) := by
    rintro ⟨hten, hlong⟩
    have hcount : (dropMark base cs).countP (· ≠ '_') ≤ (dropMark base cs).length :=
      List.countP_le_length
    have hlength := hlimit hten
    omega
  rw [read?, splitSign_of_isPlain h]
  exact if_neg hshort

theorem IsNumeral.read?_eq (h : IsNumeral base cs n) (hlimit : base = 10 → cs.length ≤ digitLimit) :
    read? base cs = some (n : Int) := by
  have hmark : dropMark base cs = cs := by
    unfold dropMark
    split
    · rename_i m rest
      obtain ⟨v, hv⟩ := h.exists_denotes (List.mem_cons_of_mem '0' List.mem_cons_self)
      exact if_neg hv.markBase?_ne
    · rfl
  rw [read?_of_isPlain h.isPlain (by rwa [hmark]), hmark, h.digits?_eq]
  rfl

def marks : List (Char × Nat) := [('x', 16), ('X', 16), ('o', 8), ('O', 8), ('b', 2), ('B', 2)]

theorem markBase?_eq_some_iff {m : Char} : markBase? m = some base ↔ (m, base) ∈ marks := by
  constructor
  · intro h
    unfold markBase? at h
    split_ifs at h with hx ho hb
    · cases h
      rcases hx with rfl | rfl <;> decide
    · cases h
      rcases ho with rfl | rfl <;> decide
    · cases h
      rcases hb with rfl | rfl <;> decide
  · intro h
    have hmarks : ∀ e ∈ marks, markBase? e.1 = some e.2 := by decide
    exact hmarks (m, base) h

theorem IsNumeral.read?_marked (h : IsNumeral base cs n) {m : Char}
    (hm : markBase? m = some base) : read? base ('0' :: m :: cs) = some (n : Int) := by
  have hmark : dropMark base ('0' :: m :: cs) = cs := by
    simp only [dropMark, if_pos hm]
    split
    · obtain ⟨v, hv⟩ := h.exists_denotes List.mem_cons_self
      exact absurd rfl hv.ne_underscore
    · rfl
  have hmarks : ∀ e ∈ marks, IsPlain e.1 ∧ e.2 ≠ 10 := by decide
  obtain ⟨hplain, hten⟩ := hmarks (m, base) (markBase?_eq_some_iff.mp hm)
  have hall : ∀ c ∈ '0' :: m :: cs, IsPlain c := by
    rintro c (_ | ⟨_, _ | ⟨_, hc⟩⟩)
    · decide
    · exact hplain
    · exact h.isPlain c hc
  rw [read?_of_isPlain hall fun h10 => absurd h10 hten, hmark, h.digits?_eq]
  rfl

end Integer

end ParamLint

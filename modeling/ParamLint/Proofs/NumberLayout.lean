import ParamLint.Number.Name
import ParamLint.Proofs.ShortestDigits

/-!
# How numbers are written

The name of a finite value is a decimal numeral that stands for its shortest digits exactly. Between
`0.000001` and `10 ^ 21` it is positional, and no digit or point in it could be left out; beyond
these bounds one digit stands before the point, and the power of ten has a sign and no leading zero.
-/
namespace ParamLint.Number

open Binary64 (decadic IsCanonical)
open Shortest (IsShortest)

/-- The parts of a decimal numeral: the digits before the point, those after it if there is a point,
and the sign and the digits of the power of ten if it is given. -/
structure Numeral where
  negative : Bool
  whole : List Char
  fraction : Option (List Char)
  exponent : Option (Bool × List Char)

namespace Numeral

def exponentText (p : Numeral) : List Char :=
  p.exponent.elim [] fun x => 'e' :: (if x.1 then '-' else '+') :: x.2

def fractionText (p : Numeral) : List Char := p.fraction.elim [] ('.' :: ·)

def unsignedText (p : Numeral) : List Char := p.whole ++ (p.fractionText ++ p.exponentText)

def text (p : Numeral) : List Char := if p.negative then '-' :: p.unsignedText else p.unsignedText

/-- All parts are made of digits. There may be none after the point. -/
structure IsDecimal (p : Numeral) : Prop where
  whole : p.whole ≠ [] ∧ ∀ c ∈ p.whole, c.isDigit
  fraction : ∀ ds ∈ p.fraction, ∀ c ∈ ds, c.isDigit
  exponent : ∀ x ∈ p.exponent, x.2 ≠ [] ∧ ∀ c ∈ x.2, c.isDigit

def coefficient (p : Numeral) : ℕ := Nat.ofDigitChars 10 (p.whole ++ p.fraction.getD []) 0

def power (p : Numeral) : ℤ :=
  p.exponent.elim 0 (fun x => Integer.signed x.1 (Nat.ofDigitChars 10 x.2 0)) -
    (p.fraction.getD []).length

def value (p : Numeral) : ℚ := (if p.negative then -1 else 1) * decadic p.coefficient p.power

/-- There are digits after a point, and the last of them is not zero. -/
def HasTightFraction (p : Numeral) : Prop :=
  ∀ ds ∈ p.fraction, ∃ d ∈ ds.getLast?, d ≠ '0'

/-- No power of ten, and no zero too many at either end. -/
structure IsPositional (p : Numeral) : Prop where
  exponent : p.exponent = none
  whole : p.whole.head? = some '0' → p.whole = ['0']
  fraction : p.HasTightFraction

/-- One digit before the point, and a power of ten without leading zeros. -/
structure IsScientific (p : Numeral) : Prop where
  exponent : ∃ negative ds, p.exponent = some (negative, ds) ∧ ds.head? ≠ some '0'
  whole : ∃ d, p.whole = [d] ∧ d ≠ '0'
  fraction : p.HasTightFraction

end Numeral

/-! The digits of a number -/

section Digits

variable {c : ℕ}

theorem head?_toDigits_ne (hc : 0 < c) : (Nat.toDigits 10 c).head? ≠ some '0' := by
  induction c using Nat.strongRecOn with
  | ind c ih =>
    rcases Nat.lt_or_ge c 10 with hlt | hge
    · rw [Nat.toDigits_of_lt_base hlt]
      simpa using hc.ne'
    · rw [Nat.toDigits_of_base_le (by decide) hge,
        List.head?_append_of_ne_nil _ Nat.toDigits_ne_nil]
      exact ih (c / 10) (by omega) (by omega)

theorem exists_getLast?_toDigits (hc : c % 10 ≠ 0) :
    ∃ d ∈ (Nat.toDigits 10 c).getLast?, d ≠ '0' := by
  refine ⟨(c % 10).digitChar, ?_, mt Nat.digitChar_eq_zero.mp hc⟩
  rw [Nat.toDigits_eq_if (by decide)]
  split_ifs with hlt
  · rw [Nat.mod_eq_of_lt hlt]
    rfl
  · simp

theorem isDigit_of_mem_toDigits {d : Char} (hd : d ∈ Nat.toDigits 10 c) : d.isDigit :=
  Nat.isDigit_of_mem_toDigits (by decide) le_rfl hd

theorem signed_natAbs (e : ℤ) : Integer.signed (decide (e < 0)) e.natAbs = e := by
  by_cases he : e < 0
  · rw [Integer.signed, if_pos (decide_eq_true he)]
    omega
  · rw [Integer.signed, if_neg (by simpa using he)]
    omega

end Digits

/-- `p` stands for the digits of `c`, the last of them at `10 ^ g`, and is laid out as the power of
ten before the first one asks for. -/
structure Numeral.Shows (p : Numeral) (c : ℕ) (g : ℤ) : Prop extends p.IsDecimal where
  value : decadic p.coefficient p.power = decadic c g
  exponent_iff : p.exponent.isSome ↔
    21 < g + (Nat.toDigits 10 c).length ∨ g + (Nat.toDigits 10 c).length ≤ -6
  positional : p.exponent = none → p.IsPositional
  scientific : p.exponent.isSome → p.IsScientific

theorem layout_cases {ds : List Char} (hds : ds ≠ []) (n : ℤ) :
    (ds.length ≤ n ∧ n ≤ 21 ∧ layout ds n = ds ++ List.replicate (n.toNat - ds.length) '0') ∨
    (0 < n ∧ n < ds.length ∧ n ≤ 21 ∧
      layout ds n = ds.take n.toNat ++ '.' :: ds.drop n.toNat) ∨
    (-6 < n ∧ n ≤ 0 ∧
      layout ds n = '0' :: '.' :: (List.replicate (-n).toNat '0' ++ ds)) ∨
    ((21 < n ∨ n ≤ -6) ∧ ∃ d rest, ds = d :: rest ∧ layout ds n =
      d :: (if rest = [] then [] else '.' :: rest) ++
        'e' :: (if 0 ≤ n - 1 then '+' else '-') :: Nat.toDigits 10 (n - 1).natAbs) := by
  obtain ⟨d, rest, rfl⟩ := List.exists_cons_of_ne_nil hds
  have hlength : 0 < (d :: rest).length := List.length_pos_iff.mpr hds
  unfold layout
  dsimp only
  by_cases hinteger : ((d :: rest).length : ℤ) ≤ n ∧ n ≤ 21
  · exact .inl ⟨hinteger.1, hinteger.2, if_pos hinteger⟩
  rw [if_neg hinteger]
  by_cases hpoint : 0 < n ∧ n ≤ 21
  · exact .inr (.inl ⟨hpoint.1, by omega, hpoint.2, if_pos hpoint⟩)
  rw [if_neg hpoint]
  by_cases hzeros : -6 < n ∧ n ≤ 0
  · exact .inr (.inr (.inl ⟨hzeros.1, hzeros.2, if_pos hzeros⟩))
  rw [if_neg hzeros]
  refine .inr (.inr (.inr ⟨by omega, d, rest, rfl, ?_⟩))
  cases rest with
  | nil => rfl
  | cons d' rest => rfl

section Shows

variable (negative : Bool) {c : ℕ} {g n : ℤ}

theorem shows_integer (hc : c % 10 ≠ 0) (hn : n = g + (Nat.toDigits 10 c).length)
    (hlow : (Nat.toDigits 10 c).length ≤ n) (hhigh : n ≤ 21) :
    Numeral.Shows ⟨negative, Nat.toDigits 10 c ++
      List.replicate (n.toNat - (Nat.toDigits 10 c).length) '0', none, none⟩ c g := by
  have hhead : (Nat.toDigits 10 c).head? ≠ some '0' := head?_toDigits_ne (by omega)
  have hne : Nat.toDigits 10 c ≠ [] := Nat.toDigits_ne_nil
  have hlength : 0 < (Nat.toDigits 10 c).length := Nat.length_toDigits_pos
  refine ⟨⟨⟨by simp [hne], ?_⟩, by simp, by simp⟩, ?_, ?_, fun _ => ⟨rfl, ?_, nofun⟩, by simp⟩
  · intro d hd
    rcases List.mem_append.mp hd with hd | hd
    · exact isDigit_of_mem_toDigits hd
    · rw [List.eq_of_mem_replicate hd]
      rfl
  · have hg : (0 : ℤ) ≤ g := by omega
    have hzeros : n.toNat - (Nat.toDigits 10 c).length = (g - 0).toNat := by omega
    rw [Binary64.decadic_eq_of_le hg, Numeral.coefficient, Option.getD_none, List.append_nil,
      Nat.ofDigitChars_append, Nat.ofDigitChars_ten_toDigits, Nat.ofDigitChars_replicate_zero,
      Nat.mul_comm, hzeros]
    rfl
  · simp only [Option.isSome_none, Bool.false_eq_true, false_iff]
    omega
  · intro hzero
    rw [List.head?_append_of_ne_nil _ hne] at hzero
    exact absurd hzero hhead

theorem shows_point (hc : c % 10 ≠ 0) (hn : n = g + (Nat.toDigits 10 c).length) (hlow : 0 < n)
    (hlt : n < (Nat.toDigits 10 c).length) (hhigh : n ≤ 21) :
    Numeral.Shows ⟨negative, (Nat.toDigits 10 c).take n.toNat,
      some ((Nat.toDigits 10 c).drop n.toNat), none⟩ c g := by
  have hhead : (Nat.toDigits 10 c).head? ≠ some '0' := head?_toDigits_ne (by omega)
  obtain ⟨d, hlast, hd⟩ := exists_getLast?_toDigits hc
  obtain ⟨j, rfl⟩ : ∃ j : ℕ, n = j := ⟨n.toNat, by omega⟩
  rw [Int.toNat_natCast]
  refine ⟨⟨⟨?_, ?_⟩, ?_, by simp⟩, ?_, ?_, fun _ => ⟨rfl, ?_, ?_⟩, by simp⟩
  · simp only [ne_eq, List.take_eq_nil_iff, Nat.toDigits_ne_nil, or_false]
    omega
  · exact fun d hd => isDigit_of_mem_toDigits (List.mem_of_mem_take hd)
  · rintro ds ⟨⟩ d hd
    exact isDigit_of_mem_toDigits (List.mem_of_mem_drop hd)
  · rw [Numeral.coefficient, Option.getD_some, List.take_append_drop,
      Nat.ofDigitChars_ten_toDigits, Numeral.power, Option.getD_some, List.length_drop,
      Option.elim_none]
    congr 1
    omega
  · simp only [Option.isSome_none, Bool.false_eq_true, false_iff]
    omega
  · intro hzero
    rw [List.head?_take, if_neg (by omega)] at hzero
    exact absurd hzero hhead
  · rintro ds ⟨⟩
    refine ⟨d, ?_, hd⟩
    rw [List.getLast?_drop, if_neg (by omega)]
    exact hlast

theorem shows_zeros (hc : c % 10 ≠ 0) (hn : n = g + (Nat.toDigits 10 c).length)
    (hlow : -6 < n) (hhigh : n ≤ 0) :
    Numeral.Shows ⟨negative, ['0'], some (List.replicate (-n).toNat '0' ++ Nat.toDigits 10 c), none⟩
      c g := by
  obtain ⟨d, hlast, hd⟩ := exists_getLast?_toDigits hc
  refine ⟨⟨⟨by simp, by simp⟩, ?_, by simp⟩, ?_, ?_, fun _ => ⟨rfl, fun _ => rfl, ?_⟩, by simp⟩
  · rintro ds ⟨⟩ d hd
    rcases List.mem_append.mp hd with hd | hd
    · rw [List.eq_of_mem_replicate hd]
      rfl
    · exact isDigit_of_mem_toDigits hd
  · have hzeros : ['0'] ++ (List.replicate (-n).toNat '0' ++ Nat.toDigits 10 c) =
        List.replicate ((-n).toNat + 1) '0' ++ Nat.toDigits 10 c := rfl
    rw [Numeral.coefficient, Option.getD_some, hzeros, Nat.ofDigitChars_append,
      Nat.ofDigitChars_replicate_zero, Nat.mul_zero, Nat.ofDigitChars_ten_toDigits, Numeral.power,
      Option.getD_some, List.length_append, List.length_replicate, Option.elim_none]
    congr 1
    omega
  · simp only [Option.isSome_none, Bool.false_eq_true, false_iff]
    omega
  · rintro ds ⟨⟩
    refine ⟨d, ?_, hd⟩
    rw [List.getLast?_append_of_ne_nil _ Nat.toDigits_ne_nil]
    exact hlast

theorem shows_scientific (hc : c % 10 ≠ 0) (hn : n = g + (Nat.toDigits 10 c).length)
    (hfar : 21 < n ∨ n ≤ -6) {d : Char} {rest : List Char} (hds : Nat.toDigits 10 c = d :: rest) :
    Numeral.Shows ⟨negative, [d], if rest = [] then none else some rest,
      some (decide (n - 1 < 0), Nat.toDigits 10 (n - 1).natAbs)⟩ c g := by
  obtain ⟨a, hlast, ha⟩ := exists_getLast?_toDigits hc
  have hhead : (Nat.toDigits 10 c).head? ≠ some '0' := head?_toDigits_ne (by omega)
  have hexponent : (Nat.toDigits 10 (n - 1).natAbs).head? ≠ some '0' :=
    head?_toDigits_ne (by omega)
  have hlength : (Nat.toDigits 10 c).length = rest.length + 1 := by rw [hds, List.length_cons]
  have hdigits : ∀ b ∈ d :: rest, b.isDigit := by
    rw [← hds]
    exact fun b hb => isDigit_of_mem_toDigits hb
  have hmem : ∀ ds ∈ (if rest = [] then none else some rest), ds = rest ∧ rest ≠ [] := by
    intro ds hds
    split_ifs at hds with hnil
    · cases hds
    · exact ⟨(Option.some.inj hds).symm, hnil⟩
  have hfraction : (if rest = [] then none else some rest).getD [] = rest := by
    split_ifs with hnil
    · exact hnil.symm
    · rfl
  rw [hds] at hhead hlast
  refine ⟨⟨⟨by simp, ?_⟩, ?_, ?_⟩, ?_, ?_, by simp,
    fun _ => ⟨⟨_, _, rfl, hexponent⟩, ⟨d, rfl, ?_⟩, ?_⟩⟩
  · intro b hb
    exact hdigits b (List.mem_cons.mpr (.inl (List.mem_singleton.mp hb)))
  · intro ds hds b hb
    obtain ⟨rfl, -⟩ := hmem ds hds
    exact hdigits b (List.mem_cons_of_mem d hb)
  · rintro _ ⟨⟩
    exact ⟨Nat.toDigits_ne_nil, fun b hb => isDigit_of_mem_toDigits hb⟩
  · rw [Numeral.coefficient, Numeral.power, hfraction, List.singleton_append, ← hds,
      Nat.ofDigitChars_ten_toDigits, Option.elim_some, Nat.ofDigitChars_ten_toDigits, signed_natAbs]
    congr 1
    omega
  · rw [← hn]
    simpa using hfar
  · rintro rfl
    exact hhead rfl
  · intro ds hds
    obtain ⟨rfl, hnil⟩ := hmem ds hds
    refine ⟨a, ?_, ha⟩
    rwa [List.getLast?_cons_of_ne_nil hnil] at hlast

theorem exists_shows (hc : c % 10 ≠ 0) (g : ℤ) :
    ∃ p : Numeral, p.negative = negative ∧ p.Shows c g ∧
      layout (Nat.toDigits 10 c) (g + (Nat.toDigits 10 c).length) = p.unsignedText := by
  rcases layout_cases (Nat.toDigits_ne_nil (n := c) (b := 10)) (g + (Nat.toDigits 10 c).length) with
    ⟨hlow, hhigh, htext⟩ | ⟨hlow, hlt, hhigh, htext⟩ | ⟨hlow, hhigh, htext⟩ |
    ⟨hfar, d, rest, hds, htext⟩
  · refine ⟨_, rfl, shows_integer negative hc rfl hlow hhigh, htext.trans ?_⟩
    simp [Numeral.unsignedText, Numeral.fractionText, Numeral.exponentText]
  · refine ⟨_, rfl, shows_point negative hc rfl hlow hlt hhigh, htext.trans ?_⟩
    simp [Numeral.unsignedText, Numeral.fractionText, Numeral.exponentText]
  · refine ⟨_, rfl, shows_zeros negative hc rfl hlow hhigh, htext.trans ?_⟩
    simp [Numeral.unsignedText, Numeral.fractionText, Numeral.exponentText]
  · refine ⟨_, rfl, shows_scientific negative hc rfl hfar hds, htext.trans ?_⟩
    generalize g + ((Nat.toDigits 10 c).length : ℤ) - 1 = e
    have hsign : (if 0 ≤ e then '+' else '-') = if decide (e < 0) then '-' else '+' := by
      by_cases he : e < 0
      · rw [if_neg (by omega), if_pos (decide_eq_true he)]
      · rw [if_pos (by omega), if_neg (by simpa using he)]
    rw [hsign]
    cases rest with
    | nil => rfl
    | cons d' rest => rfl

end Shows

/-! Reading a numeral -/

theorem spanDigits_append {ds rest : List Char} (hds : ∀ c ∈ ds, c.isDigit)
    (hrest : ∀ c ∈ rest.head?, ¬ c.isDigit) : spanDigits (ds ++ rest) = (ds, rest) := by
  have hnone : rest.takeWhile (·.isDigit) = [] ∧ rest.dropWhile (·.isDigit) = rest := by
    cases rest with
    | nil => exact ⟨rfl, rfl⟩
    | cons c rest =>
      have hc := hrest c rfl
      exact ⟨List.takeWhile_cons_of_neg hc, List.dropWhile_cons_of_neg hc⟩
  rw [spanDigits, List.span_eq_takeWhile_dropWhile, List.takeWhile_append_of_pos hds,
    List.dropWhile_append_of_pos hds, hnone.1, hnone.2, List.append_nil]

namespace Numeral

variable {p q : Numeral}

theorem head?_exponentText (p : Numeral) : ∀ c ∈ p.exponentText.head?, c = 'e' := by
  rw [exponentText]
  cases p.exponent with
  | none => simp
  | some x => simp

theorem spanDigits_exponentText {ds : List Char} (hds : ∀ c ∈ ds, c.isDigit) (p : Numeral) :
    spanDigits (ds ++ p.exponentText) = (ds, p.exponentText) := by
  apply spanDigits_append hds
  intro c hc
  rw [p.head?_exponentText c hc]
  decide

theorem spanDigits_unsignedText (h : p.IsDecimal) :
    spanDigits p.unsignedText = (p.whole, p.fractionText ++ p.exponentText) := by
  rw [unsignedText, fractionText]
  cases p.fraction with
  | none => exact spanDigits_exponentText h.whole.2 p
  | some ds => exact spanDigits_append h.whole.2 (by simp)

theorem exists_unsignedText (h : p.IsDecimal) :
    ∃ c rest, p.unsignedText = c :: rest ∧ c.isDigit := by
  obtain ⟨c, ds, hwhole⟩ := List.exists_cons_of_ne_nil h.whole.1
  refine ⟨c, ds ++ (p.fractionText ++ p.exponentText), by rw [unsignedText, hwhole]; rfl, ?_⟩
  exact h.whole.2 c (by simp [hwhole])

theorem splitSign_text (h : p.IsDecimal) :
    Integer.splitSign p.text = (p.negative, p.unsignedText) := by
  obtain ⟨c, rest, htext, hc⟩ := exists_unsignedText h
  rw [text, htext]
  cases p.negative with
  | true => rfl
  | false =>
    rw [if_neg (by decide), Integer.splitSign]
    · rintro ds ⟨⟩
      simp at hc
    · rintro ds ⟨⟩
      simp at hc

theorem exponent_eq_of_text_eq (h : p.exponentText = q.exponentText) : p.exponent = q.exponent := by
  rw [exponentText, exponentText] at h
  cases hp : p.exponent with
  | none =>
    cases hq : q.exponent with
    | none => rfl
    | some y => simp [hp, hq] at h
  | some x =>
    cases hq : q.exponent with
    | none => simp [hp, hq] at h
    | some y =>
      obtain ⟨a, ds⟩ := x
      obtain ⟨b, ds'⟩ := y
      simp only [hp, hq, Option.elim_some, List.cons.injEq, true_and] at h
      obtain ⟨hsign, rfl⟩ := h
      cases a <;> cases b <;> simp_all

theorem fraction_eq_of_text_eq (hp : p.IsDecimal) (hq : q.IsDecimal)
    (h : p.fractionText ++ p.exponentText = q.fractionText ++ q.exponentText) :
    p.fraction = q.fraction ∧ p.exponentText = q.exponentText := by
  have hother : ∀ (r : Numeral) (ds : List Char), '.' :: ds ≠ r.exponentText := by
    intro r ds heq
    exact absurd (r.head?_exponentText '.' (by rw [← heq]; rfl)) (by decide)
  rw [fractionText, fractionText] at h
  cases hp' : p.fraction with
  | none =>
    cases hq' : q.fraction with
    | none => exact ⟨rfl, by simpa [hp', hq'] using h⟩
    | some ds =>
      rw [hp', hq'] at h
      exact absurd h.symm (hother p _)
  | some ds =>
    cases hq' : q.fraction with
    | none =>
      rw [hp', hq'] at h
      exact absurd h (hother q _)
    | some ds' =>
      rw [hp', hq'] at h
      have htail : ds ++ p.exponentText = ds' ++ q.exponentText := (List.cons.inj h).2
      have hspan := congrArg spanDigits htail
      rw [spanDigits_exponentText (hp.fraction ds hp'),
        spanDigits_exponentText (hq.fraction ds' hq'), Prod.mk.injEq] at hspan
      exact ⟨congrArg some hspan.1, hspan.2⟩

/-- A text is read as a numeral in one way only. -/
theorem eq_of_text_eq (hp : p.IsDecimal) (hq : q.IsDecimal) (h : p.text = q.text) : p = q := by
  have hsign := congrArg Integer.splitSign h
  rw [splitSign_text hp, splitSign_text hq, Prod.mk.injEq] at hsign
  have hwhole := congrArg spanDigits hsign.2
  rw [spanDigits_unsignedText hp, spanDigits_unsignedText hq, Prod.mk.injEq] at hwhole
  obtain ⟨hfraction, hexponent⟩ := fraction_eq_of_text_eq hp hq hwhole.2
  have hexponent := exponent_eq_of_text_eq hexponent
  cases p
  cases q
  simp_all

end Numeral

/-! The text of a value -/

theorem exists_format_eq_text (negative : Bool) {m : ℕ} {e : ℤ} (h : IsCanonical m e) (hm : 0 < m) :
    ∃ c g, IsShortest m e c g ∧ ∃ p : Numeral, p.negative = negative ∧ p.Shows c g ∧
      format (.finite negative m e) = p.text := by
  have hshortest := Shortest.isShortest_decimal h hm
  obtain ⟨p, hsign, hshows, htext⟩ := exists_shows negative hshortest.last (Shortest.decimal m e).2
  refine ⟨_, _, hshortest, p, hsign, hshows, ?_⟩
  rw [Numeral.text, hsign, ← htext, format, if_neg hm.ne']

/-- The name of every value that is neither infinite nor zero. Its digits are the shortest ones,
`c`, and `n` is the power of ten before the first of them; the name is a numeral, in one way, it
stands for `0.c * 10 ^ n` exactly, and `n` alone decides between the two notations. -/
theorem format_ofBits {bits : ℕ} {negative : Bool} {m : ℕ} {e : ℤ}
    (hv : Binary64.ofBits bits = .finite negative m e) (hm : 0 < m) :
    ∃ (c : ℕ) (n : ℤ) (p : Numeral),
      (∀ c' g', IsShortest m e c' g' ↔ c' = c ∧ g' + (Nat.toDigits 10 c).length = n) ∧
      (∀ q : Numeral, q.IsDecimal ∧ q.text = format (Binary64.ofBits bits) ↔ q = p) ∧
      p.value = (if negative then -1 else 1) * (c / 10 ^ (Nat.toDigits 10 c).length * 10 ^ n) ∧
      (p.exponent.isSome ↔ 21 < n ∨ n ≤ -6) ∧
      (p.exponent = none → p.IsPositional) ∧ (p.exponent.isSome → p.IsScientific) := by
  have hcanonical : IsCanonical m e := by
    have hvalue := Binary64.isValue_ofBits bits
    rw [hv] at hvalue
    exact hvalue.1
  obtain ⟨c, g, hshortest, p, hsign, hshows, htext⟩ := exists_format_eq_text negative hcanonical hm
  refine ⟨c, g + (Nat.toDigits 10 c).length, p, ?_, ?_, ?_, hshows.exponent_iff, hshows.positional,
    hshows.scientific⟩
  · intro c' g'
    constructor
    · intro h
      obtain ⟨rfl, rfl⟩ := h.unique hshortest
      exact ⟨rfl, rfl⟩
    · rintro ⟨rfl, hg⟩
      rwa [add_right_cancel hg]
  · intro q
    rw [hv, htext]
    constructor
    · exact fun h => Numeral.eq_of_text_eq h.1 hshows.toIsDecimal h.2
    · rintro rfl
      exact ⟨hshows.toIsDecimal, rfl⟩
  · rw [Numeral.value, hsign, hshows.value, decadic, zpow_add₀ (by norm_num), zpow_natCast]
    field_simp

/-- The least value with an exponent, `10 ^ 21`. -/
theorem format_ofBits_least_scientific :
    ∃ p : Numeral, p.text = format (Binary64.ofBits 0x444B1AE4D6E2EF50) ∧
      p.IsScientific ∧ p.value = 10 ^ 21 := by
  have hv : Binary64.ofBits 0x444B1AE4D6E2EF50 = .finite false 7629394531250000 17 := by
    decide +kernel
  have hshortest : IsShortest 7629394531250000 17 1 21 := by
    have hdecimal : Shortest.decimal 7629394531250000 17 = (1, 21) := by decide +kernel
    have h := Shortest.isShortest_decimal
      (m := 7629394531250000) (e := 17) ⟨by norm_num, by norm_num, by norm_num⟩ (by norm_num)
    rwa [hdecimal] at h
  obtain ⟨c, n, p, hdigits, htext, hvalue, hexponent, -, hscientific⟩ :=
    format_ofBits hv (by norm_num)
  obtain ⟨rfl, rfl⟩ := (hdigits 1 21).mp hshortest
  refine ⟨p, ((htext p).mpr rfl).2, hscientific (hexponent.mpr (.inl (by decide))), ?_⟩
  rw [hvalue]
  norm_num [Nat.toDigits_of_lt_base]

end ParamLint.Number

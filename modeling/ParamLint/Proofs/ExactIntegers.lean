import Mathlib.Data.Nat.Factorization.Basic
import ParamLint.Proofs.IntegerNames
import ParamLint.Proofs.KeyOverflow
import ParamLint.Proofs.NumberLayout

/-!
# Integers with all their digits

An integer literal with the suffix `n` has the digits of its number for its name. Without the suffix
the number is rounded and written with the fewest digits; up to `2 ^ 53` nothing is lost by that,
and the name is the same.
-/
namespace ParamLint

namespace Binary64

variable {n m : ℕ} {e : ℤ}

theorem exists_dyadic_eq_natCast (hpos : 0 < n) (hn : n ≤ 2 ^ 53) :
    ∃ m e, IsCanonical m e ∧ dyadic m e = n := by
  rcases hn.eq_or_lt with rfl | hlt
  · refine ⟨2 ^ 52, 1, ⟨by norm_num, by norm_num, .inl le_rfl⟩, ?_⟩
    norm_num [dyadic]
  · have hlog : n.log2 < 53 := (Nat.log2_lt hpos.ne').mpr hlt
    have hlow : 2 ^ n.log2 ≤ n := Nat.log2_self_le hpos.ne'
    have hhigh : n < 2 ^ (n.log2 + 1) := Nat.lt_log2_self
    have hscale : 2 ^ n.log2 * 2 ^ (52 - n.log2) = 2 ^ 52 := by
      rw [← pow_add]
      congr 1
      omega
    refine ⟨n * 2 ^ (52 - n.log2), (n.log2 : ℤ) - 52, ⟨?_, by omega, .inl ?_⟩, ?_⟩
    · calc n * 2 ^ (52 - n.log2) < 2 ^ (n.log2 + 1) * 2 ^ (52 - n.log2) := by gcongr
        _ = 2 ^ 53 := by rw [pow_succ, mul_right_comm, hscale, ← pow_succ]
    · rw [← hscale]
      gcongr
    · have hpow : (n.log2 : ℤ) - 52 = -((52 - n.log2 : ℕ) : ℤ) := by omega
      rw [dyadic, hpow, zpow_neg, zpow_natCast]
      push_cast
      field_simp

theorem IsRounding.eq_of_dyadic {x : ℚ} {m' : ℕ} {e' : ℤ} (h : IsRounding x m e)
    (h' : IsCanonical m' e') (hx : dyadic m' e' = x) : dyadic m e = x := by
  have hnearest := h.nearest m' e' h'
  rw [hx, sub_self, abs_zero] at hnearest
  exact (sub_eq_zero.mp (abs_nonpos_iff.mp hnearest)).symm

theorem IsRounding.eq_natCast (h : IsRounding n m e) (hpos : 0 < n) (hn : n ≤ 2 ^ 53) :
    dyadic m e = n := by
  obtain ⟨m', e', hcanonical, hvalue⟩ := exists_dyadic_eq_natCast hpos hn
  exact h.eq_of_dyadic hcanonical hvalue

theorem exists_nearest_natCast (hpos : 0 < n) (hn : n ≤ 2 ^ 53) :
    ∃ m e, IsRounding n m e ∧ 0 < m ∧ nearest false n 1 = finite false m e := by
  obtain ⟨m, e, hround, hvalue⟩ := isNearest_nearest_natCast false n
  have hexact := hround.eq_natCast hpos hn
  have hend : ¬ (2 : ℚ) ^ 1024 ≤ dyadic m e := by
    have hn' : (n : ℚ) ≤ 2 ^ 53 := by exact_mod_cast hn
    have hpow : (2 : ℚ) ^ 53 < 2 ^ 1024 := pow_lt_pow_right₀ (by norm_num) (by norm_num)
    rw [hexact]
    exact not_le.mpr (hn'.trans_lt hpow)
  refine ⟨m, e, hround, Nat.pos_of_ne_zero ?_, by rw [hvalue, if_neg hend]⟩
  rintro rfl
  rw [dyadic, Nat.cast_zero, zero_mul] at hexact
  exact hpos.ne (by exact_mod_cast hexact)

end Binary64

namespace Shortest

open Binary64 (dyadic decadic IsRounding)

variable {n c m : ℕ} {e g : ℤ}

/-- An integer that rounds to one up to `2 ^ 53` is this one, or the next after `2 ^ 53`. -/
theorem eq_or_next_of_isRounding {k : ℕ} (hn : n ≤ 2 ^ 53) (hvalue : dyadic m e = n) (hpos : 0 < k)
    (h : IsRounding k m e) : k = n ∨ n = 2 ^ 53 ∧ k = 2 ^ 53 + 1 := by
  rcases le_or_gt k (2 ^ 53) with hk | hk
  · have heq := h.eq_natCast hpos hk
    rw [hvalue] at heq
    exact .inl (by exact_mod_cast heq.symm)
  -- the two values next to `2 ^ 53 + 1` are not nearer to `k` than `n` is
  have hfar : ∀ a : ℕ, 2 ^ 52 ≤ a → a < 2 ^ 53 → 2 * a ≤ k → 2 * a ≤ n := by
    intro a hlow hhigh hle
    have hdouble : dyadic a 1 = (2 * a : ℕ) := by
      rw [dyadic, zpow_one]
      push_cast
      ring
    have hnearest := h.nearest a 1 ⟨hhigh, by norm_num, .inl hlow⟩
    have hle' : ((2 * a : ℕ) : ℚ) ≤ k := by exact_mod_cast hle
    rw [hvalue, hdouble, abs_of_nonneg (sub_nonneg.mpr hle')] at hnearest
    have habs := (le_abs_self _).trans hnearest
    exact_mod_cast (sub_le_sub_iff_left _).mp habs
  have hfirst := hfar (2 ^ 52) le_rfl (by norm_num) (by omega)
  refine .inr ⟨by omega, ?_⟩
  by_contra! hne
  have hsecond := hfar (2 ^ 52 + 1) (by norm_num) (by norm_num) (by omega)
  omega

/-- The next integer after `2 ^ 53` does not end in zero, and has as many digits. -/
theorem length_of_mul_eq_next {k : ℕ} (h : c * 10 ^ k = 2 ^ 53 + 1) :
    (Nat.toDigits 10 (2 ^ 53)).length ≤ (Nat.toDigits 10 c).length := by
  cases k with
  | zero =>
    obtain rfl : c = 2 ^ 53 + 1 := by omega
    rw [Nat.length_toDigits_le_iff (by decide) Nat.length_toDigits_pos]
    obtain ⟨k, hlength, -, hlt⟩ := Binary64.exists_length_toDigits (Nat.succ_pos (2 ^ 53))
    rw [hlength]
    omega
  | succ k =>
    rw [pow_succ, ← mul_assoc] at h
    omega

theorem IsShortest.decadic_eq_natCast (h : IsShortest m e c g) (hpos : 0 < n) (hn : n ≤ 2 ^ 53)
    (hround : IsRounding n m e) : decadic c g = n := by
  have hvalue := hround.eq_natCast hpos hn
  have hown : decadic n 0 = n := by rw [decadic, zpow_zero, mul_one]
  have hc : 0 < c := Nat.pos_of_ne_zero fun hzero => h.last (by rw [hzero])
  have hfewest := h.fewest n 0 (by rwa [hown])
  rcases hfewest.eq_or_lt with hlength | hlength
  · have hnearest := h.nearest n 0 (by rwa [hown]) hlength.symm
    rw [hown, hvalue, sub_self, abs_zero] at hnearest
    exact (sub_eq_zero.mp (abs_nonpos_iff.mp hnearest)).symm
  rcases lt_or_ge g 0 with hg | hg
  · -- with fewer digits, some of them after the point, the decimal is nearer to zero
    obtain ⟨-, hhigh⟩ := Binary64.decadic_bounds hc g
    obtain ⟨hlow, -⟩ := Binary64.decadic_bounds hpos 0
    have hpow : (10 : ℚ) ^ ((Nat.toDigits 10 c).length + g) ≤
        10 ^ ((Nat.toDigits 10 n).length + 0 - 1 - 1 : ℤ) :=
      zpow_le_zpow_right₀ (by norm_num) (by omega)
    rw [zpow_sub_one₀ (by norm_num)] at hpow
    have hzero := h.rounds.nearest 0 (-1074) ⟨by norm_num, le_rfl, .inr rfl⟩
    rw [hown] at hlow
    rw [hvalue, dyadic, Nat.cast_zero, zero_mul, sub_zero,
      abs_of_nonneg (Binary64.decadic_nonneg c g)] at hzero
    have hdistance := (neg_abs_le (decadic c g - n)).trans' (neg_le_neg hzero)
    have hn' : (0 : ℚ) < n := by exact_mod_cast hpos
    linarith
  · have hnat : decadic c g = (c * 10 ^ g.toNat : ℕ) := by
      rw [Binary64.decadic_eq_of_le hg, decadic, zpow_zero, mul_one, sub_zero]
    have hrounds := h.rounds
    rw [hnat] at hrounds
    rcases eq_or_next_of_isRounding hn hvalue (by positivity) hrounds with heq | ⟨rfl, hnext⟩
    · rw [hnat, heq]
    · exact absurd hlength (length_of_mul_eq_next hnext).not_gt

end Shortest

namespace Number

open Binary64 (decadic)
open Integer (IsNumeral)

variable {n : ℕ} {cs raw : List Char}

/-! Names without the suffix -/

theorem toDigits_mul_ten_pow {c : ℕ} (hc : 0 < c) (k : ℕ) :
    Nat.toDigits 10 (c * 10 ^ k) = Nat.toDigits 10 c ++ List.replicate k '0' := by
  induction k with
  | zero => rw [pow_zero, mul_one, List.replicate_zero, List.append_nil]
  | succ k ih =>
    have happend := Nat.toDigits_append_toDigits (b := 10) (n := c * 10 ^ k) (d := 0)
      (by decide) (by positivity) (by decide)
    rw [add_zero, ← mul_left_comm, mul_comm 10, ← pow_succ, ih, Nat.toDigits_zero,
      List.append_assoc, ← List.replicate_succ'] at happend
    exact happend.symm

theorem layout_integer {c k : ℕ} (hc : 0 < c)
    (hshort : (Nat.toDigits 10 (c * 10 ^ k)).length ≤ 21) :
    layout (Nat.toDigits 10 c) (k + (Nat.toDigits 10 c).length) = Nat.toDigits 10 (c * 10 ^ k) := by
  have hdigits := toDigits_mul_ten_pow hc k
  have hzeros : ((k : ℤ) + (Nat.toDigits 10 c).length).toNat - (Nat.toDigits 10 c).length = k := by
    omega
  rw [hdigits, List.length_append, List.length_replicate] at hshort
  unfold layout
  dsimp only
  rw [if_pos (by omega), hzeros, hdigits]

/-- Up to `2 ^ 53` the text of the nearest value has the digits of the integer. -/
theorem format_nearest_natCast (hn : n ≤ 2 ^ 53) :
    format (Binary64.nearest false n 1) = Nat.toDigits 10 n := by
  rcases Nat.eq_zero_or_pos n with rfl | hpos
  · rw [Binary64.nearest, if_pos rfl, format, if_pos rfl]
    rfl
  obtain ⟨m, e, hround, hm, hvalue⟩ := Binary64.exists_nearest_natCast hpos hn
  have hshortest := Shortest.isShortest_decimal hround.toIsCanonical hm
  have hdecimal := hshortest.decadic_eq_natCast hpos hn hround
  -- the zeros at the end of the integer are those that the layout adds
  obtain ⟨k, c, hc, hzeros⟩ := Nat.exists_eq_pow_mul_and_not_dvd hpos.ne' 10 (by decide)
  obtain rfl : n = c * 10 ^ k := hzeros.trans (mul_comm _ _)
  have hlast : c % 10 ≠ 0 := mt Nat.dvd_of_mod_eq_zero hc
  have hown : decadic c k = (c * 10 ^ k : ℕ) := by
    rw [decadic, zpow_natCast]
    push_cast
    rfl
  obtain ⟨hfirst, hsecond⟩ :=
    Shortest.eq_of_decadic_eq hshortest.last hlast (hdecimal.trans hown.symm)
  rw [hvalue, format, if_neg hm.ne']
  dsimp only
  rw [hfirst, hsecond]
  apply layout_integer (by omega)
  exact (Nat.length_toDigits_le_iff (by decide) (by decide)).mpr (hn.trans_lt (by norm_num))

/-! Names with the suffix -/

/-- An integer literal with the suffix `n`, without separators, and its number. -/
inductive SpellsBig : List Char → ℕ → Prop
  | decimal {cs : List Char} {n : ℕ} (h : IsNumeral 10 cs n)
      (hzero : cs.head? = some '0' → cs = ['0']) : SpellsBig (cs ++ ['n']) n
  | marked {m : Char} {base : ℕ} {cs : List Char} {n : ℕ} (hm : (m, base) ∈ Integer.marks)
      (h : IsNumeral base cs n) : SpellsBig ('0' :: m :: cs ++ ['n']) n

theorem length_le_of_isNumeral {k : ℕ} (h : IsNumeral 10 cs n)
    (hzero : cs.head? = some '0' → cs = ['0']) (hk : 0 < k) (hn : n < 10 ^ k) : cs.length ≤ k := by
  obtain ⟨hne, vs, hvs, rfl⟩ := h
  cases hvs with
  | nil => exact absurd rfl hne
  | @cons c v ds vs hc hvs =>
    rw [List.length_cons, hvs.length_eq]
    rcases Nat.eq_zero_or_pos v with rfl | hv
    · obtain rfl : c = '0' := by
        obtain ⟨-, -, rfl | rfl⟩ := hc <;> rfl
      obtain rfl : ds = [] := (List.cons.inj (hzero rfl)).2
      cases hvs
      exact hk
    · rw [List.reverse_cons, Nat.ofDigits_append, Nat.ofDigits_singleton, List.length_reverse] at hn
      have hpow : 10 ^ vs.length < 10 ^ k :=
        (Nat.le_mul_of_pos_right _ hv).trans_lt ((Nat.le_add_left _ _).trans_lt hn)
      exact (Nat.pow_lt_pow_iff_right (by decide)).mp hpow

theorem integer?_of_decimal (h : IsNumeral 10 cs n) (hzero : cs.head? = some '0' → cs = ['0'])
    (hn : n < 10 ^ Integer.digitLimit) : integer? cs = some (n : ℤ) := by
  obtain ⟨hmark, hleading⟩ := not_marked_of_head? hzero
  rw [integer?, hmark, hleading]
  exact h.read?_eq fun _ => length_le_of_isNumeral h hzero (by decide) hn

theorem decimal?_natCast (hn : n < 10 ^ Integer.digitLimit) :
    Integer.decimal? n = some (Nat.toDigits 10 n) := by
  have hshort : ¬ Integer.digitLimit < (Nat.toDigits 10 n).length :=
    not_lt.mpr ((Nat.length_toDigits_le_iff (by decide) (by decide)).mpr hn)
  rw [Integer.decimal?, Int.natAbs_natCast]
  simp only [if_neg hshort, if_neg (Int.natCast_nonneg n).not_gt]

theorem name_of_suffix (hcs : raw.filter (· ≠ '_') = cs ++ ['n'])
    (hread : integer? cs = some (n : ℤ)) (hn : n < 10 ^ Integer.digitLimit) :
    name raw = Nat.toDigits 10 n := by
  rw [name, hcs]
  simp only [List.getLast?_append_cons, List.getLast?_singleton, List.dropLast_concat, if_true,
    hread, Option.bind_some, decimal?_natCast hn, Option.getD_some]

theorem SpellsBig.name_eq (h : SpellsBig cs n) (hcs : raw.filter (· ≠ '_') = cs)
    (hn : n < 10 ^ Integer.digitLimit) : name raw = Nat.toDigits 10 n := by
  cases h with
  | decimal h hzero => exact name_of_suffix hcs (integer?_of_decimal h hzero hn) hn
  | @marked m base ds _ hm h =>
    have hbase : markedBase? ('0' :: m :: ds) = some base := Integer.markBase?_eq_some_iff.mpr hm
    refine name_of_suffix hcs ?_ hn
    rw [integer?, hbase]
    exact h.read?_marked hbase

/-- An integer literal with the suffix is named by all digits of its number. Up to `2 ^ 53` every
literal without the suffix has the same name, so that a key with either of them is found under these
digits. -/
theorem name_of_exact_integer (hn : n < 10 ^ 4300) :
    (∀ raw : List Char, SpellsBig (raw.filter (· ≠ '_')) n → name raw = Nat.toDigits 10 n) ∧
    (n ≤ 2 ^ 53 → ∀ raw : List Char, Spells (raw.filter (· ≠ '_')) n →
      name raw = Nat.toDigits 10 n) ∧
    ∀ (s : Source) (key literal : Node) (raw : List Char), Key.literal? key = some literal →
      literal.kind = .number → s.text literal = .ok raw →
      SpellsBig (raw.filter (· ≠ '_')) n ∨ n ≤ 2 ^ 53 ∧ Spells (raw.filter (· ≠ '_')) n →
        Key.name s key = .ok (some (Text.ofChars (Nat.toDigits 10 n))) := by
  have hlimit : 4300 = Integer.digitLimit := rfl
  rw [hlimit] at hn
  have hbig : ∀ raw : List Char, SpellsBig (raw.filter (· ≠ '_')) n →
      name raw = Nat.toDigits 10 n :=
    fun raw h => h.name_eq rfl hn
  have hsmall : n ≤ 2 ^ 53 → ∀ raw : List Char, Spells (raw.filter (· ≠ '_')) n →
      name raw = Nat.toDigits 10 n :=
    fun hle raw h => (h.name_eq rfl).trans (format_nearest_natCast hle)
  refine ⟨hbig, hsmall, ?_⟩
  intro s key literal raw hliteral hkind htext h
  have hname : name raw = Nat.toDigits 10 n := h.elim (hbig raw) fun h => hsmall h.1 raw h.2
  rw [Key.name_of_literal s hliteral, Key.literalValue, hkind, ← hname]
  dsimp only
  rw [htext]
  rfl

def limitChars : List Char := "0x20_0000_0000_0000n 9007199254740992".toList

def suffixedKey : Node where
  kind := .number
  start := 0
  stop := 20

def plainKey : Node where
  kind := .number
  start := 21
  stop := 37

theorem spellsBig_limit : SpellsBig "0x20000000000000n".toList 9007199254740992 :=
  @SpellsBig.marked 'x' 16 "20000000000000".toList _ (by decide)
    ⟨by decide, [2, 0, 0, 0, 0, 0, 0, 0, 0, 0, 0, 0, 0, 0], by decide, by decide⟩

theorem spells_limit : Spells "9007199254740992".toList 9007199254740992 :=
  .decimal ⟨by decide, [9, 0, 0, 7, 1, 9, 9, 2, 5, 4, 7, 4, 0, 9, 9, 2], by decide, by decide⟩
    (by decide)

theorem name_of_exact_integer_limit :
    Key.name (.ofChars limitChars) suffixedKey = Key.name (.ofChars limitChars) plainKey ∧
      name "9007199254740992".toList = Nat.toDigits 10 9007199254740992 := by
  have hlimit : 9007199254740992 < 10 ^ 4300 :=
    calc 9007199254740992 < 10 ^ 16 := by norm_num
      _ ≤ 10 ^ 4300 := pow_le_pow_right₀ (by norm_num) (by norm_num)
  have htext : (Source.ofChars limitChars).text suffixedKey =
      .ok "0x20_0000_0000_0000n".toList := by rfl
  have htext' : (Source.ofChars limitChars).text plainKey = .ok "9007199254740992".toList := by rfl
  obtain ⟨-, hplain, hkey⟩ := name_of_exact_integer hlimit
  constructor
  · rw [hkey _ suffixedKey suffixedKey _ rfl rfl htext (.inl spellsBig_limit),
      hkey _ plainKey plainKey _ rfl rfl htext' (.inr ⟨by decide, spells_limit⟩)]
  · exact hplain (by decide) _ spells_limit

end Number

end ParamLint

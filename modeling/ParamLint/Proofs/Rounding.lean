import Mathlib.Algebra.Order.Field.Power
import Mathlib.Algebra.Order.Ring.Rat
import Mathlib.Tactic.FieldSimp
import Mathlib.Tactic.Linarith
import Mathlib.Tactic.NormNum
import Mathlib.Tactic.Positivity
import Mathlib.Tactic.Ring
import ParamLint.Number.Binary64

/-!
# Rounding to the nearest value

The value given for a fraction is the nearest one of the format, of two that are equally near the one
with an even mantissa, and there is only one such value. Exponents have no upper end while rounding;
what comes out at `2 ^ 1024` or above is infinite.
-/
namespace ParamLint.Binary64

def dyadic (m : ℕ) (e : ℤ) : ℚ := m * 2 ^ e

/-- A mantissa and an exponent as the format has them, its upper end apart. -/
structure IsCanonical (m : ℕ) (e : ℤ) : Prop where
  lt : m < 2 ^ 53
  least : -1074 ≤ e
  normal : 2 ^ 52 ≤ m ∨ e = -1074

/-- No canonical number is nearer to `x`, and if another is as near, the mantissa is even. -/
structure IsRounding (x : ℚ) (m : ℕ) (e : ℤ) : Prop extends IsCanonical m e where
  nearest : ∀ m' e', IsCanonical m' e' → |x - dyadic m e| ≤ |x - dyadic m' e'|
  even : ∀ m' e', IsCanonical m' e' → dyadic m' e' ≠ dyadic m e →
    |x - dyadic m' e'| = |x - dyadic m e| → m % 2 = 0

/-- The value nearest to the number of size `x` with the given sign. -/
def IsNearest (negative : Bool) (x : ℚ) (v : Binary64) : Prop :=
  ∃ m e, IsRounding x m e ∧
    v = if 2 ^ 1024 ≤ dyadic m e then infinite negative else finite negative m e

theorem hidden_eq : hidden = 2 ^ 52 := by
  norm_num [hidden]

theorem two_mul_hidden : 2 * hidden = 2 ^ 53 := by
  norm_num [hidden]

theorem two_zpow_pos (e : ℤ) : (0 : ℚ) < 2 ^ e := by positivity

/-! Nearest naturals -/

/-- No integer is nearer to `y`, and if another is as near, `m` is even. -/
structure IsNearestNat (y : ℚ) (m : ℕ) : Prop where
  nearest : ∀ k : ℤ, |y - m| ≤ |y - k|
  even : ∀ k : ℤ, (k : ℚ) ≠ m → |y - k| = |y - m| → m % 2 = 0

/-- Between two neighbours the nearer one is the nearest integer, and of two that are equally near
the even one. -/
theorem isNearestNat_of_between {y : ℚ} {q m : ℕ} (hlow : (q : ℚ) ≤ y) (hhigh : y < q + 1)
    (h : m = q ∧ y - q < 1 / 2 ∨ m = q + 1 ∧ 1 / 2 < y - q ∨ m = q + q % 2 ∧ y - q = 1 / 2) :
    IsNearestNat y m := by
  have hside : ∀ k : ℤ, (k : ℚ) ≤ q ∧ |y - k| = y - k ∨ (q : ℚ) + 1 ≤ k ∧ |y - k| = k - y := by
    intro k
    rcases le_or_gt k q with hk | hk
    · have hk' : (k : ℚ) ≤ q := by exact_mod_cast hk
      exact .inl ⟨hk', abs_of_nonneg (by linarith)⟩
    · have hk' : (q : ℚ) + 1 ≤ k := by exact_mod_cast hk
      exact .inr ⟨hk', by rw [abs_of_nonpos (by linarith), neg_sub]⟩
  rcases h with ⟨rfl, hhalf⟩ | ⟨rfl, hhalf⟩ | ⟨rfl, hhalf⟩
  · have hm : |y - m| = y - m := abs_of_nonneg (by linarith)
    refine ⟨fun k => ?_, fun k hne heq => ?_⟩
    · rcases hside k with ⟨hk, habs⟩ | ⟨hk, habs⟩ <;> linarith
    · rcases hside k with ⟨hk, habs⟩ | ⟨hk, habs⟩
      · exact absurd (by linarith) hne
      · linarith
  · have hm : |y - (q + 1 : ℕ)| = q + 1 - y := by
      rw [abs_of_nonpos (by push_cast; linarith)]
      push_cast
      ring
    refine ⟨fun k => ?_, fun k hne heq => ?_⟩
    · rcases hside k with ⟨hk, habs⟩ | ⟨hk, habs⟩ <;> linarith
    · rcases hside k with ⟨hk, habs⟩ | ⟨hk, habs⟩
      · linarith
      · exact absurd (by push_cast; linarith) hne
  · have hm : |y - (q + q % 2 : ℕ)| = 1 / 2 := by
      rcases Nat.mod_two_eq_zero_or_one q with hq | hq
      · rw [hq, Nat.add_zero, hhalf, abs_of_pos (by norm_num)]
      · rw [hq, abs_of_nonpos (by push_cast; linarith)]
        push_cast
        linarith
    refine ⟨fun k => ?_, fun _ _ _ => by omega⟩
    rcases hside k with ⟨hk, habs⟩ | ⟨hk, habs⟩ <;> linarith

theorem isNearestNat_roundQuotient (n : ℕ) {d : ℕ} (hd : 0 < d) :
    IsNearestNat (n / d) (roundQuotient n d) := by
  have hd' : (0 : ℚ) < d := by exact_mod_cast hd
  have hdivision : (n : ℚ) = d * (n / d : ℕ) + (n % d : ℕ) := by
    exact_mod_cast (Nat.div_add_mod n d).symm
  have hrest : (n : ℚ) / d - (n / d : ℕ) = (n % d : ℕ) / d := by
    rw [eq_div_iff hd'.ne', sub_mul, div_mul_cancel₀ _ hd'.ne']
    linarith
  have hrest_nonneg : (0 : ℚ) ≤ (n % d : ℕ) / d := by positivity
  have hrest_lt : ((n % d : ℕ) : ℚ) / d < 1 := by
    rw [div_lt_one hd']
    exact_mod_cast Nat.mod_lt n hd
  have hless : 2 * (n % d) < d ↔ ((n % d : ℕ) : ℚ) / d < 1 / 2 := by
    rw [div_lt_div_iff₀ hd' (by norm_num)]
    constructor
    · intro h
      have h' : (2 * (n % d : ℕ) : ℚ) < d := by exact_mod_cast h
      linarith
    · intro h
      have h' : (2 * (n % d : ℕ) : ℚ) < d := by linarith
      exact_mod_cast h'
  have hmore : d < 2 * (n % d) ↔ 1 / 2 < ((n % d : ℕ) : ℚ) / d := by
    rw [div_lt_div_iff₀ (by norm_num) hd']
    constructor
    · intro h
      have h' : (d : ℚ) < 2 * (n % d : ℕ) := by exact_mod_cast h
      linarith
    · intro h
      have h' : (d : ℚ) < 2 * (n % d : ℕ) := by linarith
      exact_mod_cast h'
  apply isNearestNat_of_between (q := n / d) (by linarith) (by linarith)
  rw [hrest]
  unfold roundQuotient
  dsimp only
  split_ifs with hl hm
  · exact .inl ⟨rfl, hless.mp hl⟩
  · exact .inr (.inl ⟨rfl, hmore.mp hm⟩)
  · refine .inr (.inr ⟨rfl, ?_⟩)
    exact le_antisymm (not_lt.mp (mt hmore.mpr hm)) (not_lt.mp (mt hless.mpr hl))

/-! The exponent -/

theorem inUnits_eq (n : ℕ) {d : ℕ} (hd : 0 < d) (e : ℤ) :
    0 < (inUnits n d e).2 ∧
      ((inUnits n d e).1 : ℚ) / (inUnits n d e).2 = n / d / 2 ^ e := by
  have hd' : (0 : ℚ) < d := by exact_mod_cast hd
  refine ⟨Nat.mul_pos hd (Nat.pow_pos (by decide)), ?_⟩
  have hpow : (2 : ℚ) ^ e = 2 ^ e.toNat / 2 ^ (-e).toNat := by
    rw [← zpow_natCast, ← zpow_natCast, ← zpow_sub₀ (by norm_num)]
    congr 1
    omega
  have hup : ((Nat.pow 2 (-e).toNat : ℕ) : ℚ) = 2 ^ (-e).toNat := by
    exact_mod_cast rfl
  have hdown : ((Nat.pow 2 e.toNat : ℕ) : ℚ) = 2 ^ e.toNat := by
    exact_mod_cast rfl
  simp only [inUnits, Nat.cast_mul, hup, hdown, hpow]
  field_simp

theorem log2_bounds {n : ℕ} (hn : 0 < n) :
    (2 : ℚ) ^ (Nat.log2 n : ℤ) ≤ n ∧ (n : ℚ) < 2 ^ ((Nat.log2 n : ℤ) + 1) := by
  have hlow : 2 ^ Nat.log2 n ≤ n := Nat.log2_self_le hn.ne'
  have hhigh : n < 2 ^ (Nat.log2 n + 1) := Nat.lt_log2_self
  constructor
  · rw [zpow_natCast]
    exact_mod_cast hlow
  · rw [← Nat.cast_succ, zpow_natCast]
    exact_mod_cast hhigh

theorem inUnits_lt_iff (n : ℕ) {d : ℕ} (hd : 0 < d) (e : ℤ) :
    (inUnits n d e).1 < (inUnits n d e).2 * hidden ↔ (n : ℚ) / d / 2 ^ e < 2 ^ 52 := by
  obtain ⟨hb, hunits⟩ := inUnits_eq n hd e
  have hb' : (0 : ℚ) < (inUnits n d e).2 := by exact_mod_cast hb
  have hhidden : (hidden : ℚ) = 2 ^ 52 := by
    rw [hidden_eq]
    push_cast
    rfl
  rw [← hunits, div_lt_iff₀ hb', mul_comm, ← hhidden]
  exact_mod_cast Iff.rfl

/-- The exponent guessed from the lengths is right up to one bit. -/
theorem guess_bounds {n d : ℕ} (hn : 0 < n) (hd : 0 < d) {e : ℤ}
    (he : e = (Nat.log2 n : ℤ) - Nat.log2 d - 52) :
    2 ^ 51 < (n : ℚ) / d / 2 ^ e ∧ (n : ℚ) / d / 2 ^ e < 2 ^ 53 := by
  obtain ⟨hnlow, hnhigh⟩ := log2_bounds hn
  obtain ⟨hdlow, hdhigh⟩ := log2_bounds hd
  have hd' : (0 : ℚ) < d := by exact_mod_cast hd
  constructor
  · rw [lt_div_iff₀ (two_zpow_pos e), lt_div_iff₀ hd']
    calc (2 : ℚ) ^ 51 * 2 ^ e * d < 2 ^ 51 * 2 ^ e * 2 ^ ((Nat.log2 d : ℤ) + 1) := by
          gcongr
      _ = 2 ^ (Nat.log2 n : ℤ) := by
          rw [← zpow_natCast, ← zpow_add₀ (by norm_num), ← zpow_add₀ (by norm_num)]
          congr 1
          omega
      _ ≤ n := hnlow
  · rw [div_lt_iff₀ (two_zpow_pos e), div_lt_iff₀ hd']
    calc (n : ℚ) < 2 ^ ((Nat.log2 n : ℤ) + 1) := hnhigh
      _ = 2 ^ 53 * 2 ^ e * 2 ^ (Nat.log2 d : ℤ) := by
          rw [← zpow_natCast, ← zpow_add₀ (by norm_num), ← zpow_add₀ (by norm_num)]
          congr 1
          omega
      _ ≤ 2 ^ 53 * 2 ^ e * d := by gcongr

theorem exists_exponentFor_eq_max {n d : ℕ} (hn : 0 < n) (hd : 0 < d) :
    ∃ e, exponentFor n d = max e (-1074) ∧ 2 ^ 52 ≤ (n : ℚ) / d / 2 ^ e ∧
      (n : ℚ) / d / 2 ^ e < 2 ^ 53 := by
  set e : ℤ := (Nat.log2 n : ℤ) - Nat.log2 d - 52 with he
  obtain ⟨hlow, hhigh⟩ := guess_bounds hn hd he
  have hless := inUnits_lt_iff n hd e
  have hmax : exponentFor n d =
      max (if (inUnits n d e).1 < (inUnits n d e).2 * hidden then e - 1 else e) (-1074) := rfl
  by_cases h : (inUnits n d e).1 < (inUnits n d e).2 * hidden
  · rw [if_pos h] at hmax
    have hhalf : (n : ℚ) / d / 2 ^ (e - 1) = 2 * ((n : ℚ) / d / 2 ^ e) := by
      rw [zpow_sub_one₀ (by norm_num)]
      field_simp
    have hupper := hless.mp h
    exact ⟨e - 1, hmax, by rw [hhalf]; linarith, by rw [hhalf]; linarith⟩
  · rw [if_neg h] at hmax
    exact ⟨e, hmax, not_lt.mp (mt hless.mpr h), hhigh⟩

theorem exponentFor_spec {n d : ℕ} (hn : 0 < n) (hd : 0 < d) :
    -1074 ≤ exponentFor n d ∧ (n : ℚ) / d / 2 ^ exponentFor n d < 2 ^ 53 ∧
      (2 ^ 52 ≤ (n : ℚ) / d / 2 ^ exponentFor n d ∨ exponentFor n d = -1074) := by
  obtain ⟨e, hmax, hlow, hhigh⟩ := exists_exponentFor_eq_max hn hd
  rw [hmax]
  refine ⟨le_max_right _ _, ?_, ?_⟩
  · have hpow : (2 : ℚ) ^ e ≤ 2 ^ max e (-1074) :=
      zpow_le_zpow_right₀ (by norm_num) (le_max_left _ _)
    refine lt_of_le_of_lt ?_ hhigh
    exact div_le_div_of_nonneg_left (by positivity) (two_zpow_pos e) hpow
  · rcases le_total (-1074) e with he | he
    · rw [max_eq_left he]
      exact .inl hlow
    · exact .inr (max_eq_right he)

/-! Rounding -/

theorem dyadic_eq_mul {e e' : ℤ} (h : e ≤ e') (m : ℕ) :
    dyadic m e' = (m * 2 ^ (e' - e).toNat : ℕ) * 2 ^ e := by
  have hpow : (2 : ℚ) ^ e' = 2 ^ (e' - e).toNat * 2 ^ e := by
    rw [← zpow_natCast, ← zpow_add₀ (by norm_num)]
    congr 1
    omega
  rw [dyadic, hpow]
  push_cast
  ring

theorem IsCanonical.dyadic_lt {m : ℕ} {e e' : ℤ} (h : IsCanonical m e) (he : e < e') :
    dyadic m e < 2 ^ 52 * 2 ^ e' := by
  have hm : (m : ℚ) < 2 ^ 53 := by exact_mod_cast h.lt
  have hpow : (2 : ℚ) ^ (e + 1) ≤ 2 ^ e' := zpow_le_zpow_right₀ (by norm_num) he
  calc dyadic m e < 2 ^ 53 * 2 ^ e := by
        have hpos := two_zpow_pos e
        unfold dyadic
        gcongr
    _ = 2 ^ 52 * 2 ^ (e + 1) := by
        rw [zpow_add_one₀ (by norm_num)]
        ring
    _ ≤ 2 ^ 52 * 2 ^ e' := by gcongr

theorem IsNearestNat.le {y : ℚ} {m : ℕ} (h : IsNearestNat y m) {k : ℕ} (hk : y ≤ k) : m ≤ k := by
  by_contra! hlt
  have hlt' : (k : ℚ) < m := by exact_mod_cast hlt
  have hnear := h.nearest k
  rw [Int.cast_natCast, abs_of_nonpos (by linarith), abs_of_nonpos (by linarith)] at hnear
  linarith

theorem IsNearestNat.ge {y : ℚ} {m : ℕ} (h : IsNearestNat y m) {k : ℕ} (hk : (k : ℚ) ≤ y) :
    k ≤ m := by
  by_contra! hlt
  have hlt' : (m : ℚ) < k := by exact_mod_cast hlt
  have hnear := h.nearest k
  rw [Int.cast_natCast, abs_of_nonneg (by linarith), abs_of_nonneg (by linarith)] at hnear
  linarith

theorem abs_sub_mul_zpow (y k : ℚ) (e : ℤ) : |y * 2 ^ e - k * 2 ^ e| = |y - k| * 2 ^ e := by
  rw [← sub_mul, abs_mul, abs_of_pos (two_zpow_pos e)]

section Grid

variable {y : ℚ} {m : ℕ} {e : ℤ}

/-- What is nearest among the multiples of `2 ^ e` is nearest among all numbers of the format: those
with larger exponents are such multiples, and those with smaller ones are too far below. -/
theorem IsNearestNat.nearest_dyadic (h : IsNearestNat y m) (hy : 2 ^ 52 ≤ y ∨ e = -1074)
    {m' : ℕ} {e' : ℤ} (h' : IsCanonical m' e') :
    |y * 2 ^ e - dyadic m e| ≤ |y * 2 ^ e - dyadic m' e'| ∧
      (dyadic m' e' ≠ dyadic m e →
        |y * 2 ^ e - dyadic m' e'| = |y * 2 ^ e - dyadic m e| → m % 2 = 0) := by
  have hpos := two_zpow_pos e
  have hdistance : |y * 2 ^ e - dyadic m e| = |y - m| * 2 ^ e := abs_sub_mul_zpow y m e
  rcases le_or_gt e e' with he | he
  · set k : ℕ := m' * 2 ^ (e' - e).toNat
    have hdyadic : dyadic m' e' = (k : ℚ) * 2 ^ e := dyadic_eq_mul he m'
    have hdistance' : |y * 2 ^ e - dyadic m' e'| = |y - k| * 2 ^ e := by
      rw [hdyadic, abs_sub_mul_zpow]
    rw [hdistance, hdistance', hdyadic, dyadic]
    constructor
    · have hnear := h.nearest k
      rw [Int.cast_natCast] at hnear
      gcongr
    · intro hne heq
      apply h.even k
      · rw [Int.cast_natCast]
        intro hk
        exact hne (by rw [hk])
      · rw [Int.cast_natCast]
        exact mul_right_cancel₀ hpos.ne' heq
  · have hbig : 2 ^ 52 ≤ y := by
      rcases hy with hy | hleast
      · exact hy
      · have hle := h'.least
        omega
    have hfar := h'.dyadic_lt he
    have hnear := h.nearest (2 ^ 52)
    rw [Int.cast_pow, Int.cast_ofNat, abs_of_nonneg (sub_nonneg.mpr hbig)] at hnear
    have hless : |y * 2 ^ e - dyadic m e| < |y * 2 ^ e - dyadic m' e'| :=
      calc |y * 2 ^ e - dyadic m e| = |y - m| * 2 ^ e := hdistance
        _ ≤ (y - 2 ^ 52) * 2 ^ e := by gcongr
        _ = y * 2 ^ e - 2 ^ 52 * 2 ^ e := by ring
        _ < y * 2 ^ e - dyadic m' e' := by linarith
        _ ≤ |y * 2 ^ e - dyadic m' e'| := le_abs_self _
    exact ⟨hless.le, fun _ heq => absurd heq hless.ne'⟩

theorem dyadic_carry (e : ℤ) : dyadic (2 ^ 52) (e + 1) = dyadic (2 ^ 53) e := by
  unfold dyadic
  rw [zpow_add_one₀ (by norm_num)]
  push_cast
  ring

/-- A mantissa that was rounded up to 54 bits is carried into the exponent. -/
theorem IsNearestNat.isRounding (h : IsNearestNat y m) (he : -1074 ≤ e) (hlt : y < 2 ^ 53)
    (hy : 2 ^ 52 ≤ y ∨ e = -1074) :
    m = 2 ^ 53 ∧ IsRounding (y * 2 ^ e) (2 ^ 52) (e + 1) ∨
      m ≠ 2 ^ 53 ∧ IsRounding (y * 2 ^ e) m e := by
  have hle : m ≤ 2 ^ 53 := h.le (by push_cast; exact hlt.le)
  by_cases hcarry : m = 2 ^ 53
  · subst hcarry
    refine .inl ⟨rfl, ⟨by norm_num, by omega, .inl le_rfl⟩, ?_, ?_⟩
    · intro m' e' h'
      rw [dyadic_carry]
      exact (h.nearest_dyadic hy h').1
    · intro m' e' h' _ _
      norm_num
  · refine .inr ⟨hcarry, ⟨lt_of_le_of_ne hle hcarry, he, ?_⟩, ?_, ?_⟩
    · rcases hy with hy | hleast
      · exact .inl (h.ge (by push_cast; exact hy))
      · exact .inr hleast
    · intro m' e' h'
      exact (h.nearest_dyadic hy h').1
    · intro m' e' h'
      exact (h.nearest_dyadic hy h').2

end Grid

theorem upper_end_eq : (2 : ℚ) ^ 1024 = 2 ^ 52 * 2 ^ (972 : ℤ) := by
  rw [← zpow_natCast, ← zpow_natCast, ← zpow_add₀ (by norm_num)]
  norm_num

theorem IsCanonical.overflows_iff {m : ℕ} {e : ℤ} (h : IsCanonical m e) :
    2 ^ 1024 ≤ dyadic m e ↔ greatestExponent < e := by
  change _ ↔ 971 < e
  constructor
  · intro hle
    by_contra! he
    have hlt := h.dyadic_lt (show e < 972 by omega)
    rw [← upper_end_eq] at hlt
    exact absurd hle (not_le.mpr hlt)
  · intro he
    have hm : 2 ^ 52 ≤ m := h.normal.resolve_right (by omega)
    have hm' : (2 : ℚ) ^ 52 ≤ m := by exact_mod_cast hm
    have hpow : (2 : ℚ) ^ (972 : ℤ) ≤ 2 ^ e := zpow_le_zpow_right₀ (by norm_num) (by omega)
    rw [upper_end_eq, dyadic]
    gcongr

theorem isRounding_zero : IsRounding 0 0 (-1074) where
  lt := by norm_num
  least := le_rfl
  normal := .inr rfl
  nearest := by
    intro m' e' _
    have hzero : dyadic 0 (-1074) = 0 := by simp [dyadic]
    rw [hzero, sub_zero, abs_zero]
    exact abs_nonneg _
  even := by
    intro m' e' _ _ _
    rfl

theorem IsRounding.isNearest {x : ℚ} {m : ℕ} {e : ℤ} (h : IsRounding x m e) (negative : Bool) :
    IsNearest negative x
      (if greatestExponent < e then infinite negative else finite negative m e) := by
  refine ⟨m, e, h, ?_⟩
  simp only [h.toIsCanonical.overflows_iff]

theorem isNearest_nearest (negative : Bool) (n : ℕ) {d : ℕ} (hd : 0 < d) :
    IsNearest negative (n / d) (nearest negative n d) := by
  rcases Nat.eq_zero_or_pos n with rfl | hn
  · have hzero := isRounding_zero.isNearest negative
    rw [if_neg (by decide)] at hzero
    rw [Nat.cast_zero, zero_div, nearest, if_pos rfl]
    exact hzero
  obtain ⟨hleast, hlt, hnormal⟩ := exponentFor_spec hn hd
  obtain ⟨hb, hunits⟩ := inUnits_eq n hd (exponentFor n d)
  have hx : (n : ℚ) / d / 2 ^ exponentFor n d * 2 ^ exponentFor n d = n / d :=
    div_mul_cancel₀ _ (two_zpow_pos _).ne'
  rw [nearest, if_neg hn.ne']
  -- the pairs are opened one after the other: the number of the carry must not be computed
  extract_lets e
  split
  rename_i a b hab
  extract_lets m
  split
  rename_i m' e' hcarried
  rw [hab] at hb hunits
  rw [← hunits] at hlt hnormal hx
  have hnear : IsNearestNat ((a : ℚ) / b) m := isNearestNat_roundQuotient a hb
  rw [two_mul_hidden, hidden_eq] at hcarried
  rcases hnear.isRounding hleast hlt hnormal with ⟨hcarry, hround⟩ | ⟨hcarry, hround⟩
  · rw [if_pos hcarry] at hcarried
    obtain ⟨rfl, rfl⟩ := Prod.mk.inj hcarried
    rw [hx] at hround
    exact hround.isNearest negative
  · rw [if_neg hcarry] at hcarried
    obtain ⟨rfl, rfl⟩ := Prod.mk.inj hcarried
    rw [hx] at hround
    exact hround.isNearest negative

theorem isNearest_nearest_natCast (negative : Bool) (n : ℕ) :
    IsNearest negative n (nearest negative n 1) := by
  have hnearest := isNearest_nearest negative n one_pos
  rwa [Nat.cast_one, div_one] at hnearest

theorem IsRounding.overflows {x : ℚ} {m : ℕ} {e : ℤ} (h : IsRounding x m e) (hx : 2 ^ 1024 ≤ x) :
    2 ^ 1024 ≤ dyadic m e := by
  have hend : dyadic (2 ^ 52) 972 = 2 ^ 1024 := by
    rw [upper_end_eq, dyadic]
    norm_num
  have hnearest := h.nearest (2 ^ 52) 972 ⟨by norm_num, by norm_num, .inl le_rfl⟩
  rw [hend, abs_of_nonneg (sub_nonneg.mpr hx)] at hnearest
  have habs := le_abs_self (x - dyadic m e)
  exact (sub_le_sub_iff_left x).mp (habs.trans hnearest)

/-! Only one value is nearest -/

theorem IsCanonical.exponent_le {m m' : ℕ} {e e' : ℤ} (h : IsCanonical m e) (h' : IsCanonical m' e')
    (hle : dyadic m e ≤ dyadic m' e') : e ≤ e' := by
  by_contra! he
  have hm : 2 ^ 52 ≤ m := h.normal.resolve_right (by have hleast := h'.least; omega)
  have hm' : (2 : ℚ) ^ 52 ≤ m := by exact_mod_cast hm
  have hlt := h'.dyadic_lt he
  have hpos := two_zpow_pos e
  have hlarge : 2 ^ 52 * 2 ^ e ≤ dyadic m e := by
    unfold dyadic
    gcongr
  linarith

theorem IsCanonical.eq_of_dyadic_eq {m m' : ℕ} {e e' : ℤ} (h : IsCanonical m e)
    (h' : IsCanonical m' e') (heq : dyadic m e = dyadic m' e') : m = m' ∧ e = e' := by
  have he : e = e' := le_antisymm (h.exponent_le h' heq.le) (h'.exponent_le h heq.ge)
  subst he
  have hm : (m : ℚ) = m' := mul_right_cancel₀ (two_zpow_pos e).ne' heq
  exact ⟨by exact_mod_cast hm, rfl⟩

theorem IsCanonical.succ {m : ℕ} {e : ℤ} (h : IsCanonical m e) (heven : m % 2 = 0) :
    IsCanonical (m + 1) e where
  lt := by
    have hlt := h.lt
    omega
  least := h.least
  normal := h.normal.imp_left fun hm => hm.trans (Nat.le_succ m)

/-- Between two different numbers with even mantissas there is a third one, so they are not both
nearest. -/
theorem IsRounding.not_lt {x : ℚ} {m m' : ℕ} {e e' : ℤ} (h : IsRounding x m e)
    (h' : IsRounding x m' e') : ¬ dyadic m e < dyadic m' e' := by
  intro hlt
  have hsame : |x - dyadic m' e'| = |x - dyadic m e| :=
    le_antisymm (h'.nearest m e h.toIsCanonical) (h.nearest m' e' h'.toIsCanonical)
  have heven : m % 2 = 0 := h.even m' e' h'.toIsCanonical hlt.ne' hsame
  have heven' : m' % 2 = 0 := h'.even m e h.toIsCanonical hlt.ne hsame.symm
  have hnext : IsCanonical (m + 1) e := h.toIsCanonical.succ heven
  have hpos := two_zpow_pos e
  have hlow : dyadic m e < dyadic (m + 1) e := by
    unfold dyadic
    push_cast
    linarith
  have hhigh : dyadic (m + 1) e < dyadic m' e' := by
    refine lt_of_le_of_ne ?_ fun heq => ?_
    · have he : e ≤ e' := h.toIsCanonical.exponent_le h'.toIsCanonical hlt.le
      rw [dyadic_eq_mul he m', dyadic] at hlt ⊢
      have hsteps : m < m' * 2 ^ (e' - e).toNat := by
        exact_mod_cast lt_of_mul_lt_mul_right hlt hpos.le
      have hsteps' : ((m + 1 : ℕ) : ℚ) ≤ (m' * 2 ^ (e' - e).toNat : ℕ) := by
        exact_mod_cast hsteps
      gcongr
    · have hmantissa := (hnext.eq_of_dyadic_eq h'.toIsCanonical heq).1
      omega
  -- the number lies in the middle, and the third one is nearer to it
  have hmiddle : x - dyadic m e = dyadic m' e' - x := by
    rcases abs_eq_abs.mp hsame with heq | heq <;> linarith
  have hnearer : |x - dyadic (m + 1) e| < x - dyadic m e := by
    rw [abs_lt]
    constructor <;> linarith
  have hnearest := h.nearest (m + 1) e hnext
  have habs := le_abs_self (x - dyadic m e)
  linarith

theorem IsRounding.unique {x : ℚ} {m m' : ℕ} {e e' : ℤ} (h : IsRounding x m e)
    (h' : IsRounding x m' e') : m = m' ∧ e = e' :=
  h.toIsCanonical.eq_of_dyadic_eq h'.toIsCanonical
    (le_antisymm (le_of_not_gt (h'.not_lt h)) (le_of_not_gt (h.not_lt h')))

theorem IsNearest.unique {negative : Bool} {x : ℚ} {v w : Binary64} (h : IsNearest negative x v)
    (h' : IsNearest negative x w) : v = w := by
  obtain ⟨m, e, hround, rfl⟩ := h
  obtain ⟨m', e', hround', rfl⟩ := h'
  obtain ⟨rfl, rfl⟩ := hround.unique hround'
  rfl

/-! The values of the format -/

/-- A value that sixty-four bits can stand for. -/
def IsValue : Binary64 → Prop
  | finite _ m e => IsCanonical m e ∧ e ≤ greatestExponent
  | _ => True

theorem IsNearest.isValue {negative : Bool} {x : ℚ} {v : Binary64} (h : IsNearest negative x v) :
    v.IsValue := by
  obtain ⟨m, e, hround, rfl⟩ := h
  split_ifs with hend
  · trivial
  · exact ⟨hround.toIsCanonical, not_lt.mp (mt hround.toIsCanonical.overflows_iff.mpr hend)⟩

theorem isValue_ofBits (bits : ℕ) : (ofBits bits).IsValue := by
  have hfraction : bits % hidden < 2 ^ 52 := by
    rw [hidden_eq]
    exact Nat.mod_lt bits (by norm_num)
  unfold ofBits
  extract_lets negative biased fraction
  have hbiased : biased < 2048 := Nat.mod_lt _ (by decide)
  split_ifs with hspecial hzero hleast
  · trivial
  · trivial
  · exact ⟨⟨by omega, le_rfl, .inr rfl⟩, by decide⟩
  · have hhidden := hidden_eq
    refine ⟨⟨by omega, by omega, .inl (by omega)⟩, ?_⟩
    unfold greatestExponent
    omega

end ParamLint.Binary64

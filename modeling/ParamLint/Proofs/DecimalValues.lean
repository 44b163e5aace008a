import ParamLint.Proofs.Rounding

/-!
# Decimals and their values

The value computed for a coefficient and a power of ten is the one nearest to the decimal. A decimal
of more than four hundred digits before the point is beyond the upper end, and one with as many
zeros after the point rounds to zero, so that neither has to be computed.
-/
namespace ParamLint.Binary64

def decadic (c : ℕ) (g : ℤ) : ℚ := c * 10 ^ g

theorem ten_zpow_pos (g : ℤ) : (0 : ℚ) < 10 ^ g := by positivity

theorem decadic_nonneg (c : ℕ) (g : ℤ) : 0 ≤ decadic c g :=
  mul_nonneg (Nat.cast_nonneg c) (ten_zpow_pos g).le

theorem ten_zpow_eq_div (g : ℤ) : (10 : ℚ) ^ g = 10 ^ g.toNat / 10 ^ (-g).toNat := by
  rw [← zpow_natCast, ← zpow_natCast, ← zpow_sub₀ (by norm_num)]
  congr 1
  omega

theorem ten_zpow_of_le {g γ : ℤ} (h : γ ≤ g) :
    (10 : ℚ) ^ g = (10 ^ (g - γ).toNat : ℕ) * 10 ^ γ := by
  push_cast
  rw [← zpow_natCast, ← zpow_add₀ (by norm_num)]
  congr 1
  omega

theorem decadic_eq_of_le {g γ : ℤ} (h : γ ≤ g) (c : ℕ) :
    decadic c g = decadic (c * 10 ^ (g - γ).toNat) γ := by
  rw [decadic, decadic, ten_zpow_of_le h]
  push_cast
  ring

theorem exists_length_toDigits {n : ℕ} (hn : 0 < n) :
    ∃ k, (Nat.toDigits 10 n).length = k + 1 ∧ 10 ^ k ≤ n ∧ n < 10 ^ (k + 1) := by
  obtain ⟨k, hk⟩ := Nat.exists_eq_add_one.mpr (Nat.length_toDigits_pos (b := 10) (n := n))
  refine ⟨k, hk, ?_, (Nat.length_toDigits_le_iff (by decide) k.succ_pos).mp hk.le⟩
  by_contra! hlt
  rcases Nat.eq_zero_or_pos k with rfl | hpos
  · rw [pow_zero] at hlt
    omega
  · have hle := (Nat.length_toDigits_le_iff (by decide) hpos).mpr hlt
    omega

/-- The size of a decimal is known from its number of digits. -/
theorem decadic_bounds {c : ℕ} (hc : 0 < c) (g : ℤ) :
    10 ^ ((Nat.toDigits 10 c).length + g - 1) ≤ decadic c g ∧
      decadic c g < 10 ^ ((Nat.toDigits 10 c).length + g) := by
  obtain ⟨k, hlength, hlow, hhigh⟩ := exists_length_toDigits hc
  have hpos := ten_zpow_pos g
  have hlow' : (10 : ℚ) ^ k ≤ c := by exact_mod_cast hlow
  have hhigh' : (c : ℚ) < 10 ^ (k + 1) := by exact_mod_cast hhigh
  have hfirst : ((Nat.toDigits 10 c).length : ℤ) + g - 1 = k + g := by omega
  rw [hfirst, hlength, zpow_add₀ (by norm_num), zpow_add₀ (by norm_num), zpow_natCast,
    zpow_natCast, decadic]
  constructor
  · gcongr
  · gcongr

/-! Decimals beyond both ends -/

theorem isRounding_zero_of_lt {x : ℚ} (hzero : 0 ≤ x) (hx : 2 * x < 2 ^ (-1074 : ℤ)) :
    IsRounding x 0 (-1074) where
  lt := by norm_num
  least := le_rfl
  normal := .inr rfl
  nearest := by
    intro m' e' h
    rw [dyadic, Nat.cast_zero, zero_mul, sub_zero, abs_of_nonneg hzero]
    rcases Nat.eq_zero_or_pos m' with rfl | hm'
    · rw [dyadic, Nat.cast_zero, zero_mul, sub_zero, abs_of_nonneg hzero]
    · have hpow : (2 : ℚ) ^ (-1074 : ℤ) ≤ 2 ^ e' := zpow_le_zpow_right₀ (by norm_num) h.least
      have hone : (1 : ℚ) ≤ m' := by exact_mod_cast hm'
      have hle : 2 ^ e' ≤ dyadic m' e' := le_mul_of_one_le_left (two_zpow_pos e').le hone
      rw [abs_sub_comm]
      exact le_trans (by linarith) (le_abs_self _)
  even := by
    intro m' e' _ _ _
    rfl

theorem two_zpow_le_ten_zpow : (2 : ℚ) ^ (1200 : ℤ) ≤ 10 ^ (400 : ℤ) := by
  have hsplit : (1200 : ℤ) = 3 * 400 := by norm_num
  rw [hsplit, zpow_mul]
  exact zpow_le_zpow_left₀ (by norm_num) (by norm_num) (by norm_num)

theorem le_of_ten_zpow_le {x : ℚ} (hx : 10 ^ (400 : ℤ) ≤ x) : 2 ^ 1024 ≤ x := by
  have hpow : (2 : ℚ) ^ (1024 : ℤ) ≤ 2 ^ (1200 : ℤ) :=
    zpow_le_zpow_right₀ (by norm_num) (by norm_num)
  rw [← zpow_natCast]
  exact hpow.trans (two_zpow_le_ten_zpow.trans hx)

theorem two_mul_lt_of_lt_ten_zpow {x : ℚ} (hx : x < 10 ^ (-400 : ℤ)) :
    2 * x < 2 ^ (-1074 : ℤ) := by
  have hinv : (10 : ℚ) ^ (-400 : ℤ) ≤ 2 ^ (-1200 : ℤ) := by
    rw [zpow_neg, zpow_neg]
    exact inv_anti₀ (two_zpow_pos _) two_zpow_le_ten_zpow
  calc 2 * x < 2 * 2 ^ (-1200 : ℤ) := by linarith
    _ = 2 ^ (1 + -1200 : ℤ) := by rw [zpow_add₀ (by norm_num), zpow_one]
    _ ≤ 2 ^ (-1074 : ℤ) := zpow_le_zpow_right₀ (by norm_num) (by norm_num)

theorem isNearest_ofDecimal (negative : Bool) (c : ℕ) (g : ℤ) :
    IsNearest negative (decadic c g) (ofDecimal negative c g) := by
  have hnearest : IsNearest negative (decadic c g)
      (nearest negative (c * Nat.pow 10 g.toNat) (Nat.pow 10 (-g).toNat)) := by
    have hpos : 0 < Nat.pow 10 (-g).toNat := Nat.pow_pos (by decide)
    have hfraction : decadic c g =
        (c * Nat.pow 10 g.toNat : ℕ) / (Nat.pow 10 (-g).toNat : ℕ) := by
      rw [decadic, ten_zpow_eq_div]
      simp only [Nat.pow_eq]
      push_cast
      ring
    rw [hfraction]
    exact isNearest_nearest negative _ hpos
  have hrounds_zero : IsRounding (decadic c g) 0 (-1074) →
      IsNearest negative (decadic c g) (finite negative 0 leastExponent) := by
    intro hround
    have h := hround.isNearest negative
    rwa [if_neg (by decide)] at h
  rw [ofDecimal]
  split_ifs with hzero hlarge hsmall
  · subst hzero
    apply hrounds_zero
    rw [decadic, Nat.cast_zero, zero_mul]
    exact isRounding_zero
  · obtain ⟨hlow, -⟩ := decadic_bounds (Nat.pos_of_ne_zero hzero) g
    obtain ⟨m, e, hround, -⟩ := hnearest
    have hpow : (10 : ℚ) ^ (400 : ℤ) ≤ 10 ^ ((Nat.toDigits 10 c).length + g - 1) :=
      zpow_le_zpow_right₀ (by norm_num) (by omega)
    have hend := hround.overflows (le_of_ten_zpow_le (hpow.trans hlow))
    exact ⟨m, e, hround, (if_pos hend).symm⟩
  · obtain ⟨-, hhigh⟩ := decadic_bounds (Nat.pos_of_ne_zero hzero) g
    have hpow : (10 : ℚ) ^ ((Nat.toDigits 10 c).length + g) ≤ 10 ^ (-400 : ℤ) :=
      zpow_le_zpow_right₀ (by norm_num) (by omega)
    have hhalf := two_mul_lt_of_lt_ten_zpow (hhigh.trans_le hpow)
    exact hrounds_zero (isRounding_zero_of_lt (decadic_nonneg c g) hhalf)
  · exact hnearest

end ParamLint.Binary64

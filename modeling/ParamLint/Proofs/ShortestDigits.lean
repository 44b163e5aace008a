import Mathlib.Tactic.LinearCombination
import ParamLint.Proofs.DecimalGrids

/-!
# The shortest digits of a value

Among the decimals that round to a positive value, the search finds the one with the fewest digits;
among several of this length the one nearest to the value, and of two that are equally near the even
one. These conditions leave one decimal only.
-/
namespace ParamLint.Shortest

open Binary64 (dyadic decadic gapBelow IsCanonical IsRounding decadic_eq_of_le ten_zpow_pos
  ten_zpow_of_le exists_length_toDigits)

/-- Among the decimals that round to the value, `c * 10 ^ g` has the fewest digits, is nearest to
the value for its length, and is the even one of two that are equally near. -/
structure IsShortest (m : ℕ) (e : ℤ) (c : ℕ) (g : ℤ) : Prop where
  last : c % 10 ≠ 0
  rounds : IsRounding (decadic c g) m e
  fewest : ∀ c' g', IsRounding (decadic c' g') m e →
    (Nat.toDigits 10 c).length ≤ (Nat.toDigits 10 c').length
  nearest : ∀ c' g', IsRounding (decadic c' g') m e →
    (Nat.toDigits 10 c').length = (Nat.toDigits 10 c).length →
      |dyadic m e - decadic c g| ≤ |dyadic m e - decadic c' g'|
  even : ∀ c' g', IsRounding (decadic c' g') m e →
    (Nat.toDigits 10 c').length = (Nat.toDigits 10 c).length → decadic c' g' ≠ decadic c g →
      |dyadic m e - decadic c' g'| = |dyadic m e - decadic c g| → c % 2 = 0 ∧ c' % 2 = 1

/-! The interval of a value -/

section Interval

variable {m : ℕ} {e : ℤ}

theorem interval_scale (e : ℤ) : ((Nat.pow 2 (e - 2).toNat : ℕ) : ℚ) =
    2 ^ e / 4 * (Nat.pow 2 (2 - e).toNat : ℕ) := by
  have hpow : (2 : ℚ) ^ e = 2 ^ (e - 2).toNat / 2 ^ (2 - e).toNat * 4 := by
    have hfour : (4 : ℚ) = 2 ^ (2 : ℤ) := by norm_num
    rw [hfour, ← zpow_natCast, ← zpow_natCast, ← zpow_sub₀ (by norm_num),
      ← zpow_add₀ (by norm_num)]
    congr 1
    omega
  rw [hpow]
  simp only [Nat.pow_eq]
  push_cast
  field_simp

theorem interval_denominator (m : ℕ) (e : ℤ) : 0 < (interval m e).denominator :=
  Nat.pow_pos (by decide)

theorem interval_value (m : ℕ) (e : ℤ) :
    ((interval m e).value : ℚ) = dyadic m e * (interval m e).denominator := by
  have hscale := interval_scale e
  simp only [interval, Nat.cast_mul, hscale, dyadic]
  push_cast
  ring

theorem interval_high (m : ℕ) (e : ℤ) :
    ((interval m e).high : ℚ) = (dyadic m e + 2 ^ e / 2) * (interval m e).denominator := by
  have hscale := interval_scale e
  simp only [interval, Nat.cast_mul, hscale, dyadic]
  push_cast
  ring

theorem interval_low (hm : 0 < m) (e : ℤ) :
    ((interval m e).low : ℚ) =
      (dyadic m e - gapBelow m e / 2) * (interval m e).denominator := by
  have hscale := interval_scale e
  have hpower : m = Binary64.hidden ∧ Binary64.leastExponent < e ↔ m = 2 ^ 52 ∧ -1074 < e := by
    rw [Binary64.hidden_eq]
    rfl
  simp only [interval, hpower, Nat.cast_mul, hscale, dyadic, gapBelow]
  split_ifs
  · rw [Nat.cast_sub (by omega)]
    push_cast
    ring
  · rw [Nat.cast_sub (by omega)]
    push_cast
    ring

theorem interval_proper (hm : 0 < m) (e : ℤ) : (interval m e).Proper := by
  have hd : (0 : ℚ) < (interval m e).denominator := by exact_mod_cast interval_denominator m e
  have hgap := Binary64.gapBelow_pos m e
  have hgap_le := Binary64.gapBelow_le m e
  have hpos := Binary64.two_zpow_pos e
  have hm' : (1 : ℚ) ≤ m := by exact_mod_cast hm
  have hlarge : (2 : ℚ) ^ e ≤ dyadic m e := le_mul_of_one_le_left hpos.le hm'
  have hlow_pos : (0 : ℚ) < (interval m e).low := by
    rw [interval_low hm]
    exact mul_pos (by linarith) hd
  have hlow : ((interval m e).low : ℚ) < (interval m e).value := by
    rw [interval_low hm, interval_value]
    exact mul_lt_mul_of_pos_right (by linarith) hd
  have hhigh : ((interval m e).value : ℚ) < (interval m e).high := by
    rw [interval_high, interval_value]
    exact mul_lt_mul_of_pos_right (by linarith) hd
  refine ⟨interval_denominator m e, ?_, ?_, ?_⟩
  · exact_mod_cast hlow_pos
  · exact_mod_cast hlow
  · exact_mod_cast hhigh

theorem interval_center (m : ℕ) (e : ℤ) : (interval m e).center = dyadic m e := by
  have hd : ((interval m e).denominator : ℚ) ≠ 0 := by
    exact_mod_cast (interval_denominator m e).ne'
  rw [Interval.center, interval_value, mul_div_cancel_right₀ _ hd]

/-- The interval is made of the numbers that round to the value. -/
theorem interval_holds_iff (h : IsCanonical m e) (hm : 0 < m) (x : ℚ) :
    (interval m e).Holds x ↔ IsRounding x m e := by
  have hd : (0 : ℚ) < (interval m e).denominator := by exact_mod_cast interval_denominator m e
  have hclosed : (interval m e).closed = true ↔ m % 2 = 0 := decide_eq_true_iff
  rw [h.isRounding_iff hm, Interval.Holds, interval_low hm, interval_high, hclosed,
    mul_le_mul_iff_left₀ hd, mul_le_mul_iff_left₀ hd, mul_left_inj' hd.ne', mul_left_inj' hd.ne']

end Interval

/-! Numbers of digits -/

section Length

variable {c n : ℕ} {g top : ℤ}

theorem decadic_one (g : ℤ) : decadic 1 g = 10 ^ g := by
  rw [decadic, Nat.cast_one, one_mul]

theorem lt_length_of_le_decadic (hle : g ≤ top) (h : 10 ^ top ≤ decadic c g) :
    (top - g).toNat < (Nat.toDigits 10 c).length := by
  rw [ten_zpow_of_le hle, decadic, mul_le_mul_iff_left₀ (ten_zpow_pos g)] at h
  have hc : 10 ^ (top - g).toNat ≤ c := by exact_mod_cast h
  by_contra! hlength
  have hlt : c < 10 ^ (top - g).toNat :=
    (Nat.length_toDigits_le_iff (by decide) (Nat.length_toDigits_pos.trans_le hlength)).mp hlength
  omega

theorem length_le_of_decadic_lt (hle : g ≤ top) (h : decadic c g < 10 ^ (top + 1)) :
    (Nat.toDigits 10 c).length ≤ (top - g).toNat + 1 := by
  rw [ten_zpow_of_le (hle.trans (Int.le_add_one le_rfl)), decadic,
    mul_lt_mul_iff_left₀ (ten_zpow_pos g)] at h
  have hc : c < 10 ^ (top + 1 - g).toNat := by exact_mod_cast h
  have hexponent : (top + 1 - g).toNat = (top - g).toNat + 1 := by omega
  rw [hexponent] at hc
  exact (Nat.length_toDigits_le_iff (by decide) (Nat.succ_pos _)).mpr hc

end Length

namespace Interval

variable {i : Interval}

theorem Proper.magnitude_bounds (h : i.Proper) :
    10 ^ i.magnitude ≤ i.center ∧ i.center < 10 ^ (i.magnitude + 1) := by
  have hd := h.denominator
  have hvalue : 0 < i.value := h.low_pos.trans h.low_lt
  have hd' : (0 : ℚ) < i.denominator := by exact_mod_cast hd
  unfold magnitude
  split_ifs with hle
  · obtain ⟨k, hk, hlow, hhigh⟩ := exists_length_toDigits (Nat.div_pos hle hd)
    obtain ⟨hfloor, hfloor'⟩ := h.floor_le
    rw [hk, Nat.cast_succ, add_sub_cancel_right, ← Nat.cast_succ, zpow_natCast, zpow_natCast]
    constructor
    · exact le_trans (by exact_mod_cast hlow) hfloor
    · exact hfloor'.trans_le (by exact_mod_cast hhigh)
  · obtain ⟨k, hk, hlow, hhigh⟩ := exists_length_toDigits
      (n := (i.denominator - 1) / i.value) (Nat.div_pos (by omega) hvalue)
    have hmul : i.value * 10 ^ k < i.denominator := by
      have hdiv := Nat.mul_le_of_le_div _ _ _ hlow
      rw [Nat.mul_comm]
      omega
    have hmul' : i.denominator ≤ i.value * 10 ^ (k + 1) := by
      have hdiv := (Nat.div_lt_iff_lt_mul hvalue).mp hhigh
      rw [Nat.mul_comm]
      omega
    have hnext : -((k + 1 : ℕ) : ℤ) + 1 = -(k : ℤ) := by
      push_cast
      ring
    rw [hk, hnext, zpow_neg, zpow_neg, zpow_natCast, zpow_natCast, center]
    constructor
    · rw [inv_eq_one_div, div_le_div_iff₀ (by positivity) hd', one_mul]
      exact_mod_cast hmul'
    · rw [inv_eq_one_div, div_lt_div_iff₀ hd' (by positivity), one_mul]
      exact_mod_cast hmul

end Interval

section Digits

variable {m : ℕ} {e : ℤ}

/-- The grid of the seventeenth digit is finer than the interval is wide. -/
theorem spacing_lt (h : IsCanonical m e) {top : ℤ} (htop : 10 ^ top ≤ dyadic m e) :
    (10 : ℚ) ^ (top - 16) < gapBelow m e / 2 + 2 ^ e / 2 := by
  have hpos := Binary64.two_zpow_pos e
  have hsixteen : (10 : ℚ) ^ top = 10 ^ 16 * 10 ^ (top - 16) := by
    rw [← zpow_natCast, ← zpow_add₀ (by norm_num)]
    congr 1
    omega
  rw [hsixteen, dyadic] at htop
  unfold gapBelow
  split_ifs with hpower
  · have hm : (m : ℚ) = 2 ^ 52 := by exact_mod_cast hpower.1
    rw [hm] at htop
    linarith
  · have hm : (m : ℚ) ≤ 2 ^ 53 := by exact_mod_cast h.lt.le
    have hvalue : (m : ℚ) * 2 ^ e ≤ 2 ^ 53 * 2 ^ e := by gcongr
    linarith

theorem exists_holds_seventeen (h : IsCanonical m e) (hm : 0 < m) :
    ∃ k : ℕ, (interval m e).Holds (decadic k ((interval m e).magnitude - 16)) := by
  have hproper := interval_proper hm e
  obtain ⟨hfirst, -⟩ := hproper.magnitude_bounds
  rw [interval_center] at hfirst
  have hspacing := spacing_lt h hfirst
  generalize (interval m e).magnitude - 16 = g at *
  have hten := ten_zpow_pos g
  have hgap := Binary64.gapBelow_pos m e
  have hpos := Binary64.two_zpow_pos e
  have hinside : ∀ k : ℕ, dyadic m e - gapBelow m e / 2 < decadic k g →
      decadic k g < dyadic m e + 2 ^ e / 2 → (interval m e).Holds (decadic k g) := by
    intro k hlow hhigh
    rw [interval_holds_iff h hm, h.isRounding_iff hm]
    refine ⟨hlow.le, hhigh.le, ?_⟩
    rintro (heq | heq)
    · exact absurd heq hlow.ne'
    · exact absurd heq hhigh.ne
  -- the point below the value, or the one above it
  obtain ⟨hfloor, hsucc⟩ := (hproper.inUnits g).floor_le
  rw [Interval.inUnits_center, interval_center] at hfloor hsucc
  rw [le_div_iff₀ hten] at hfloor
  rw [div_lt_iff₀ hten] at hsucc
  generalize ((interval m e).inUnits g).value / ((interval m e).inUnits g).denominator = k at *
  by_cases hlow : dyadic m e - gapBelow m e / 2 < decadic k g
  · refine ⟨k, hinside k hlow ?_⟩
    rw [decadic]
    linarith
  · refine ⟨k + 1, hinside (k + 1) ?_ ?_⟩
    · rw [decadic]
      linarith
    · rw [decadic] at hlow ⊢
      push_cast
      linarith

end Digits

/-! Where the search ends -/

/-- The search from the first digit of the value ended at `n` on the grid of `10 ^ g`. -/
structure Interval.Ends (i : Interval) (top : ℤ) (n : ℕ) (g : ℤ) : Prop extends i.Proper where
  first : 10 ^ top ≤ i.center
  lt_next : i.center < 10 ^ (top + 1)
  le : g ≤ top
  best : i.BestOn g n
  coarser : ∀ γ, g < γ → γ ≤ top → ∀ k : ℕ, ¬ i.Holds (decadic k γ)

namespace Interval.Ends

variable {i : Interval} {top g g' : ℤ} {n c : ℕ}

theorem le_of_holds (h : i.Ends top n g) (hlt : g < top) (hc : i.Holds (decadic c g')) :
    g' ≤ g := by
  by_contra! hgt
  rw [decadic_eq_of_le (min_le_left g' top)] at hc
  exact h.coarser (min g' top) (lt_min hgt hlt) (min_le_right g' top) _ hc

/-- A power of ten between the value and a decimal that rounds to it rounds to it as well. -/
theorem holds_first (h : i.Ends top n g) (hc : i.Holds (decadic c g'))
    (hle : decadic c g' ≤ 10 ^ top) : i.Holds (decadic 1 top) := by
  rw [← decadic_one] at hle
  exact hc.of_between h.holds_center hle (by rw [decadic_one]; exact h.first)

theorem holds_next (h : i.Ends top n g) (hc : i.Holds (decadic c g'))
    (hle : 10 ^ (top + 1) ≤ decadic c g') : i.Holds (decadic 1 (top + 1)) := by
  rw [← decadic_one] at hle
  exact h.holds_center.of_between hc (by rw [decadic_one]; exact h.lt_next.le) hle

/-- On a grid below the first digit, a decimal in the interval is as long as the grid makes it. -/
theorem length_eq (h : i.Ends top n g) (hlt : g < top) :
    (Nat.toDigits 10 n).length = (top - g).toNat + 1 := by
  have hlow : 10 ^ top ≤ decadic n g := by
    by_contra! hle
    exact h.coarser top hlt le_rfl 1 (h.holds_first h.best.holds hle.le)
  have hhigh : decadic n g < 10 ^ (top + 1) := by
    by_contra! hle
    have hle' := h.le_of_holds hlt (h.holds_next h.best.holds hle)
    omega
  have hmore := lt_length_of_le_decadic hlt.le hlow
  have hless := length_le_of_decadic_lt hlt.le hhigh
  omega

theorem lt_length (h : i.Ends top n g) (hlt : g < top) (hc : i.Holds (decadic c g')) :
    (top - g').toNat < (Nat.toDigits 10 c).length := by
  have hle := h.le_of_holds hlt hc
  apply lt_length_of_le_decadic (by omega)
  by_contra! hless
  exact h.coarser top hlt le_rfl 1 (h.holds_first hc hless.le)

theorem last_ne_zero (h : i.Ends top n g) (hlt : g < top) : n % 10 ≠ 0 := by
  intro hzero
  have hn : n = n / 10 * 10 := by omega
  have hcoarse : decadic n g = decadic (n / 10) (g + 1) := by
    rw [decadic_eq_of_le (Int.le_add_one le_rfl), add_sub_cancel_left, Int.toNat_one, pow_one, ← hn]
  have hholds := h.best.holds
  rw [hcoarse] at hholds
  have hle := h.le_of_holds hlt hholds
  omega

theorem le_ten (h : i.Ends top n top) : n ≤ 10 := by
  by_contra! hgt
  have hten : decadic 10 top = 10 ^ (top + 1) := by
    rw [decadic, zpow_add_one₀ (by norm_num)]
    push_cast
    ring
  have hlt : decadic 10 top < decadic n top := by
    have hpos := ten_zpow_pos top
    unfold decadic
    gcongr
  have hcenter : i.center ≤ decadic 10 top := hten ▸ h.lt_next.le
  have hholds : i.Holds (decadic 10 top) :=
    h.holds_center.of_between h.best.holds hcenter hlt.le
  have hnearest := h.best.nearest 10 hholds
  rw [abs_sub_comm, abs_sub_comm i.center, abs_of_nonneg (by linarith),
    abs_of_nonneg (by linarith)] at hnearest
  linarith

theorem pos (h : i.Ends top n g) : 0 < n := by
  have hpos := h.best.holds.pos h.toProper
  by_contra! hzero
  obtain rfl : n = 0 := by omega
  rw [decadic, Nat.cast_zero, zero_mul] at hpos
  exact lt_irrefl _ hpos

theorem nearer_of_lt (h : i.Ends top n top) (hc : i.Holds (decadic c g')) (hlength : c < 10)
    (hlt : g' < top) : |i.center - decadic n top| < |i.center - decadic c g'| := by
  have hbelow : decadic c g' < 10 ^ top := by
    have hc' : (c : ℚ) < 10 := by exact_mod_cast hlength
    calc decadic c g' < 10 * 10 ^ g' := by
          have hpos := ten_zpow_pos g'
          unfold decadic
          gcongr
      _ = 10 ^ (g' + 1) := by rw [zpow_add_one₀ (by norm_num), mul_comm]
      _ ≤ 10 ^ top := zpow_le_zpow_right₀ (by norm_num) hlt
  have hnearest := h.best.nearest 1 (h.holds_first hc hbelow.le)
  have hfirst := h.first
  rw [decadic_one, abs_of_nonneg (sub_nonneg.mpr hfirst)] at hnearest
  rw [abs_of_nonneg (by linarith : (0 : ℚ) ≤ i.center - decadic c g')]
  linarith

end Interval.Ends

section Decimal

variable {m n c : ℕ} {e top g g' : ℤ}

theorem length_toDigits_eq_one_iff : (Nat.toDigits 10 c).length = 1 ↔ c < 10 := by
  have hpos : 0 < (Nat.toDigits 10 c).length := Nat.length_toDigits_pos
  have hle : (Nat.toDigits 10 c).length ≤ 1 ↔ c < 10 ^ 1 :=
    Nat.length_toDigits_le_iff (by decide) one_pos
  omega

theorem isShortest_of_lt (h : IsCanonical m e) (hm : 0 < m) (hends : (interval m e).Ends top n g)
    (hlt : g < top) : IsShortest m e n g := by
  have hlength := hends.length_eq hlt
  have hsame : ∀ c' g', IsRounding (decadic c' g') m e →
      (Nat.toDigits 10 c').length = (Nat.toDigits 10 n).length → g' = g := by
    intro c' g' hc' hlength'
    rw [← interval_holds_iff h hm] at hc'
    have hle := hends.le_of_holds hlt hc'
    have hless := hends.lt_length hlt hc'
    omega
  refine ⟨hends.last_ne_zero hlt, ?_, ?_, ?_, ?_⟩
  · exact (interval_holds_iff h hm _).mp hends.best.holds
  · intro c' g' hc'
    rw [← interval_holds_iff h hm] at hc'
    have hle := hends.le_of_holds hlt hc'
    have hless := hends.lt_length hlt hc'
    omega
  · intro c' g' hc' hlength'
    obtain rfl := hsame c' g' hc' hlength'
    rw [← interval_center]
    exact hends.best.nearest c' ((interval_holds_iff h hm _).mpr hc')
  · intro c' g' hc' hlength' hne heq
    obtain rfl := hsame c' g' hc' hlength'
    rw [← interval_center] at heq
    have hne' : c' ≠ n := fun hcn => hne (by rw [hcn])
    obtain ⟨heven, hnext⟩ :=
      hends.best.even c' ((interval_holds_iff h hm _).mpr hc') hne' heq
    omega

/-- A multiple of the least number is none of `19 / 2` times a negative power of ten, which has a
factor five in the denominator. -/
theorem dyadic_least_ne_half (m : ℕ) (htop : top < 0) : dyadic m (-1074) ≠ 19 / 2 * 10 ^ top := by
  intro hhalf
  obtain ⟨t, rfl⟩ : ∃ t : ℕ, top = -((t + 1 : ℕ) : ℤ) := ⟨(-top).toNat - 1, by omega⟩
  obtain ⟨p, hp⟩ : ∃ p : ℕ, p = 2 ^ 1074 := ⟨_, rfl⟩
  have htwo : (2 : ℚ) ^ (-1074 : ℤ) * p = 1 := by
    rw [hp, Nat.cast_pow, Nat.cast_ofNat]
    exact zpow_neg_mul_zpow_self 1074 (by norm_num)
  have hten : (10 : ℚ) ^ (-((t + 1 : ℕ) : ℤ)) * 10 ^ (t + 1) = 1 := by
    rw [← zpow_natCast]
    exact zpow_neg_mul_zpow_self _ (by norm_num)
  have hnat : 2 * m * 10 ^ (t + 1) = 19 * p := by
    have hrat : (2 : ℚ) * m * 10 ^ (t + 1) = 19 * p := by
      rw [dyadic] at hhalf
      linear_combination 2 * 10 ^ (t + 1) * p * hhalf - 2 * m * 10 ^ (t + 1) * htwo + 19 * p * hten
    exact_mod_cast hrat
  have hfive : 5 ∣ 19 * p := by
    rw [← hnat, pow_succ]
    exact Dvd.dvd.mul_left (Dvd.dvd.mul_left (by decide) _) _
  have hcoprime : ∀ k, Nat.Coprime 5 (19 * 2 ^ k) :=
    fun k => Nat.Coprime.mul_right (by decide) (Nat.Coprime.pow_right k (by decide))
  rw [hp] at hfive
  exact absurd ((hcoprime 1074).eq_one_of_dvd hfive) (by decide)

/-- No value lies half-way between nine and ten units of its first digit while both round to it: so
few units are multiples of the least number only. -/
theorem dyadic_ne_half (h : IsCanonical m e) (hm : 0 < m)
    (hround : IsRounding (decadic 10 top) m e) : dyadic m e ≠ 19 / 2 * 10 ^ top := by
  intro hhalf
  obtain ⟨-, hhigh, -⟩ := (h.isRounding_iff hm).mp hround
  have hpos := Binary64.two_zpow_pos e
  rw [hhalf, decadic] at hhigh
  push_cast at hhigh
  have hunit : (10 : ℚ) ^ top ≤ 2 ^ e := by linarith
  have hsmall : m < 10 := by
    rw [dyadic] at hhalf
    have hle : (m : ℚ) * 2 ^ e ≤ 19 / 2 * 2 ^ e := by linarith
    have hle' : (m : ℚ) ≤ 19 / 2 := le_of_mul_le_mul_right hle hpos
    have hlt : (m : ℚ) < 10 := by linarith
    exact_mod_cast hlt
  obtain rfl : e = -1074 := h.normal.resolve_left (by omega)
  have htop : top < 0 := by
    by_contra! hle
    have hone : (1 : ℚ) ≤ 10 ^ top := one_le_zpow₀ (by norm_num) hle
    have hlt : (2 : ℚ) ^ (-1074 : ℤ) < 1 := zpow_lt_one_of_neg₀ (by norm_num) (by norm_num)
    linarith
  exact dyadic_least_ne_half m htop hhalf

theorem dropZeros_of_ne (fuel : ℕ) (hn : n % 10 ≠ 0) (g : ℤ) : dropZeros fuel n g = (n, g) := by
  cases fuel with
  | zero => rfl
  | succ fuel => rw [dropZeros, if_neg hn]

/-- The search ended at the first digit. Ten units of it are one of the digit before. -/
theorem isShortest_of_eq (h : IsCanonical m e) (hm : 0 < m) (hends : (interval m e).Ends top n top)
    (hvalue : decadic c g = decadic n top) (hc : 0 < c ∧ c < 10) (hcn : c = n ∨ n = 10) :
    IsShortest m e c g := by
  have hlength : (Nat.toDigits 10 c).length = 1 := length_toDigits_eq_one_iff.mpr hc.2
  refine ⟨by omega, ?_, ?_, ?_, ?_⟩
  · rw [hvalue]
    exact (interval_holds_iff h hm _).mp hends.best.holds
  · intro c' g' _
    rw [hlength]
    exact Nat.length_toDigits_pos
  · intro c' g' hc' hlength'
    rw [hlength, length_toDigits_eq_one_iff] at hlength'
    rw [← interval_holds_iff h hm] at hc'
    rw [hvalue, ← interval_center]
    rcases le_or_gt top g' with hle | hlt
    · rw [decadic_eq_of_le hle] at hc' ⊢
      exact hends.best.nearest _ hc'
    · exact (hends.nearer_of_lt hc' hlength' hlt).le
  · intro c' g' hc' hlength' hne heq
    rw [hlength, length_toDigits_eq_one_iff] at hlength'
    rw [← interval_holds_iff h hm] at hc'
    rw [hvalue, ← interval_center] at heq
    rw [hvalue] at hne
    have hle : top ≤ g' := by
      by_contra! hlt
      exact absurd heq (hends.nearer_of_lt hc' hlength' hlt).ne'
    obtain ⟨j, rfl⟩ := Int.le.dest hle
    have hgrid : decadic c' (top + j) = decadic (c' * 10 ^ j) top := by
      rw [decadic_eq_of_le hle, add_sub_cancel_left, Int.toNat_natCast]
    rw [hgrid] at hc' heq hne
    obtain ⟨heven, hnext⟩ := hends.best.even _ hc' (fun hcn' => hne (by rw [hcn'])) heq
    cases j with
    | zero =>
      rw [pow_zero, mul_one] at hc' heq hnext
      rcases hcn with rfl | rfl
      · omega
      · obtain rfl : c' = 9 := by omega
        have hround := (interval_holds_iff h hm _).mp hends.best.holds
        refine absurd ?_ (dyadic_ne_half h hm hround)
        have hpos := ten_zpow_pos top
        rw [interval_center, decadic, decadic] at heq
        push_cast at heq
        rcases abs_eq_abs.mp heq with hsame | hopposite <;> linarith
    | succ j =>
      rw [pow_succ, ← mul_assoc] at hnext
      omega

theorem isShortest_decimal (h : IsCanonical m e) (hm : 0 < m) :
    IsShortest m e (decimal m e).1 (decimal m e).2 := by
  have hproper := interval_proper hm e
  obtain ⟨hfirst, hnext⟩ := hproper.magnitude_bounds
  obtain ⟨n, g, hsearch, hends⟩ : ∃ n g,
      search (interval m e) (interval m e).magnitude mostDigits = some (n, g) ∧
        (interval m e).Ends (interval m e).magnitude n g := by
    rcases hproper.search_cases (interval m e).magnitude mostDigits with
      hempty | ⟨n, g, hsearch, hle, hbest, hcoarser⟩
    · obtain ⟨k, hk⟩ := exists_holds_seventeen h hm
      exact absurd hk (hempty _ (by rw [mostDigits]; omega) (by omega) k)
    · exact ⟨n, g, hsearch, hproper, hfirst, hnext, hle, hbest, hcoarser⟩
  have hdecimal : decimal m e = dropZeros (mostDigits + 1) n g := by
    simp only [decimal, hsearch]
  rw [hdecimal]
  rcases hends.le.eq_or_lt with rfl | hlt
  · have hpos := hends.pos
    have hten := hends.le_ten
    by_cases hn : n = 10
    · subst hn
      have hdrop : dropZeros (mostDigits + 1) 10 (interval m e).magnitude =
          (1, (interval m e).magnitude + 1) := rfl
      rw [hdrop]
      refine isShortest_of_eq h hm hends ?_ ⟨one_pos, by norm_num⟩ (.inr rfl)
      rw [decadic_one, decadic, zpow_add_one₀ (by norm_num), mul_comm]
      norm_num
    · rw [dropZeros_of_ne _ (by omega)]
      exact isShortest_of_eq h hm hends rfl ⟨hpos, by omega⟩ (.inl rfl)
  · rw [dropZeros_of_ne _ (hends.last_ne_zero hlt)]
    exact isShortest_of_lt h hm hends hlt

/-- Without zeros at the end, a decimal has one coefficient and one power of ten. -/
theorem eq_of_decadic_eq {c' : ℕ} (hc : c % 10 ≠ 0) (hc' : c' % 10 ≠ 0)
    (heq : decadic c g = decadic c' g') : c = c' ∧ g = g' := by
  wlog hle : g ≤ g' generalizing c c' g g'
  · obtain ⟨rfl, rfl⟩ := this hc' hc heq.symm (by omega)
    exact ⟨rfl, rfl⟩
  obtain ⟨j, rfl⟩ := Int.le.dest hle
  rw [decadic_eq_of_le hle, add_sub_cancel_left, Int.toNat_natCast, decadic, decadic] at heq
  have hcoefficient : c = c' * 10 ^ j := by
    exact_mod_cast mul_right_cancel₀ (ten_zpow_pos g).ne' heq
  cases j with
  | zero => simpa using hcoefficient
  | succ j =>
    rw [pow_succ, ← mul_assoc] at hcoefficient
    omega

theorem IsShortest.unique {c' : ℕ} (h : IsShortest m e c g) (h' : IsShortest m e c' g') :
    c = c' ∧ g = g' := by
  have hlength : (Nat.toDigits 10 c').length = (Nat.toDigits 10 c).length :=
    le_antisymm (h'.fewest c g h.rounds) (h.fewest c' g' h'.rounds)
  have hdistance : |dyadic m e - decadic c' g'| = |dyadic m e - decadic c g| :=
    le_antisymm (h'.nearest c g h.rounds hlength.symm) (h.nearest c' g' h'.rounds hlength)
  apply eq_of_decadic_eq h.last h'.last
  by_contra hne
  have hodd := h.even c' g' h'.rounds hlength (Ne.symm hne) hdistance
  have heven := h'.even c g h.rounds hlength.symm hne hdistance.symm
  omega

end Decimal

end ParamLint.Shortest

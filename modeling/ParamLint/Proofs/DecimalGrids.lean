import ParamLint.Number.Shortest
import ParamLint.Proofs.DecimalValues
import ParamLint.Proofs.RoundingInterval

/-!
# Decimals in an interval

The multiples of a power of ten form a grid. On each grid the two neighbours of a value decide
whether there is a point in the interval around it, and one of them is then the point nearest to the
value. The search goes from coarse to fine grids and stops at the first one with such a point.
-/
namespace ParamLint

/-- Two naturals that are equally near are neighbours if no other one is nearer. -/
theorem Binary64.IsNearestNat.next {y : ℚ} {n k : ℕ} (h : IsNearestNat y n) (hne : k ≠ n)
    (heq : |y - k| = |y - n|) : k = n + 1 ∨ n = k + 1 := by
  have habove := h.nearest (n + 1)
  have hbelow := h.nearest (n - 1)
  push_cast at habove hbelow
  have hhigh : y - n ≤ 1 / 2 := by
    by_contra! hlt
    rw [abs_of_pos (by linarith)] at habove
    rcases abs_cases (y - (n + 1)) with ⟨habs, -⟩ | ⟨habs, -⟩ <;> linarith
  have hlow : -(1 / 2) ≤ y - n := by
    by_contra! hlt
    rw [abs_of_neg (by linarith)] at hbelow
    rcases abs_cases (y - (n - 1)) with ⟨habs, -⟩ | ⟨habs, -⟩ <;> linarith
  have hdistance : |y - n| ≤ 1 / 2 := abs_le.mpr ⟨hlow, hhigh⟩
  obtain ⟨hlow', hhigh'⟩ := abs_le.mp (heq.trans_le hdistance)
  have hkn : (k : ℚ) ≤ n + 1 := by linarith
  have hnk : (n : ℚ) ≤ k + 1 := by linarith
  have hkn' : k ≤ n + 1 := by exact_mod_cast hkn
  have hnk' : n ≤ k + 1 := by exact_mod_cast hnk
  omega

namespace Shortest

open Binary64 (decadic IsNearestNat decadic_eq_of_le ten_zpow_pos ten_zpow_eq_div)

namespace Interval

variable {i : Interval} {x y z : ℚ}

def Holds (i : Interval) (x : ℚ) : Prop :=
  i.low ≤ x * i.denominator ∧ x * i.denominator ≤ i.high ∧
    (x * i.denominator = i.low ∨ x * i.denominator = i.high → i.closed = true)

def center (i : Interval) : ℚ := i.value / i.denominator

/-- The value is positive and inside its interval. -/
structure Proper (i : Interval) : Prop where
  denominator : 0 < i.denominator
  low_pos : 0 < i.low
  low_lt : i.low < i.value
  lt_high : i.value < i.high

theorem contains_iff (i : Interval) (n : ℕ) : i.contains n = true ↔ i.Holds n := by
  have hholds : i.Holds n ↔ i.low ≤ n * i.denominator ∧ n * i.denominator ≤ i.high ∧
      (n * i.denominator = i.low ∨ n * i.denominator = i.high → i.closed = true) := by
    unfold Holds
    norm_cast
  rw [hholds, contains]
  cases i.closed with
  | true => simp
  | false =>
    simp only [Bool.false_eq_true, if_false, Bool.and_eq_true, decide_eq_true_eq, imp_false]
    omega

theorem Holds.of_between (hx : i.Holds x) (hy : i.Holds y) (hxz : x ≤ z) (hzy : z ≤ y) :
    i.Holds z := by
  have hlow : x * i.denominator ≤ z * i.denominator := by gcongr
  have hhigh : z * i.denominator ≤ y * i.denominator := by gcongr
  refine ⟨hx.1.trans hlow, hhigh.trans hy.2.1, ?_⟩
  rintro (heq | heq)
  · exact hx.2.2 (.inl (le_antisymm (heq ▸ hlow) hx.1))
  · exact hy.2.2 (.inr (le_antisymm hy.2.1 (heq ▸ hhigh)))

theorem Proper.center_mul (h : i.Proper) : i.center * i.denominator = i.value := by
  have hd : (i.denominator : ℚ) ≠ 0 := by exact_mod_cast h.denominator.ne'
  exact div_mul_cancel₀ _ hd

theorem Proper.holds_center (h : i.Proper) : i.Holds i.center := by
  have hlow : (i.low : ℚ) < i.value := by exact_mod_cast h.low_lt
  have hhigh : (i.value : ℚ) < i.high := by exact_mod_cast h.lt_high
  rw [Holds, h.center_mul]
  refine ⟨hlow.le, hhigh.le, ?_⟩
  rintro (heq | heq)
  · exact absurd heq hlow.ne'
  · exact absurd heq hhigh.ne

theorem Holds.pos (hx : i.Holds x) (h : i.Proper) : 0 < x := by
  have hlow : (0 : ℚ) < i.low := by exact_mod_cast h.low_pos
  have hd : (0 : ℚ) < i.denominator := by exact_mod_cast h.denominator
  exact pos_of_mul_pos_left (hlow.trans_le hx.1) hd.le

/-! The nearest natural number -/

/-- No natural number of the interval is nearer to the value than `n`. Another that is as near is
next to `n`, and then `n` is even. -/
structure IsBest (i : Interval) (n : ℕ) : Prop where
  holds : i.Holds n
  nearest : ∀ k : ℕ, i.Holds k → |i.center - n| ≤ |i.center - k|
  even : ∀ k : ℕ, i.Holds k → k ≠ n → |i.center - k| = |i.center - n| →
    n % 2 = 0 ∧ (k = n + 1 ∨ n = k + 1)

theorem isBest_of_nearest {n : ℕ} (hn : i.Holds n) (hnearest : IsNearestNat i.center n) :
    i.IsBest n where
  holds := hn
  nearest k _ := by
    have hk := hnearest.nearest k
    rwa [Int.cast_natCast] at hk
  even k _ hne heq := by
    refine ⟨hnearest.even k ?_ ?_, hnearest.next hne heq⟩
    · rw [Int.cast_natCast]
      exact_mod_cast hne
    · rwa [Int.cast_natCast]

theorem Proper.floor_le (h : i.Proper) :
    ((i.value / i.denominator : ℕ) : ℚ) ≤ i.center ∧
      i.center < (i.value / i.denominator + 1 : ℕ) := by
  have hd : (0 : ℚ) < i.denominator := by exact_mod_cast h.denominator
  constructor
  · rw [center, le_div_iff₀ hd]
    exact_mod_cast Nat.div_mul_le_self i.value i.denominator
  · rw [center, div_lt_iff₀ hd]
    exact_mod_cast Nat.lt_mul_of_div_lt (Nat.lt_succ_self _) h.denominator

/-- Where there is any natural number on one side of the value, the next one on that side is in the
interval. -/
theorem Proper.holds_floor (h : i.Proper) {k : ℕ} (hk : i.Holds k)
    (hle : k ≤ i.value / i.denominator) : i.Holds (i.value / i.denominator : ℕ) :=
  hk.of_between h.holds_center (by exact_mod_cast hle) h.floor_le.1

theorem Proper.holds_succ_floor (h : i.Proper) {k : ℕ} (hk : i.Holds k)
    (hle : i.value / i.denominator + 1 ≤ k) : i.Holds (i.value / i.denominator + 1 : ℕ) :=
  h.holds_center.of_between hk h.floor_le.2.le (by exact_mod_cast hle)

theorem isBest_of_nearer {n : ℕ} (hn : i.Holds n)
    (hall : ∀ k : ℕ, i.Holds k → k ≠ n → |i.center - n| < |i.center - k|) : i.IsBest n where
  holds := hn
  nearest k hk := by
    by_cases hne : k = n
    · rw [hne]
    · exact (hall k hk hne).le
  even k hk hne heq := absurd heq (hall k hk hne).ne'

theorem Proper.natural?_cases (h : i.Proper) :
    (i.natural? = none ∧ ∀ k : ℕ, ¬ i.Holds k) ∨ ∃ n, i.natural? = some n ∧ i.IsBest n := by
  obtain ⟨hlow, hhigh⟩ := h.floor_le
  have hfloor : ∀ k : ℕ, i.Holds k → k ≤ i.value / i.denominator →
      i.contains (i.value / i.denominator) = true :=
    fun k hk hle => (contains_iff i _).mpr (h.holds_floor hk hle)
  have hsucc : ∀ k : ℕ, i.Holds k → i.value / i.denominator + 1 ≤ k →
      i.contains (i.value / i.denominator + 1) = true :=
    fun k hk hle => (contains_iff i _).mpr (h.holds_succ_floor hk hle)
  have hround : IsNearestNat i.center (Binary64.roundQuotient i.value i.denominator) :=
    Binary64.isNearestNat_roundQuotient i.value h.denominator
  rw [Binary64.roundQuotient] at hround
  rw [natural?]
  generalize i.value / i.denominator = c at *
  cases hc : i.contains c with
  | true =>
    have hholds := (contains_iff i c).mp hc
    cases hc' : i.contains (c + 1) with
    | true =>
      have hholds' := (contains_iff i (c + 1)).mp hc'
      refine .inr ⟨_, rfl, isBest_of_nearest (hholds.of_between hholds' ?_ ?_) hround⟩
      · exact_mod_cast hround.ge hlow
      · exact_mod_cast hround.le hhigh.le
    | false =>
      refine .inr ⟨c, rfl, isBest_of_nearer hholds fun k hk hne => ?_⟩
      have hlt : k < c := by
        by_contra! hge
        exact absurd (hsucc k hk (by omega)) (by simp [hc'])
      have hlt' : (k : ℚ) < c := by exact_mod_cast hlt
      rw [abs_of_nonneg (sub_nonneg.mpr hlow)]
      exact (sub_lt_sub_left hlt' _).trans_le (le_abs_self _)
  | false =>
    have hge : ∀ k : ℕ, i.Holds k → c + 1 ≤ k := by
      intro k hk
      by_contra! hlt
      exact absurd (hfloor k hk (by omega)) (by simp [hc])
    cases hc' : i.contains (c + 1) with
    | true =>
      refine .inr ⟨c + 1, rfl, isBest_of_nearer ((contains_iff i _).mp hc') ?_⟩
      intro k hk hne
      have hlt : c + 1 < k := lt_of_le_of_ne (hge k hk) hne.symm
      have hlt' : ((c + 1 : ℕ) : ℚ) < k := by exact_mod_cast hlt
      rw [abs_sub_comm, abs_sub_comm i.center, abs_of_nonneg (sub_nonneg.mpr hhigh.le)]
      exact (sub_lt_sub_right hlt' _).trans_le (le_abs_self _)
    | false =>
      refine .inl ⟨rfl, fun k hk => ?_⟩
      exact absurd (hsucc k hk (hge k hk)) (by simp [hc'])

/-! Grids -/

theorem inUnits_holds_iff (i : Interval) (g : ℤ) (x : ℚ) :
    (i.inUnits g).Holds x ↔ i.Holds (x * 10 ^ g) := by
  have hup : (0 : ℚ) < (10 ^ (-g).toNat : ℕ) := by positivity
  have hscale : x * (i.inUnits g).denominator =
      x * 10 ^ g * i.denominator * (10 ^ (-g).toNat : ℕ) := by
    rw [ten_zpow_eq_div]
    simp only [Interval.inUnits, Nat.pow_eq]
    push_cast
    field_simp
  have hlow : ((i.inUnits g).low : ℚ) = i.low * (10 ^ (-g).toNat : ℕ) := by
    exact_mod_cast rfl
  have hhigh : ((i.inUnits g).high : ℚ) = i.high * (10 ^ (-g).toNat : ℕ) := by
    exact_mod_cast rfl
  rw [Holds, Holds, hscale, hlow, hhigh, mul_le_mul_iff_left₀ hup, mul_le_mul_iff_left₀ hup,
    mul_left_inj' hup.ne', mul_left_inj' hup.ne']
  rfl

theorem inUnits_center (i : Interval) (g : ℤ) : (i.inUnits g).center = i.center / 10 ^ g := by
  rw [ten_zpow_eq_div, center, center]
  simp only [Interval.inUnits, Nat.pow_eq]
  push_cast
  field_simp

theorem Proper.inUnits (h : i.Proper) (g : ℤ) : (i.inUnits g).Proper where
  denominator := Nat.mul_pos h.denominator (Nat.pow_pos (by decide))
  low_pos := Nat.mul_pos h.low_pos (Nat.pow_pos (by decide))
  low_lt := Nat.mul_lt_mul_of_pos_right h.low_lt (Nat.pow_pos (by decide))
  lt_high := Nat.mul_lt_mul_of_pos_right h.lt_high (Nat.pow_pos (by decide))

structure BestOn (i : Interval) (g : ℤ) (n : ℕ) : Prop where
  holds : i.Holds (decadic n g)
  nearest : ∀ k : ℕ, i.Holds (decadic k g) →
    |i.center - decadic n g| ≤ |i.center - decadic k g|
  even : ∀ k : ℕ, i.Holds (decadic k g) → k ≠ n →
    |i.center - decadic k g| = |i.center - decadic n g| → n % 2 = 0 ∧ (k = n + 1 ∨ n = k + 1)

theorem inUnits_distance (i : Interval) (g : ℤ) (k : ℕ) :
    |(i.inUnits g).center - k| * 10 ^ g = |i.center - decadic k g| := by
  have hpos := ten_zpow_pos g
  rw [inUnits_center, decadic, ← abs_of_pos hpos, ← abs_mul, abs_of_pos hpos, sub_mul,
    div_mul_cancel₀ _ hpos.ne']

theorem IsBest.bestOn {g : ℤ} {n : ℕ} (h : (i.inUnits g).IsBest n) : i.BestOn g n where
  holds := (inUnits_holds_iff i g n).mp h.holds
  nearest k hk := by
    have hnearest := h.nearest k ((inUnits_holds_iff i g k).mpr hk)
    rw [← inUnits_distance, ← inUnits_distance]
    exact mul_le_mul_of_nonneg_right hnearest (ten_zpow_pos g).le
  even k hk hne heq := by
    rw [← inUnits_distance, ← inUnits_distance] at heq
    exact h.even k ((inUnits_holds_iff i g k).mpr hk) hne
      (mul_right_cancel₀ (ten_zpow_pos g).ne' heq)

/-! The search -/

theorem Proper.grid_cases (h : i.Proper) (g : ℤ) :
    ((i.inUnits g).natural? = none ∧ ∀ k : ℕ, ¬ i.Holds (decadic k g)) ∨
      ∃ n, (i.inUnits g).natural? = some n ∧ i.BestOn g n := by
  rcases (h.inUnits g).natural?_cases with ⟨hnone, hall⟩ | ⟨n, hsome, hbest⟩
  · exact .inl ⟨hnone, fun k hk => hall k ((inUnits_holds_iff i g k).mpr hk)⟩
  · exact .inr ⟨n, hsome, hbest.bestOn⟩

/-- The search ends on the first grid with a point in the interval, or there is none on all grids
that it tried. -/
theorem Proper.search_cases (h : i.Proper) (g : ℤ) (tries : ℕ) :
    (∀ γ, g - tries < γ → γ ≤ g → ∀ k : ℕ, ¬ i.Holds (decadic k γ)) ∨
      ∃ n g', search i g tries = some (n, g') ∧ g' ≤ g ∧ i.BestOn g' n ∧
        ∀ γ, g' < γ → γ ≤ g → ∀ k : ℕ, ¬ i.Holds (decadic k γ) := by
  induction tries generalizing g with
  | zero => exact .inl fun γ hlow hhigh => by omega
  | succ tries ih =>
    rcases h.grid_cases g with ⟨hnone, hempty⟩ | ⟨n, hsome, hbest⟩
    · have hmore : ∀ γ, γ ≤ g → (γ ≤ g - 1 → ∀ k : ℕ, ¬ i.Holds (decadic k γ)) →
          ∀ k : ℕ, ¬ i.Holds (decadic k γ) := by
        intro γ hγ hfiner
        rcases hγ.eq_or_lt with rfl | hlt
        · exact hempty
        · exact hfiner (by omega)
      rcases ih (g - 1) with hall | ⟨n, g', hsearch, hle, hbest, hall⟩
      · exact .inl fun γ hlow hhigh => hmore γ hhigh (hall γ (by push_cast at hlow; omega))
      · refine .inr ⟨n, g', ?_, by omega, hbest, fun γ hlow hhigh => ?_⟩
        · rw [search, hnone]
          exact hsearch
        · exact hmore γ hhigh (hall γ hlow)
    · refine .inr ⟨n, g, ?_, le_rfl, hbest, fun γ hlow hhigh => by omega⟩
      rw [search, hsome]

end Interval

end Shortest

end ParamLint

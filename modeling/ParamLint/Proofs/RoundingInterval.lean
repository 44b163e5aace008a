import ParamLint.Proofs.Rounding

/-!
# What rounds to a value

The numbers that round to a positive value fill the interval between the midpoints to its two
neighbours, and the midpoints belong to it if the mantissa is even. Below a power of two the
neighbour is half as far as above it.
-/
namespace ParamLint.Binary64

variable {m m' : ℕ} {e e' : ℤ} {x : ℚ}

def gapBelow (m : ℕ) (e : ℤ) : ℚ := if m = 2 ^ 52 ∧ -1074 < e then 2 ^ e / 2 else 2 ^ e

theorem gapBelow_pos (m : ℕ) (e : ℤ) : 0 < gapBelow m e := by
  have hpos := two_zpow_pos e
  unfold gapBelow
  split_ifs <;> linarith

theorem gapBelow_le (m : ℕ) (e : ℤ) : gapBelow m e ≤ 2 ^ e := by
  have hpos := two_zpow_pos e
  unfold gapBelow
  split_ifs <;> linarith

theorem two_zpow_sub_one (e : ℤ) : (2 : ℚ) ^ (e - 1) = 2 ^ e / 2 := by
  rw [zpow_sub_one₀ (by norm_num), div_eq_mul_inv]

theorem IsCanonical.dyadic_le_of_lt (h : IsCanonical m e) (h' : IsCanonical m' e') (he : e' < e) :
    dyadic m' e' ≤ dyadic m e - gapBelow m e := by
  have hleast : -1074 < e := h'.least.trans_lt he
  have hnormal : 2 ^ 52 ≤ m := h.normal.resolve_right hleast.ne'
  have hpos := two_zpow_pos e
  by_cases hm : m = 2 ^ 52
  · have hm' : (m' : ℚ) ≤ 2 ^ 53 - 1 := by
      have hlt : (m' : ℚ) + 1 ≤ 2 ^ 53 := by exact_mod_cast h'.lt
      linarith
    have hpow : (2 : ℚ) ^ e' ≤ 2 ^ (e - 1) := zpow_le_zpow_right₀ (by norm_num) (by omega)
    calc dyadic m' e' ≤ (2 ^ 53 - 1) * 2 ^ (e - 1) := by
          unfold dyadic
          gcongr
      _ = dyadic m e - gapBelow m e := by
          rw [gapBelow, if_pos ⟨hm, hleast⟩, dyadic, hm, two_zpow_sub_one]
          push_cast
          ring
  · have hm' : (2 : ℚ) ^ 52 + 1 ≤ m := by
      have hlt : 2 ^ 52 + 1 ≤ m := by omega
      exact_mod_cast hlt
    have hfar := h'.dyadic_lt he
    calc dyadic m' e' ≤ (2 ^ 52 + 1) * 2 ^ e - 2 ^ e := by linarith
      _ ≤ dyadic m e - gapBelow m e := by
          rw [gapBelow, if_neg fun hpower => hm hpower.1, dyadic]
          gcongr

/-- Between a number and its neighbours there is no other one. -/
theorem IsCanonical.dyadic_cases (h : IsCanonical m e) (h' : IsCanonical m' e') :
    dyadic m' e' ≤ dyadic m e - gapBelow m e ∨ dyadic m' e' = dyadic m e ∨
      dyadic m e + 2 ^ e ≤ dyadic m' e' := by
  rcases le_or_gt e e' with he | he
  · have hgap := gapBelow_le m e
    have hpos := two_zpow_pos e
    rw [dyadic_eq_mul he m', dyadic]
    generalize m' * 2 ^ (e' - e).toNat = k
    rcases lt_trichotomy k m with hk | rfl | hk
    · have hk' : (k : ℚ) + 1 ≤ m := by exact_mod_cast hk
      have hmul := mul_le_mul_of_nonneg_right hk' hpos.le
      exact .inl (by linarith)
    · exact .inr (.inl rfl)
    · have hk' : (m : ℚ) + 1 ≤ k := by exact_mod_cast hk
      have hmul := mul_le_mul_of_nonneg_right hk' hpos.le
      exact .inr (.inr (by linarith))
  · exact .inl (h.dyadic_le_of_lt h' he)

theorem IsCanonical.exists_above (h : IsCanonical m e) :
    ∃ m' e', IsCanonical m' e' ∧ dyadic m' e' = dyadic m e + 2 ^ e := by
  have hsucc : dyadic (m + 1) e = dyadic m e + 2 ^ e := by
    unfold dyadic
    push_cast
    ring
  by_cases hm : m + 1 = 2 ^ 53
  · refine ⟨2 ^ 52, e + 1, ⟨by norm_num, by have hleast := h.least; omega, .inl le_rfl⟩, ?_⟩
    rw [dyadic_carry, ← hm, hsucc]
  · have hlt := h.lt
    refine ⟨m + 1, e, ⟨by omega, h.least, ?_⟩, hsucc⟩
    exact h.normal.imp_left fun hnormal => hnormal.trans (Nat.le_succ m)

theorem IsCanonical.exists_below (h : IsCanonical m e) (hm : 0 < m) :
    ∃ m' e', IsCanonical m' e' ∧ dyadic m' e' = dyadic m e - gapBelow m e := by
  by_cases hpower : m = 2 ^ 52 ∧ -1074 < e
  · obtain ⟨rfl, he⟩ := hpower
    refine ⟨2 ^ 53 - 1, e - 1, ⟨by norm_num, by omega, .inl (by norm_num)⟩, ?_⟩
    rw [gapBelow, if_pos ⟨rfl, he⟩, dyadic, dyadic, two_zpow_sub_one]
    push_cast
    ring
  · have hlt := h.lt
    have hleast := h.least
    refine ⟨m - 1, e, ⟨by omega, hleast, ?_⟩, ?_⟩
    · rcases h.normal with hnormal | he
      · have hcases : m ≠ 2 ^ 52 ∨ e ≤ -1074 := by
          by_contra! hboth
          exact hpower hboth
        omega
      · exact .inr he
    · rw [gapBelow, if_neg hpower, dyadic, dyadic, Nat.cast_pred hm]
      ring

/-- Up to the midpoints no neighbour is nearer, and only at a midpoint one is as near. -/
theorem abs_sub_le_of_gaps {v w a b : ℚ} (ha : 0 < a) (hb : 0 < b) (hlow : v - a / 2 ≤ x)
    (hhigh : x ≤ v + b / 2) (hw : w ≤ v - a ∨ w = v ∨ v + b ≤ w) :
    |x - v| ≤ |x - w| ∧ (w ≠ v → |x - w| = |x - v| → x = v - a / 2 ∨ x = v + b / 2) := by
  rcases hw with hw | rfl | hw
  · have hdistance : |x - w| = x - w := abs_of_nonneg (by linarith)
    rcases abs_cases (x - v) with ⟨habs, -⟩ | ⟨habs, -⟩
    · exact ⟨by linarith, fun _ heq => by linarith⟩
    · exact ⟨by linarith, fun _ heq => .inl (by linarith)⟩
  · exact ⟨le_rfl, fun hne => absurd rfl hne⟩
  · have hdistance : |x - w| = w - x := by rw [abs_of_nonpos (by linarith), neg_sub]
    rcases abs_cases (x - v) with ⟨habs, -⟩ | ⟨habs, -⟩
    · exact ⟨by linarith, fun _ heq => .inr (by linarith)⟩
    · exact ⟨by linarith, fun _ heq => by linarith⟩

/-- From midpoint to midpoint, the midpoints only for an even mantissa. -/
theorem IsCanonical.isRounding_iff (h : IsCanonical m e) (hm : 0 < m) :
    IsRounding x m e ↔ dyadic m e - gapBelow m e / 2 ≤ x ∧ x ≤ dyadic m e + 2 ^ e / 2 ∧
      (x = dyadic m e - gapBelow m e / 2 ∨ x = dyadic m e + 2 ^ e / 2 → m % 2 = 0) := by
  have hpos := two_zpow_pos e
  have hgap := gapBelow_pos m e
  constructor
  · intro hround
    obtain ⟨a, ea, ha, hvalue_a⟩ := h.exists_above
    obtain ⟨b, eb, hb, hvalue_b⟩ := h.exists_below hm
    have hnear_a := hround.nearest a ea ha
    have hnear_b := hround.nearest b eb hb
    have heven_a := hround.even a ea ha
    have heven_b := hround.even b eb hb
    rw [hvalue_a] at hnear_a heven_a
    rw [hvalue_b] at hnear_b heven_b
    have hlow : dyadic m e - gapBelow m e / 2 ≤ x := by
      by_contra! hlt
      rw [abs_of_nonpos (by linarith), abs_sub_comm] at hnear_b
      rcases abs_cases (dyadic m e - gapBelow m e - x) with ⟨habs, -⟩ | ⟨habs, -⟩ <;> linarith
    have hhigh : x ≤ dyadic m e + 2 ^ e / 2 := by
      by_contra! hlt
      rw [abs_of_nonneg (by linarith)] at hnear_a
      rcases abs_cases (x - (dyadic m e + 2 ^ e)) with ⟨habs, -⟩ | ⟨habs, -⟩ <;> linarith
    refine ⟨hlow, hhigh, ?_⟩
    rintro (heq | heq)
    · apply heven_b (by linarith)
      rw [heq, abs_of_nonneg (by linarith), abs_of_nonpos (by linarith)]
      ring
    · apply heven_a (by linarith)
      rw [heq, abs_of_nonpos (by linarith), abs_of_nonneg (by linarith)]
      ring
  · rintro ⟨hlow, hhigh, heven⟩
    refine ⟨h, fun m' e' h' => ?_, fun m' e' h' hne heq => heven ?_⟩
    · exact (abs_sub_le_of_gaps hgap hpos hlow hhigh (h.dyadic_cases h')).1
    · exact (abs_sub_le_of_gaps hgap hpos hlow hhigh (h.dyadic_cases h')).2 hne heq

end ParamLint.Binary64

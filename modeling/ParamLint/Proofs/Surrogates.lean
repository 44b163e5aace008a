import Mathlib.Data.List.Chain
import ParamLint.Text.Utf16

/-!
# Halves of surrogate pairs

Reading units as a text keeps the units, and leaves no high half before a low half. So a text in
which halves are joined has the units it had before.
-/
namespace ParamLint

namespace CodePoint

theorem toNat_of_ofNat? {n : Nat} {p : CodePoint} (h : ofNat? n = some p) : p.toNat = n := by
  by_cases hchar : n.isValidChar
  · rw [ofNat?, dif_pos hchar] at h
    cases h
    rfl
  by_cases hhalf : 0xD800 ≤ n ∧ n < 0xE000
  · rw [ofNat?, dif_neg hchar, dif_pos hhalf] at h
    cases h
    simp only [toNat]
    omega
  · rw [ofNat?, dif_neg hchar, dif_neg hhalf] at h
    cases h

theorem exists_ofNat? {n : Nat} (h : n ≤ 0x10FFFF) : ∃ p, ofNat? n = some p := by
  by_cases hchar : n.isValidChar
  · exact ⟨_, dif_pos hchar⟩
  · have hhalf : 0xD800 ≤ n ∧ n < 0xE000 := by
      unfold Nat.isValidChar at hchar
      omega
    rw [ofNat?, dif_neg hchar, dif_pos hhalf]
    exact ⟨_, rfl⟩

theorem toNat_le (p : CodePoint) : p.toNat ≤ 0x10FFFF := by
  cases p with
  | scalar c =>
    have hc : c.toNat.isValidChar := c.valid
    unfold Nat.isValidChar at hc
    simp only [toNat]
    omega
  | surrogate d =>
    simp only [toNat]
    omega

end CodePoint

/-- No high half stands directly before a low half. -/
def Text.IsJoined (t : Text) : Prop :=
  t.IsChain fun p q => ¬ (Utf16.isHigh p.toNat ∧ Utf16.isLow q.toNat)

namespace Utf16

theorem unitsOf_of_lt {n : Nat} (h : n < 0x10000) : unitsOf n = [n.toUInt16] := if_pos h

theorem isHigh_iff {n : Nat} : isHigh n ↔ 0xD800 ≤ n ∧ n < 0xDC00 := by simp [isHigh]

theorem isLow_iff {n : Nat} : isLow n ↔ 0xDC00 ≤ n ∧ n < 0xE000 := by simp [isLow]

theorem single_toNat (p : CodePoint) : single p.toNat = p := by
  rw [single, CodePoint.ofNat?_toNat, Option.getD_some]

theorem toNat_single {n : Nat} (h : n ≤ 0x10FFFF) : (single n).toNat = n := by
  obtain ⟨p, hp⟩ := CodePoint.exists_ofNat? h
  rw [single, hp]
  exact CodePoint.toNat_of_ofNat? hp

theorem toNat_single_unit (u : UInt16) : (single u.toNat).toNat = u.toNat :=
  toNat_single (by have := u.toNat_lt; omega)

theorem toNat_pair {n m : Nat} (hn : isHigh n) (hm : isLow m) :
    (pair n m).toNat = 0x10000 + (n - 0xD800) * 0x400 + (m - 0xDC00) := by
  rw [isHigh_iff] at hn
  rw [isLow_iff] at hm
  exact toNat_single (by omega)

theorem unitsOf_single (u : UInt16) : unitsOf (single u.toNat).toNat = [u] := by
  have hu := u.toNat_lt
  rw [toNat_single_unit, unitsOf_of_lt (by omega), Nat.toUInt16_eq, UInt16.ofNat_toNat]

theorem unitsOf_pair {u v : UInt16} (hu : isHigh u.toNat) (hv : isLow v.toNat) :
    unitsOf (pair u.toNat v.toNat).toNat = [u, v] := by
  rw [toNat_pair hu hv]
  rw [isHigh_iff] at hu
  rw [isLow_iff] at hv
  generalize hn : 0x10000 + (u.toNat - 0xD800) * 0x400 + (v.toNat - 0xDC00) = n
  have hhigh : 0xD800 + (n - 0x10000) / 0x400 = u.toNat := by omega
  have hlow : 0xDC00 + (n - 0x10000) % 0x400 = v.toNat := by omega
  rw [unitsOf, if_neg (by omega), hhigh, hlow, Nat.toUInt16_eq, Nat.toUInt16_eq,
    UInt16.ofNat_toNat, UInt16.ofNat_toNat]

/-- The units of a code point are one of its number, or a high and a low half that stand for it. -/
theorem unitsOf_cases (p : CodePoint) :
    (∃ u, unitsOf p.toNat = [u] ∧ u.toNat = p.toNat) ∨
      ∃ u v, unitsOf p.toNat = [u, v] ∧ isHigh u.toNat ∧ isLow v.toNat ∧
        pair u.toNat v.toNat = p := by
  have hp := p.toNat_le
  by_cases hsmall : p.toNat < 0x10000
  · refine .inl ⟨p.toNat.toUInt16, if_pos hsmall, ?_⟩
    rw [Nat.toUInt16_eq, UInt16.toNat_ofNat_of_lt' hsmall]
  · have hhigh : 0xD800 + (p.toNat - 0x10000) / 0x400 < 0x10000 := by omega
    have hlow : 0xDC00 + (p.toNat - 0x10000) % 0x400 < 0x10000 := by omega
    have hpair : 0x10000 + (p.toNat - 0x10000) / 0x400 * 0x400 + (p.toNat - 0x10000) % 0x400 =
        p.toNat := by omega
    refine .inr ⟨_, _, if_neg hsmall, ?_⟩
    rw [isHigh_iff, isLow_iff, pair, Nat.toUInt16_eq, Nat.toUInt16_eq,
      UInt16.toNat_ofNat_of_lt' hhigh, UInt16.toNat_ofNat_of_lt' hlow]
    refine ⟨by omega, by omega, ?_⟩
    rw [Nat.add_sub_cancel_left, Nat.add_sub_cancel_left, hpair, single_toNat]

theorem encode_cons (p : CodePoint) (t : Text) :
    encode (p :: t) = unitsOf p.toNat ++ encode t := rfl

theorem encode_ofChars (cs : List Char) :
    encode (Text.ofChars cs) = cs.flatMap fun c => unitsOf c.toNat := by
  rw [encode, Text.ofChars, List.flatMap_map]
  rfl

theorem encode_append (t u : Text) : encode (t ++ u) = encode t ++ encode u := List.flatMap_append

theorem encode_decode (us : List UInt16) : encode (decode us) = us := by
  fun_induction decode us with
  | case1 => rfl
  | case2 u => rw [encode_cons, unitsOf_single]; rfl
  | case3 u v rest hpair ih =>
    rw [Bool.and_eq_true] at hpair
    rw [encode_cons, unitsOf_pair hpair.1 hpair.2, ih]
    rfl
  | case4 u v rest hpair ih =>
    rw [encode_cons, unitsOf_single, ih]
    rfl

theorem isLow_of_mem_head? {u : UInt16} {us : List UInt16} {p : CodePoint}
    (h : p ∈ (decode (u :: us)).head?) (hp : isLow p.toNat) : isLow u.toNat := by
  have hsingle : p = single u.toNat → isLow u.toNat := by
    rintro rfl
    rwa [toNat_single_unit] at hp
  cases us with
  | nil => exact hsingle (Option.mem_some.mp h).symm
  | cons v us =>
    rw [decode] at h
    split_ifs at h with hpair
    · -- a pair is above all halves
      rw [Bool.and_eq_true] at hpair
      have hnumber := toNat_pair hpair.1 hpair.2
      rw [← Option.mem_some.mp h, isLow_iff] at hp
      omega
    · exact hsingle (Option.mem_some.mp h).symm

theorem isJoined_decode (us : List UInt16) : (decode us).IsJoined := by
  fun_induction decode us with
  | case1 => exact .nil
  | case2 u => exact .singleton _
  | case3 u v rest hpair ih =>
    rw [Bool.and_eq_true] at hpair
    have hnumber := toNat_pair hpair.1 hpair.2
    refine ih.cons fun p _ hhalves => ?_
    have hhigh := isHigh_iff.mp hhalves.1
    omega
  | case4 u v rest hpair ih =>
    refine ih.cons fun p hp hhalves => hpair ?_
    have hhigh := hhalves.1
    rw [toNat_single_unit] at hhigh
    rw [hhigh, isLow_of_mem_head? hp hhalves.2]
    rfl

end Utf16

end ParamLint

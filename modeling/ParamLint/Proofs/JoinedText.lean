import ParamLint.Proofs.Surrogates

/-!
# Joined texts

Of all texts with the same UTF-16 units exactly one has no high half before a low half, and joining
gives this one. It is what writing a text as bytes and reading them back does, and no text is
refused on the way.
-/
namespace ParamLint

namespace Utf16

/-! Reading what was written -/

theorem decode_cons_of_unpaired {u : UInt16} {us : List UInt16}
    (h : ∀ v ∈ us.head?, isHigh u.toNat → ¬ isLow v.toNat) :
    decode (u :: us) = single u.toNat :: decode us := by
  cases us with
  | nil => rfl
  | cons v us =>
    rw [decode, if_neg]
    rw [Bool.and_eq_true]
    rintro ⟨hhigh, hlow⟩
    exact h v rfl hhigh hlow

theorem exists_isLow_of_mem_head? {t : Text} {v : UInt16} (h : v ∈ (encode t).head?)
    (hlow : isLow v.toNat) : ∃ p ∈ t.head?, isLow p.toNat := by
  cases t with
  | nil => cases h
  | cons p t =>
    refine ⟨p, rfl, ?_⟩
    rw [encode_cons] at h
    rcases unitsOf_cases p with ⟨u, hunits, hu⟩ | ⟨u, w, hunits, hhigh, -, -⟩
    · rw [hunits] at h
      cases h
      rwa [hu] at hlow
    · -- the first unit of a pair is no low half
      rw [hunits] at h
      cases h
      rw [isHigh_iff] at hhigh
      rw [isLow_iff] at hlow
      omega

theorem decode_encode {t : Text} (h : t.IsJoined) : decode (encode t) = t := by
  induction t with
  | nil => rfl
  | cons p t ih =>
    rw [encode_cons]
    rcases unitsOf_cases p with ⟨u, hunits, hu⟩ | ⟨u, v, hunits, hhigh, hlow, hpair⟩
    · have hunpaired : ∀ v ∈ (encode t).head?, isHigh u.toNat → ¬ isLow v.toNat := by
        intro v hv hhigh hlow
        obtain ⟨q, hq, hqlow⟩ := exists_isLow_of_mem_head? hv hlow
        rw [hu] at hhigh
        exact (List.isChain_cons.mp h).1 q hq ⟨hhigh, hqlow⟩
      rw [hunits, List.singleton_append, decode_cons_of_unpaired hunpaired, hu, single_toNat,
        ih h.tail]
    · rw [hunits, List.cons_append, List.singleton_append, decode, hhigh, hlow, Bool.and_self,
        if_pos rfl, hpair, ih h.tail]

/-! Bytes -/

/-- A unit in two bytes, the lower one first. -/
def unitBytes (u : UInt16) : List UInt8 := [(u.toNat % 0x100).toUInt8, (u.toNat / 0x100).toUInt8]

def toBytes (t : Text) : List UInt8 := (encode t).flatMap unitBytes

/-- The units of bytes, unless one byte is left over. -/
def unitsOfBytes? : List UInt8 → Option (List UInt16)
  | [] => some []
  | [_] => none
  | low :: high :: rest =>
    (unitsOfBytes? rest).map ((low.toNat + high.toNat * 0x100).toUInt16 :: ·)

def decode? : List UInt16 → Option Text
  | [] => some []
  | [u] => (CodePoint.ofNat? u.toNat).map fun p => [p]
  | u :: v :: rest =>
    if isHigh u.toNat && isLow v.toNat then do
      let p ← CodePoint.ofNat? (0x10000 + (u.toNat - 0xD800) * 0x400 + (v.toNat - 0xDC00))
      return p :: (← decode? rest)
    else do
      let p ← CodePoint.ofNat? u.toNat
      return p :: (← decode? (v :: rest))

def ofBytes? (bytes : List UInt8) : Option Text := unitsOfBytes? bytes >>= decode?

theorem unitsOfBytes?_flatMap (us : List UInt16) :
    unitsOfBytes? (us.flatMap unitBytes) = some us := by
  induction us with
  | nil => rfl
  | cons u us ih =>
    have hu := u.toNat_lt
    have hlow : u.toNat % 0x100 < 0x100 := by omega
    have hhigh : u.toNat / 0x100 < 0x100 := by omega
    have hvalue : u.toNat % 0x100 + u.toNat / 0x100 * 0x100 = u.toNat := by omega
    rw [List.flatMap_cons, unitBytes, List.cons_append, List.singleton_append, unitsOfBytes?, ih,
      Nat.toUInt8_eq, Nat.toUInt8_eq, UInt8.toNat_ofNat_of_lt' hlow, UInt8.toNat_ofNat_of_lt' hhigh,
      hvalue, Nat.toUInt16_eq, UInt16.ofNat_toNat, Option.map_some]

theorem ofNat?_of_unit (u : UInt16) : CodePoint.ofNat? u.toNat = some (single u.toNat) := by
  rw [← CodePoint.ofNat?_toNat, toNat_single_unit]

theorem ofNat?_of_pair {n m : Nat} (hn : isHigh n) (hm : isLow m) :
    CodePoint.ofNat? (0x10000 + (n - 0xD800) * 0x400 + (m - 0xDC00)) = some (pair n m) := by
  rw [← toNat_pair hn hm, CodePoint.ofNat?_toNat]

theorem decode?_eq (us : List UInt16) : decode? us = some (decode us) := by
  fun_induction decode us with
  | case1 => rfl
  | case2 u =>
    rw [decode?, ofNat?_of_unit]
    rfl
  | case3 u v rest hpair ih =>
    have hhalves := Bool.and_eq_true_iff.mp hpair
    rw [decode?, if_pos hpair, ofNat?_of_pair hhalves.1 hhalves.2, ih]
    rfl
  | case4 u v rest hpair ih =>
    rw [decode?, if_neg hpair, ofNat?_of_unit, ih]
    rfl

end Utf16

namespace Text

variable {t u : Text}

theorem ofBytes?_toBytes (t : Text) : Utf16.ofBytes? (Utf16.toBytes t) = some t.joinSurrogates := by
  rw [Utf16.ofBytes?, Utf16.toBytes, Utf16.unitsOfBytes?_flatMap]
  exact Utf16.decode?_eq _

theorem encode_joinSurrogates (t : Text) : Utf16.encode t.joinSurrogates = Utf16.encode t :=
  Utf16.encode_decode _

theorem isJoined_joinSurrogates (t : Text) : t.joinSurrogates.IsJoined := Utf16.isJoined_decode _

theorem joinSurrogates_of_isJoined (h : t.IsJoined) : t.joinSurrogates = t := Utf16.decode_encode h

theorem joinSurrogates_eq_iff :
    t.joinSurrogates = u.joinSurrogates ↔ Utf16.encode t = Utf16.encode u := by
  constructor
  · intro h
    rw [← encode_joinSurrogates t, h, encode_joinSurrogates]
  · intro h
    rw [joinSurrogates, h, joinSurrogates]

/-- Joining gives the one joined text with the same units. -/
theorem eq_joinSurrogates (hjoined : u.IsJoined) (hunits : Utf16.encode u = Utf16.encode t) :
    u = t.joinSurrogates := by
  rw [← joinSurrogates_eq_iff.mpr hunits, joinSurrogates_of_isJoined hjoined]

end Text

end ParamLint

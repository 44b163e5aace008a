import Mathlib.Data.List.Forall2
import ParamLint.Proofs.Boundaries
import ParamLint.Proofs.Pointwise

/-!
# Bytes that can be decoded

Decoding accepts the bytes that encoding produces and no others. A sequence that has begun carries
the invariant: however it is completed within the ranges, its bytes are the encoding of its value.
-/
namespace ParamLint.Utf8

variable {v : Nat}

theorem val_ofNat (h : v < 0xD800 ∨ 0xDFFF < v ∧ v < 0x110000) : (Char.ofNat v).val.toNat = v := by
  rw [Char.ofNat, dif_pos h]
  rfl

theorem eq_ofNat {b : UInt8} {n : Nat} (h : b.toNat = n) : b = UInt8.ofNat n := by
  rw [← h, UInt8.ofNat_toNat]

def codeOf (v : Nat) : List UInt8 := String.utf8EncodeChar (Char.ofNat v)

theorem codeOf_one (h : v < 0x80) : codeOf v = [UInt8.ofNat v] := by
  have hv := val_ofNat (v := v) (by omega)
  simp only [codeOf, String.utf8EncodeChar, hv]
  rw [if_pos (by omega)]

theorem codeOf_two (hlow : 0x80 ≤ v) (hhigh : v < 0x800) :
    codeOf v =
      [UInt8.ofNat (v / 64 % 32 + 192), UInt8.ofNat (v % 64 + 128)] := by
  have hv := val_ofNat (v := v) (by omega)
  simp only [codeOf, String.utf8EncodeChar, hv]
  rw [if_neg (by omega), if_pos (by omega)]

theorem codeOf_three (hlow : 0x800 ≤ v) (hhigh : v < 0x10000)
    (hhalf : v < 0xD800 ∨ 0xDFFF < v) :
    codeOf v =
      [UInt8.ofNat (v / 4096 % 16 + 224), UInt8.ofNat (v / 64 % 64 + 128),
        UInt8.ofNat (v % 64 + 128)] := by
  have hv := val_ofNat (v := v) (by omega)
  simp only [codeOf, String.utf8EncodeChar, hv]
  rw [if_neg (by omega), if_neg (by omega), if_pos (by omega)]

theorem codeOf_four (hlow : 0x10000 ≤ v) (hhigh : v < 0x110000) :
    codeOf v =
      [UInt8.ofNat (v / 262144 % 8 + 240), UInt8.ofNat (v / 4096 % 64 + 128),
        UInt8.ofNat (v / 64 % 64 + 128), UInt8.ofNat (v % 64 + 128)] := by
  have hv := val_ofNat (v := v) (by omega)
  simp only [codeOf, String.utf8EncodeChar, hv]
  rw [if_neg (by omega), if_neg (by omega), if_neg (by omega)]

def Within (range : Nat × Nat) (b : UInt8) : Prop := range.1 ≤ b.toNat ∧ b.toNat ≤ range.2

/-- The value with the bits of one more byte. -/
def carry (value : Nat) (b : UInt8) : Nat := value * 0x40 + (b.toNat - 0x80)

theorem carry_eq (value : Nat) (b : UInt8) :
    carry value b = value * 0x40 + (b.toNat - 0x80) := rfl

/-- However the sequence is completed, it is the encoding of its value. -/
def Pending.IsCode (p : Pending) : Prop :=
  p.ranges ≠ [] ∧ ∀ tail, List.Forall₂ Within p.ranges tail →
    p.bytes ++ tail = codeOf (tail.foldl carry p.value)

theorem isCode_two {b : UInt8} {value : Nat} (hb : b.toNat = value + 0xC0)
    (hvalue : 2 ≤ value ∧ value ≤ 0x1F) : Pending.IsCode ⟨[b], value, [continuation]⟩ := by
  refine ⟨List.cons_ne_nil _ _, fun tail htail => ?_⟩
  dsimp only
  simp only [List.forall₂_cons_left_iff, List.forall₂_nil_left_iff, Within, continuation] at htail
  obtain ⟨b₁, -, h₁, rfl, rfl⟩ := htail
  have hcarry₁ := carry_eq value b₁
  rw [List.foldl_cons, List.foldl_nil, List.singleton_append]
  rw [codeOf_two (by omega) (by omega)]
  simp only [List.cons.injEq, and_true]
  exact ⟨eq_ofNat (by omega), eq_ofNat (by omega)⟩

theorem isCode_three {b : UInt8} {value low high : Nat} (hb : b.toNat = value + 0xE0)
    (hvalue : value ≤ 0xF) (hlow : 0x80 ≤ low ∧ (value = 0 → 0xA0 ≤ low))
    (hhigh : high ≤ 0xBF ∧ (value = 0xD → high ≤ 0x9F)) :
    Pending.IsCode ⟨[b], value, [(low, high), continuation]⟩ := by
  refine ⟨List.cons_ne_nil _ _, fun tail htail => ?_⟩
  dsimp only
  simp only [List.forall₂_cons_left_iff, List.forall₂_nil_left_iff, Within, continuation] at htail
  obtain ⟨b₁, -, h₁, ⟨b₂, -, h₂, rfl, rfl⟩, rfl⟩ := htail
  have hcarry₁ := carry_eq value b₁
  have hcarry₂ := carry_eq (carry value b₁) b₂
  rw [List.foldl_cons, List.foldl_cons, List.foldl_nil, List.singleton_append]
  rw [codeOf_three (by omega) (by omega) (by omega)]
  simp only [List.cons.injEq, and_true]
  exact ⟨eq_ofNat (by omega), eq_ofNat (by omega), eq_ofNat (by omega)⟩

theorem isCode_four {b : UInt8} {value low high : Nat} (hb : b.toNat = value + 0xF0)
    (hvalue : value ≤ 4) (hlow : 0x80 ≤ low ∧ (value = 0 → 0x90 ≤ low))
    (hhigh : high ≤ 0xBF ∧ (value = 4 → high ≤ 0x8F)) :
    Pending.IsCode ⟨[b], value, [(low, high), continuation, continuation]⟩ := by
  refine ⟨List.cons_ne_nil _ _, fun tail htail => ?_⟩
  dsimp only
  simp only [List.forall₂_cons_left_iff, List.forall₂_nil_left_iff, Within, continuation] at htail
  obtain ⟨b₁, -, h₁, ⟨b₂, -, h₂, ⟨b₃, -, h₃, rfl, rfl⟩, rfl⟩, rfl⟩ := htail
  have hcarry₁ := carry_eq value b₁
  have hcarry₂ := carry_eq (carry value b₁) b₂
  have hcarry₃ := carry_eq (carry (carry value b₁) b₂) b₃
  rw [List.foldl_cons, List.foldl_cons, List.foldl_cons, List.foldl_nil, List.singleton_append]
  rw [codeOf_four (by omega) (by omega)]
  simp only [List.cons.injEq, and_true]
  exact ⟨eq_ofNat (by omega), eq_ofNat (by omega), eq_ofNat (by omega), eq_ofNat (by omega)⟩

theorem isCode_of_begin? {b : UInt8} {p : Pending} (h : begin? b = some p) : p.IsCode := by
  unfold begin? at h
  dsimp only at h
  split_ifs at h with htwo hE0 hED hthree hF0 hfour hF4
  all_goals cases h
  · exact isCode_two (by omega) (by omega)
  · exact isCode_three (by omega) (by omega) (by omega) (by omega)
  · exact isCode_three (by omega) (by omega) (by omega) (by omega)
  · exact isCode_three (by omega) (by omega) (by omega) (by omega)
  · exact isCode_four (by omega) (by omega) (by omega) (by omega)
  · exact isCode_four (by omega) (by omega) (by omega) (by omega)
  · exact isCode_four (by omega) (by omega) (by omega) (by omega)

theorem bytes_of_begin? {b : UInt8} {p : Pending} (h : begin? b = some p) : p.bytes = [b] := by
  unfold begin? at h
  dsimp only at h
  split_ifs at h
  all_goals
    cases h
    rfl

theorem Pending.IsCode.step {p : Pending} {b : UInt8} {range : Nat × Nat}
    {more : List (Nat × Nat)} (h : p.IsCode) (hranges : p.ranges = range :: more)
    (hb : Within range b) :
    (more = [] → p.bytes ++ [b] = codeOf (carry p.value b)) ∧
      (more ≠ [] → Pending.IsCode ⟨p.bytes ++ [b], carry p.value b, more⟩) := by
  constructor
  · rintro rfl
    have hlast := h.2 [b] (by rw [hranges]; exact .cons hb .nil)
    rwa [List.foldl_cons, List.foldl_nil] at hlast
  · intro hne
    refine ⟨hne, fun tail htail => ?_⟩
    have hmore := h.2 (b :: tail) (by rw [hranges]; exact .cons hb htail)
    rwa [List.foldl_cons, List.append_cons] at hmore

/-- What is decoded, with the bytes of a sequence that has begun in front, is an encoding. -/
theorem eq_encode_of_decodeFrom {o : Nat} {bytes : List UInt8} {cs : List Char}
    {pending : Option Pending} (hpending : ∀ p ∈ pending, p.IsCode)
    (h : decodeFrom o pending bytes = .ok cs) :
    pending.elim [] Pending.bytes ++ bytes = encode cs := by
  induction bytes generalizing o pending cs with
  | nil =>
    cases pending with
    | none =>
      cases h
      rfl
    | some p => cases h
  | cons b rest ih =>
    have hlast : ∀ {o v}, (decodeFrom o none rest).map (Char.ofNat v :: ·) = .ok cs →
        codeOf v ++ rest = encode cs := by
      intro o v hmap
      obtain ⟨ds, hds, rfl⟩ := map_eq_ok_iff.mp hmap
      have hrest := ih (by simp) hds
      rw [Option.elim_none, List.nil_append] at hrest
      rw [hrest]
      rfl
    unfold decodeFrom at h
    cases pending with
    | none =>
      dsimp only at h
      split at h
      · rename_i hascii
        rw [← hlast h, codeOf_one hascii, UInt8.ofNat_toNat]
        rfl
      · split at h
        · cases h
        · rename_i p hp
          have hmore := ih (by simpa using isCode_of_begin? hp) h
          rw [Option.elim_some, bytes_of_begin? hp] at hmore
          exact hmore
    | some p =>
      dsimp only at h
      split at h
      · cases h
      · rename_i low high more hranges
        split at h
        · rename_i hb
          obtain ⟨hend, hgo⟩ := (hpending p rfl).step hranges hb
          rw [← carry_eq] at h
          rw [Option.elim_some, List.append_cons]
          split at h
          · rename_i hmore
            rw [hend (List.isEmpty_iff.mp hmore)]
            exact hlast h
          · rename_i hmore
            have hcode := hgo (mt List.isEmpty_iff.mpr hmore)
            generalize carry p.value b = v at h hcode
            exact ih (by simpa using hcode) h
        · cases h

theorem decode_eq_ok_iff {bytes : List UInt8} {cs : List Char} :
    decode bytes = .ok cs ↔ bytes = encode cs := by
  constructor
  · intro h
    exact eq_encode_of_decodeFrom (by simp) h
  · rintro rfl
    exact decode_encode cs

end ParamLint.Utf8

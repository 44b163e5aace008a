import Mathlib.Tactic.SplitIfs
import ParamLint.Syntax.Position
import ParamLint.Syntax.Source

/-!
# Text between boundaries

Decoding undoes encoding, character by character. What lies between two positions of a source is
again text, so a node that starts and stops at positions can be read.
-/
namespace ParamLint.Utf8

theorem toNat_ofNat_of_lt {n : Nat} (h : n < 256) : (UInt8.ofNat n).toNat = n := by
  rw [UInt8.toNat_ofNat']
  exact Nat.mod_eq_of_lt h

section Steps

variable (o : Nat) (rest : List UInt8)

theorem decodeFrom_ascii {n : Nat} (h : n < 0x80) :
    decodeFrom o none (UInt8.ofNat n :: rest) =
      (decodeFrom (o + 1) none rest).map (Char.ofNat n :: ·) := by
  have hn : (UInt8.ofNat n).toNat = n := toNat_ofNat_of_lt (by omega)
  simp only [decodeFrom, hn, if_pos h]

theorem decodeFrom_begin {n : Nat} {p : Pending} (hlow : 0x80 ≤ n) (hhigh : n < 0x100)
    (hp : begin? (UInt8.ofNat n) = some p) :
    decodeFrom o none (UInt8.ofNat n :: rest) = decodeFrom (o + 1) (some p) rest := by
  have hn : (UInt8.ofNat n).toNat = n := toNat_ofNat_of_lt hhigh
  have h : ¬ n < 0x80 := by omega
  simp only [decodeFrom, hn, if_neg h, hp]

theorem decodeFrom_more {n low high : Nat} (bytes : List UInt8) (value : Nat)
    (range : Nat × Nat) (ranges : List (Nat × Nat)) (hlow : low ≤ n) (hhigh : n ≤ high)
    (hn : n < 0x100) :
    decodeFrom o (some ⟨bytes, value, (low, high) :: range :: ranges⟩) (UInt8.ofNat n :: rest) =
      decodeFrom (o + 1)
        (some ⟨bytes ++ [UInt8.ofNat n], value * 0x40 + (n - 0x80), range :: ranges⟩) rest := by
  have hb : (UInt8.ofNat n).toNat = n := toNat_ofNat_of_lt hn
  simp only [decodeFrom, hb, if_pos (And.intro hlow hhigh), List.isEmpty_cons]
  rfl

theorem decodeFrom_last {n low high : Nat} (bytes : List UInt8) (value : Nat) (hlow : low ≤ n)
    (hhigh : n ≤ high) (hn : n < 0x100) :
    decodeFrom o (some ⟨bytes, value, [(low, high)]⟩) (UInt8.ofNat n :: rest) =
      (decodeFrom (o + 1) none rest).map (Char.ofNat (value * 0x40 + (n - 0x80)) :: ·) := by
  have hb : (UInt8.ofNat n).toNat = n := toNat_ofNat_of_lt hn
  simp only [decodeFrom, hb, if_pos (And.intro hlow hhigh), List.isEmpty_nil]
  rfl

end Steps

theorem begin?_two {n : Nat} (hlow : 0xC2 ≤ n) (hhigh : n ≤ 0xDF) :
    begin? (UInt8.ofNat n) = some ⟨[UInt8.ofNat n], n - 0xC0, [continuation]⟩ := by
  have hn : (UInt8.ofNat n).toNat = n := toNat_ofNat_of_lt (by omega)
  simp only [begin?, hn, if_pos (And.intro hlow hhigh)]

/-- The first of three bytes, and the range of the second: no overlong forms, no surrogates. -/
theorem begin?_three {n : Nat} (hlow : 0xE0 ≤ n) (hhigh : n ≤ 0xEF) :
    ∃ low high, begin? (UInt8.ofNat n) =
        some ⟨[UInt8.ofNat n], n - 0xE0, [(low, high), continuation]⟩ ∧
      low = (if n = 0xE0 then 0xA0 else 0x80) ∧ high = (if n = 0xED then 0x9F else 0xBF) := by
  have hn : (UInt8.ofNat n).toNat = n := toNat_ofNat_of_lt (by omega)
  refine ⟨_, _, ?_, rfl, rfl⟩
  simp only [begin?, hn]
  have h2 : ¬ (0xC2 ≤ n ∧ n ≤ 0xDF) := by omega
  rw [if_neg h2]
  by_cases h0 : n = 0xE0
  · subst h0
    simp [continuation]
  · by_cases hD : n = 0xED
    · subst hD
      simp [continuation]
    · rw [if_neg h0, if_neg hD, if_pos (by omega : 0xE1 ≤ n ∧ n ≤ 0xEF), if_neg h0, if_neg hD]
      rfl

/-- The first of four bytes, and the range of the second: no overlong forms, nothing too large. -/
theorem begin?_four {n : Nat} (hlow : 0xF0 ≤ n) (hhigh : n ≤ 0xF4) :
    ∃ low high, begin? (UInt8.ofNat n) =
        some ⟨[UInt8.ofNat n], n - 0xF0, [(low, high), continuation, continuation]⟩ ∧
      low = (if n = 0xF0 then 0x90 else 0x80) ∧ high = (if n = 0xF4 then 0x8F else 0xBF) := by
  have hn : (UInt8.ofNat n).toNat = n := toNat_ofNat_of_lt (by omega)
  refine ⟨_, _, ?_, rfl, rfl⟩
  simp only [begin?, hn]
  rw [if_neg (by omega), if_neg (by omega), if_neg (by omega), if_neg (by omega)]
  by_cases h0 : n = 0xF0
  · subst h0
    simp [continuation]
  · by_cases h4 : n = 0xF4
    · subst h4
      simp [continuation]
    · rw [if_neg h0, if_pos (by omega : 0xF1 ≤ n ∧ n ≤ 0xF3), if_neg h0, if_neg h4]
      rfl

theorem decodeFrom_encodeChar (o : Nat) (c : Char) (rest : List UInt8) :
    decodeFrom o none (String.utf8EncodeChar c ++ rest) =
      (decodeFrom (o + (String.utf8EncodeChar c).length) none rest).map (c :: ·) := by
  have hvalid : c.val.toNat < 0xD800 ∨ 0xDFFF < c.val.toNat ∧ c.val.toNat < 0x110000 := c.valid
  have hc : Char.ofNat c.val.toNat = c := Char.ofNat_toNat c
  simp only [String.utf8EncodeChar]
  generalize c.val.toNat = v at hvalid hc ⊢
  split_ifs with h1 h2 h3
  · rw [List.singleton_append, decodeFrom_ascii o rest (by omega), hc]
    rfl
  · have hb := begin?_two (n := v / 64 % 32 + 192) (by omega) (by omega)
    have hv : (v / 64 % 32 + 192 - 0xC0) * 0x40 + (v % 64 + 128 - 0x80) = v := by omega
    simp only [List.cons_append, List.nil_append]
    rw [decodeFrom_begin o _ (by omega) (by omega) hb, continuation,
      decodeFrom_last _ _ _ _ (by omega) (by omega) (by omega), hv, hc]
    rfl
  · obtain ⟨low, high, hb, hl, hh⟩ := begin?_three (n := v / 4096 % 16 + 224) (by omega) (by omega)
    have hv : ((v / 4096 % 16 + 224 - 0xE0) * 0x40 + (v / 64 % 64 + 128 - 0x80)) * 0x40 +
        (v % 64 + 128 - 0x80) = v := by omega
    simp only [List.cons_append, List.nil_append]
    rw [decodeFrom_begin o _ (by omega) (by omega) hb, continuation,
      decodeFrom_more _ _ _ _ _ _ (by split at hl <;> omega) (by split at hh <;> omega) (by omega),
      decodeFrom_last _ _ _ _ (by omega) (by omega) (by omega), hv, hc]
    rfl
  · obtain ⟨low, high, hb, hl, hh⟩ := begin?_four (n := v / 262144 % 8 + 240) (by omega) (by omega)
    have hv : (((v / 262144 % 8 + 240 - 0xF0) * 0x40 + (v / 4096 % 64 + 128 - 0x80)) * 0x40 +
        (v / 64 % 64 + 128 - 0x80)) * 0x40 + (v % 64 + 128 - 0x80) = v := by omega
    simp only [List.cons_append, List.nil_append]
    rw [decodeFrom_begin o _ (by omega) (by omega) hb, continuation,
      decodeFrom_more _ _ _ _ _ _ (by split at hl <;> omega) (by split at hh <;> omega) (by omega),
      decodeFrom_more _ _ _ _ _ _ (by omega) (by omega) (by omega),
      decodeFrom_last _ _ _ _ (by omega) (by omega) (by omega), hv, hc]
    rfl

theorem decodeFrom_encode (o : Nat) (cs : List Char) : decodeFrom o none (encode cs) = .ok cs := by
  induction cs generalizing o with
  | nil => rfl
  | cons c cs ih =>
    rw [encode, List.flatMap_cons, decodeFrom_encodeChar, ← encode, ih]
    rfl

theorem decode_encode (cs : List Char) : decode (encode cs) = .ok cs := decodeFrom_encode 0 cs

theorem length_encode (cs : List Char) : (encode cs).length = byteLength cs := by
  induction cs with
  | nil => rfl
  | cons c cs ih =>
    rw [encode, List.flatMap_cons, List.length_append, String.length_utf8EncodeChar, ← encode, ih]
    rfl

theorem encode_append (cs ds : List Char) : encode (cs ++ ds) = encode cs ++ encode ds :=
  List.flatMap_append

end ParamLint.Utf8

namespace ParamLint

theorem IsBoundary.exists_take {src : List Char} {offset : Nat} (h : IsBoundary src offset) :
    ∃ n, offset = (Utf8.encode (src.take n)).length := by
  obtain ⟨rest, before, rfl, rfl⟩ := h
  exact ⟨before.length, by rw [List.take_left, Utf8.length_encode]⟩

theorem take_encode_take (cs : List Char) (n : Nat) :
    (Utf8.encode cs).take (Utf8.encode (cs.take n)).length = Utf8.encode (cs.take n) := by
  have hsplit : Utf8.encode cs = Utf8.encode (cs.take n) ++ Utf8.encode (cs.drop n) := by
    rw [← Utf8.encode_append, List.take_append_drop]
  rw [hsplit, List.take_left]

theorem take_append_drop_take (cs : List Char) {i j : Nat} (h : i ≤ j) :
    cs.take i ++ (cs.take j).drop i = cs.take j := by
  have hsplit := List.take_append_drop i (cs.take j)
  rwa [List.take_take, Nat.min_eq_left h] at hsplit

/-- The bytes between two boundaries are those of the characters between them. -/
theorem slice_encode (cs : List Char) (i j : Nat) :
    ((Utf8.encode cs).take (Utf8.encode (cs.take j)).length).drop
        (Utf8.encode (cs.take i)).length =
      Utf8.encode ((cs.take j).drop i) := by
  rw [take_encode_take]
  rcases Nat.le_total i j with hij | hji
  · have hbytes : Utf8.encode (cs.take j) =
        Utf8.encode (cs.take i) ++ Utf8.encode ((cs.take j).drop i) := by
      rw [← Utf8.encode_append, take_append_drop_take cs hij]
    rw [hbytes, List.drop_left]
  · have hbytes : Utf8.encode (cs.take i) =
        Utf8.encode (cs.take j) ++ Utf8.encode ((cs.take i).drop j) := by
      rw [← Utf8.encode_append, take_append_drop_take cs hji]
    have hnone : (cs.take j).drop i = [] := List.drop_eq_nil_of_le (by simp; omega)
    rw [hbytes, hnone, List.length_append, List.drop_eq_nil_of_le (Nat.le_add_right _ _)]
    rfl

namespace Node

namespace OnBoundaries

variable {cs : List Char} {n m : Node}

theorem of_mem_named (h : n.OnBoundaries cs) (hm : m ∈ n.namedChildren) : m.OnBoundaries cs :=
  h.of_mem (List.mem_filter.mp hm).1

theorem of_child (h : n.OnBoundaries cs) {f : Field} (hm : n.child? f = some m) :
    m.OnBoundaries cs :=
  h.of_mem (List.mem_of_find?_eq_some hm)

theorem exists_text (h : n.OnBoundaries cs) : ∃ text, (Source.ofChars cs).text n = .ok text := by
  obtain ⟨i, hi⟩ := h.start.exists_take
  obtain ⟨j, hj⟩ := h.stop.exists_take
  refine ⟨(cs.take j).drop i, ?_⟩
  rw [Source.text, Source.ofChars, hi, hj, slice_encode, Utf8.decode_encode]
  rfl

end OnBoundaries

end Node

end ParamLint

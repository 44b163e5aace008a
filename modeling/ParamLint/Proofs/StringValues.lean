import ParamLint.Key.Name
import ParamLint.Proofs.Numerals
import ParamLint.Proofs.Pointwise
import ParamLint.Proofs.Surrogates

/-!
# Values of strings

What the parts of a string literal stand for as UTF-16 units: the characters of a fragment and the
escapes of strict code. The value of a string has the units of its parts one after the other, with
every pair of halves joined, whichever parts the two came from. Octal escapes, which only sloppy code
may hold, are read as one number; this is what they stand for unless the number is above `0o377`.
-/
namespace ParamLint

namespace Escape

open Integer (IsNumeral)

/-- The escapes of strict code, with the backslash, and their units. -/
inductive Strict : List Char → List UInt16 → Prop
  | control {c : Char} {u : UInt16}
      (h : (c, u) ∈ [('b', 0x08), ('t', 0x09), ('n', 0x0A), ('v', 0x0B), ('f', 0x0C), ('r', 0x0D),
        ('0', 0x00)]) :
      Strict ['\\', c] [u]
  | hex {a b : Char} {n : Nat} (h : IsNumeral 16 [a, b] n) : Strict ['\\', 'x', a, b] [n.toUInt16]
  | unit {a b c d : Char} {n : Nat} (h : IsNumeral 16 [a, b, c, d] n) :
      Strict ['\\', 'u', a, b, c, d] [n.toUInt16]
  | codePoint {digits : List Char} {n : Nat} (h : IsNumeral 16 digits n) (hn : n ≤ 0x10FFFF) :
      Strict ('\\' :: 'u' :: '\x7b' :: (digits ++ ['\x7d'])) (Utf16.unitsOf n)
  | lineContinuation {ending : List Char}
      (h : ending ∈ [['\n'], ['\r'], ['\r', '\n'], ['\u2028'], ['\u2029']]) :
      Strict ('\\' :: ending) []
  | character {c : Char}
      (h : c ∉ ['b', 't', 'n', 'v', 'f', 'r', 'x', 'u', '0', '1', '2', '3', '4', '5', '6', '7',
        '\n', '\r', '\u2028', '\u2029']) :
      Strict ['\\', c] (Utf16.unitsOf c.toNat)

/-- A reading that gives a text with the units `us`. -/
def ReadsAs (x : Except ReadError Text) (us : List UInt16) : Prop :=
  ∃ t, x = .ok t ∧ Utf16.encode t = us

/-- An escape that gives the number of a code point is read as it, if it is no single letter with a
meaning of its own. -/
theorem value_of_numeral {body digits : List Char} {base n : Nat}
    (hsingle : ∀ c, body = [c] → singles.lookup c = none) (hline : body ∉ lineContinuations)
    (hnumeral : numeral? body = some (base, digits))
    (hread : Integer.read? base digits = some (n : Int)) (hn : n ≤ 0x10FFFF) :
    ReadsAs (value ('\\' :: body)) (Utf16.unitsOf n) := by
  obtain ⟨p, hp⟩ := CodePoint.exists_ofNat? hn
  have hcode : codePoint body n = .ok [p] := by
    rw [codePoint, if_neg (by omega), if_neg (by omega), Int.toNat_natCast, hp]
  refine ⟨[p], ?_, ?_⟩
  · simp only [value, List.tail_cons, if_neg hline, hnumeral, hread, hcode]
    split
    · rename_i c hlookup
      split at hlookup
      · rename_i d
        rw [hsingle d rfl] at hlookup
        cases hlookup
      · cases hlookup
    · rfl
  · rw [Utf16.encode_cons, CodePoint.toNat_of_ofNat? hp]
    exact List.append_nil _

theorem value_of_hex {m c : Char} {rest digits : List Char} {n : Nat}
    (hm : m = 'u' ∨ m = 'x') (hnumeral : numeral? (m :: c :: rest) = some (16, digits))
    (h : IsNumeral 16 digits n) (hn : n ≤ 0x10FFFF) :
    ReadsAs (value ('\\' :: m :: c :: rest)) (Utf16.unitsOf n) := by
  have hline : m :: c :: rest ∉ lineContinuations := by
    rcases hm with rfl | rfl <;> simp [lineContinuations]
  exact value_of_numeral (by simp) hline hnumeral (h.read?_eq (by simp)) hn

theorem value_of_plain {c : Char} (hsingle : singles.lookup c = none)
    (hline : [c] ∉ lineContinuations) (hoctal : ¬ Digit.isOctal c) :
    ReadsAs (value ['\\', c]) (Utf16.unitsOf c.toNat) := by
  have hnumeral : numeral? [c] = none := by
    simp [numeral?, hoctal]
  refine ⟨Text.ofChars [c], ?_, ?_⟩
  · simp only [value, List.tail_cons, hsingle, if_neg hline, hnumeral]
  · rw [Utf16.encode_ofChars]
    exact List.append_nil _

theorem Strict.readsAs {sequence : List Char} {us : List UInt16} (h : Strict sequence us) :
    ReadsAs (value sequence) us := by
  cases h with
  | control h =>
    simp only [List.mem_cons, Prod.mk.injEq, List.not_mem_nil, or_false] at h
    rcases h with ⟨rfl, rfl⟩ | ⟨rfl, rfl⟩ | ⟨rfl, rfl⟩ | ⟨rfl, rfl⟩ | ⟨rfl, rfl⟩ | ⟨rfl, rfl⟩ |
      ⟨rfl, rfl⟩
    all_goals exact ⟨_, rfl, rfl⟩
  | @hex a b n h =>
    have hn : n < 16 ^ 2 := h.lt_pow (by decide)
    rw [← Utf16.unitsOf_of_lt (by omega)]
    exact value_of_hex (.inr rfl) rfl h (by omega)
  | @unit a b c d n h =>
    have hn : n < 16 ^ 4 := h.lt_pow (by decide)
    obtain ⟨v, hv⟩ := h.exists_denotes List.mem_cons_self
    have ha : a ≠ '\x7b' := hv.of_spellings (p := fun c _ => c ≠ '\x7b') (by decide)
    have hnumeral : numeral? ['u', a, b, c, d] = some (16, [a, b, c, d]) := by
      simp [numeral?]
    rw [← Utf16.unitsOf_of_lt (by omega)]
    exact value_of_hex (.inl rfl) hnumeral h (by omega)
  | @codePoint digits n h hn =>
    have hnumeral : numeral? ('u' :: '\x7b' :: (digits ++ ['\x7d'])) = some (16, digits) := by
      simp [numeral?]
    exact value_of_hex (.inl rfl) hnumeral h hn
  | lineContinuation h =>
    simp only [List.mem_cons, List.not_mem_nil, or_false] at h
    rcases h with rfl | rfl | rfl | rfl | rfl
    all_goals exact ⟨_, rfl, rfl⟩
  | @character c h =>
    simp only [List.mem_cons, List.not_mem_nil, or_false, not_or] at h
    have hsingle : singles.lookup c = none := by
      simp [singles, List.lookup_eq_none_iff, h]
    have hline : [c] ∉ lineContinuations := by
      simp [lineContinuations, h]
    have hoctal : ¬ Digit.isOctal c := by
      rw [Digit.isOctal_iff]
      rintro ⟨v, hv⟩
      have hmem : v < 8 → c ∈ ['0', '1', '2', '3', '4', '5', '6', '7'] :=
        hv.of_spellings (p := fun c v => v < 8 → c ∈ ['0', '1', '2', '3', '4', '5', '6', '7'])
          (by decide)
      simpa [h] using hmem hv.1
    exact value_of_plain hsingle hline hoctal

/-! Octal escapes -/

/-- A backslash and up to three octal digits, as sloppy code reads them: the character of the longest
beginning with a number up to `0o377`, and the digits after it as they are. -/
inductive Octal : List Char → List UInt16 → Prop
  | intro {taken rest : List Char} {n : Nat} (h : IsNumeral 8 taken n) (hn : n ≤ 0o377)
      (hrest : ∀ c ∈ rest, Digit.isOctal c) (hlength : (taken ++ rest).length ≤ 3)
      (hlongest : ∀ longer m, longer <+: taken ++ rest → IsNumeral 8 longer m → m ≤ 0o377 →
        longer.length ≤ taken.length) :
      Octal ('\\' :: (taken ++ rest)) (n.toUInt16 :: rest.flatMap fun c => Utf16.unitsOf c.toNat)

def Sloppy (sequence : List Char) (us : List UInt16) : Prop :=
  Strict sequence us ∨ Octal sequence us

/-- An escape of up to three octal digits that together are no number up to `0o377`. -/
def IsWide (sequence : List Char) : Prop :=
  ∃ digits n, sequence = '\\' :: digits ∧ digits.length ≤ 3 ∧ IsNumeral 8 digits n ∧ 0o377 < n

theorem numeral?_of_octal {digits : List Char} (hne : digits ≠ [])
    (h : ∀ c ∈ digits, Digit.isOctal c) : numeral? digits = some (8, digits) := by
  unfold numeral?
  split
  · exact absurd (h 'u' List.mem_cons_self) (by decide)
  · exact absurd (h 'u' List.mem_cons_self) (by decide)
  · exact absurd (h 'x' List.mem_cons_self) (by decide)
  · rw [if_pos]
    simpa [hne] using h

theorem value_of_octal {digits : List Char} {n : Nat} (h : IsNumeral 8 digits n)
    (hlength : digits.length ≤ 3) : ReadsAs (value ('\\' :: digits)) (Utf16.unitsOf n) := by
  have hn : n < 8 ^ 3 := (h.lt_pow (by decide)).trans_le (Nat.pow_le_pow_right (by decide) hlength)
  have hoctal : ∀ c ∈ digits, Digit.isOctal c :=
    fun c hc => Digit.isOctal_iff.mpr (h.exists_denotes hc)
  by_cases hzero : digits = ['0']
  · -- the single zero is looked up, and stands for its number there
    subst hzero
    have hnumber : IsNumeral 8 ['0'] 0 := ⟨by decide, [0], .cons (by decide) .nil, rfl⟩
    rw [h.unique hnumber]
    exact ⟨_, rfl, rfl⟩
  have hsingle : ∀ c, digits = [c] → singles.lookup c = none := by
    rintro c rfl
    obtain ⟨v, hv⟩ := h.exists_denotes List.mem_cons_self
    have hlookup : v < 8 → c = '0' ∨ singles.lookup c = none :=
      hv.of_spellings (p := fun c v => v < 8 → c = '0' ∨ singles.lookup c = none) (by decide)
    exact (hlookup hv.1).resolve_left fun hc => hzero (by rw [hc])
  have hline : digits ∉ lineContinuations := by
    intro hmem
    have hbreak : ∀ ending ∈ lineContinuations, ending.all Digit.isOctal = false := by decide
    have hnot := hbreak digits hmem
    rw [List.all_eq_true.mpr hoctal] at hnot
    cases hnot
  exact value_of_numeral hsingle hline (numeral?_of_octal h.1 hoctal) (h.read?_eq (by simp))
    (by omega)

theorem isWide_iff {digits : List Char} {n : Nat} (h : IsNumeral 8 digits n)
    (hlength : digits.length ≤ 3) : IsWide ('\\' :: digits) ↔ 0o377 < n := by
  constructor
  · rintro ⟨digits', m, heq, -, hm, hwide⟩
    cases heq
    rwa [h.unique hm]
  · intro hwide
    exact ⟨digits, n, rfl, hlength, h, hwide⟩

theorem IsWide.length_eq {sequence : List Char} (h : IsWide sequence) : sequence.length = 4 := by
  obtain ⟨digits, n, rfl, hlength, hdigits, hwide⟩ := h
  have hn := hdigits.lt_pow (by decide)
  have hlow : ¬ digits.length ≤ 2 := by
    intro hle
    have hpow : 8 ^ digits.length ≤ 8 ^ 2 := Nat.pow_le_pow_right (by decide) hle
    omega
  rw [List.length_cons]
  omega

theorem IsWide.isOctal {sequence : List Char} (h : IsWide sequence) :
    ∀ c ∈ sequence.tail, Digit.isOctal c := by
  obtain ⟨digits, n, rfl, -, hdigits, -⟩ := h
  exact fun c hc => Digit.isOctal_iff.mpr (hdigits.exists_denotes hc)

theorem Strict.not_isWide {sequence : List Char} {us : List UInt16} (h : Strict sequence us) :
    ¬ IsWide sequence := by
  intro hwide
  have hlength := hwide.length_eq
  cases h with
  | control h => cases hlength
  | hex h => exact absurd (hwide.isOctal 'x' List.mem_cons_self) (by decide)
  | unit h => cases hlength
  | codePoint h hn => exact absurd (hwide.isOctal 'u' List.mem_cons_self) (by decide)
  | @lineContinuation ending h =>
    have hshort : ∀ e ∈ [['\n'], ['\r'], ['\r', '\n'], ['\u2028'], ['\u2029']], e.length ≤ 2 := by
      decide
    have hle := hshort ending h
    rw [List.length_cons] at hlength
    omega
  | character h => cases hlength

/-- The escapes in `escapes` are read as what they stand for, apart from those that are misread:
there the units read and those meant differ, whatever comes after them. -/
def ReadUnless (misread : List Char → Prop) (escapes : List Char → List UInt16 → Prop) : Prop :=
  ∀ sequence us, escapes sequence us → ∃ vs, ReadsAs (value sequence) vs ∧
    (misread sequence ∧ (∀ xs ys, vs ++ xs ≠ us ++ ys) ∨ ¬ misread sequence ∧ vs = us)

theorem readUnless_octal : ReadUnless IsWide Octal := by
  rintro _ _ @⟨taken, rest, n, h, hn, hrest, hlength, hlongest⟩
  have hne : taken ++ rest ≠ [] := by simp [h.1]
  have hdigits : ∀ c ∈ taken ++ rest, ∃ v, Digit.Denotes 8 c v := by
    intro c hc
    rcases List.mem_append.mp hc with hc | hc
    · exact h.exists_denotes hc
    · exact Digit.isOctal_iff.mp (hrest c hc)
  obtain ⟨m, hm⟩ := Integer.exists_isNumeral hne hdigits
  have hlt : m < 8 ^ 3 := (hm.lt_pow (by decide)).trans_le (Nat.pow_le_pow_right (by decide) hlength)
  refine ⟨Utf16.unitsOf m, value_of_octal hm hlength, ?_⟩
  rw [Utf16.unitsOf_of_lt (by omega), isWide_iff hm hlength]
  by_cases hwide : 0o377 < m
  · -- the unit read is above all that one octal escape can stand for
    refine .inl ⟨hwide, fun xs ys heq => ?_⟩
    have hfirst := congrArg UInt16.toNat (List.head_eq_of_cons_eq heq)
    rw [Nat.toUInt16_eq, Nat.toUInt16_eq, UInt16.toNat_ofNat', UInt16.toNat_ofNat'] at hfirst
    omega
  · refine .inr ⟨hwide, ?_⟩
    have hall := hlongest _ m (List.prefix_refl _) hm (by omega)
    have hnil : rest = [] := by
      rw [List.length_append] at hall
      exact List.eq_nil_of_length_eq_zero (by omega)
    subst hnil
    rw [List.append_nil] at hm
    rw [h.unique hm]
    rfl

theorem readUnless_sloppy : ReadUnless IsWide Sloppy := by
  rintro sequence us (h | h)
  · exact ⟨us, h.readsAs, .inr ⟨h.not_isWide, rfl⟩⟩
  · exact readUnless_octal sequence us h

end Escape

namespace Key

open Escape (ReadsAs)

/-- What a part of a string stands for, when `escapes` says it of the escapes. -/
inductive PartStands (escapes : List Char → List UInt16 → Prop) (s : Source) (part : Node) :
    List UInt16 → Prop
  | fragment {cs : List Char} (hkind : part.kind = .stringFragment) (htext : s.text part = .ok cs) :
      PartStands escapes s part (cs.flatMap fun c => Utf16.unitsOf c.toNat)
  | escape {cs : List Char} {us : List UInt16} (hkind : part.kind = .escapeSequence)
      (htext : s.text part = .ok cs) (h : escapes cs us) : PartStands escapes s part us

/-- The part is an escape with the property `p`. -/
def PartHas (p : List Char → Prop) (s : Source) (part : Node) : Prop :=
  part.kind = .escapeSequence ∧ ∃ cs, s.text part = .ok cs ∧ p cs

variable {s : Source} {n part : Node}

theorem partHas_iff {p : List Char → Prop} {cs : List Char} (hkind : part.kind = .escapeSequence)
    (htext : s.text part = .ok cs) : PartHas p s part ↔ p cs := by
  simp [PartHas, hkind, htext]

theorem not_partHas_of_fragment {p : List Char → Prop} (hkind : part.kind = .stringFragment) :
    ¬ PartHas p s part := by
  rintro ⟨hescape, -⟩
  rw [hkind] at hescape
  cases hescape

theorem stringPart_fragment {cs : List Char} (hkind : part.kind = .stringFragment)
    (htext : s.text part = .ok cs) :
    ReadsAs (stringPart s part) (cs.flatMap fun c => Utf16.unitsOf c.toNat) := by
  refine ⟨Text.ofChars cs, ?_, Utf16.encode_ofChars cs⟩
  rw [stringPart, hkind, htext]
  rfl

theorem stringPart_escape {cs : List Char} (hkind : part.kind = .escapeSequence)
    (htext : s.text part = .ok cs) : stringPart s part = Escape.value cs := by
  rw [stringPart, hkind, htext]
  rfl

theorem stringPart_of_strict {us : List UInt16} (h : PartStands Escape.Strict s part us) :
    ReadsAs (stringPart s part) us := by
  cases h with
  | fragment hkind htext => exact stringPart_fragment hkind htext
  | escape hkind htext h =>
    rw [stringPart_escape hkind htext]
    exact h.readsAs

theorem exists_texts {parts : List Node} {uss : List (List UInt16)}
    (h : List.Forall₂ (fun part us => ReadsAs (stringPart s part) us) parts uss) :
    ∃ ts, List.Forall₂ (fun part t => stringPart s part = .ok t) parts ts ∧
      Utf16.encode ts.flatten = uss.flatten := by
  induction h with
  | nil => exact ⟨[], .nil, rfl⟩
  | cons hpart _ ih =>
    obtain ⟨t, ht, hunits⟩ := hpart
    obtain ⟨ts, hts, hmore⟩ := ih
    refine ⟨t :: ts, .cons ht hts, ?_⟩
    rw [List.flatten_cons, Utf16.encode_append, hunits, hmore, List.flatten_cons]

theorem stringValue_of_parts {uss : List (List UInt16)}
    (h : List.Forall₂ (fun part us => ReadsAs (stringPart s part) us) n.namedChildren uss) :
    stringValue s n = .ok (Utf16.decode uss.flatten) := by
  obtain ⟨ts, hts, hunits⟩ := exists_texts h
  rw [stringValue, mapM_eq_ok_iff.mpr hts, ← hunits]
  rfl

/-- The value of a string of strict code has the units of its parts in order, and no high half is
left before a low half. -/
theorem stringValue_of_strict_parts {uss : List (List UInt16)}
    (h : List.Forall₂ (PartStands Escape.Strict s) n.namedChildren uss) :
    ∃ t, stringValue s n = .ok t ∧ Utf16.encode t = uss.flatten ∧ t.IsJoined := by
  refine ⟨_, stringValue_of_parts (h.imp fun _ _ => stringPart_of_strict), ?_, ?_⟩
  · exact Utf16.encode_decode _
  · exact Utf16.isJoined_decode _

/-- A string in which the two halves of one character come from two forms of escapes. -/
def pairChars : List Char := "'a\\uD83D\\u\x7b0DE00\x7d'".toList

def pairString : Node where
  kind := .string
  start := 0
  stop := 18
  children :=
    [{ kind := .stringFragment, start := 1, stop := 2 },
     { kind := .escapeSequence, start := 2, stop := 8 },
     { kind := .escapeSequence, start := 8, stop := 17 }]

theorem stringValue_of_strict_parts_pairString :
    ∃ t, stringValue (.ofChars pairChars) pairString = .ok t ∧
      Utf16.encode t = [0x61, 0xD83D, 0xDE00] ∧ t.IsJoined := by
  have hhigh : Integer.IsNumeral 16 ['D', '8', '3', 'D'] 0xD83D :=
    ⟨by decide, [13, 8, 3, 13], by decide, by decide⟩
  have hlow : Integer.IsNumeral 16 ['0', 'D', 'E', '0', '0'] 0xDE00 :=
    ⟨by decide, [0, 13, 14, 0, 0], by decide, by decide⟩
  have hparts : List.Forall₂ (PartStands Escape.Strict (.ofChars pairChars))
      pairString.namedChildren [[0x61], [0xD83D], [0xDE00]] := by
    refine .cons ?_ (.cons ?_ (.cons ?_ .nil))
    · exact @PartStands.fragment _ _ _ ['a'] rfl rfl
    · exact .escape rfl rfl (.unit hhigh)
    · exact .escape rfl rfl (.codePoint hlow (by decide))
  exact stringValue_of_strict_parts hparts

section Misread

variable {misread : List Char → Prop} {escapes : List Char → List UInt16 → Prop}

theorem stringPart_of_readUnless (hescapes : Escape.ReadUnless misread escapes)
    {us : List UInt16} (h : PartStands escapes s part us) :
    ∃ vs, ReadsAs (stringPart s part) vs ∧
      (PartHas misread s part ∧ (∀ xs ys, vs ++ xs ≠ us ++ ys) ∨
        ¬ PartHas misread s part ∧ vs = us) := by
  cases h with
  | fragment hkind htext =>
    exact ⟨_, stringPart_fragment hkind htext, .inr ⟨not_partHas_of_fragment hkind, rfl⟩⟩
  | escape hkind htext h =>
    rw [stringPart_escape hkind htext, partHas_iff hkind htext]
    exact hescapes _ _ h

/-- What is read differs from what is meant from the first misread part on, so no later one makes up
for it. -/
theorem exists_flatten_eq_iff (hescapes : Escape.ReadUnless misread escapes) {parts : List Node}
    {uss : List (List UInt16)} (h : List.Forall₂ (PartStands escapes s) parts uss) :
    ∃ vss, List.Forall₂ (fun part vs => ReadsAs (stringPart s part) vs) parts vss ∧
      (vss.flatten = uss.flatten ↔ ∀ part ∈ parts, ¬ PartHas misread s part) := by
  induction h with
  | nil => exact ⟨[], .nil, by simp⟩
  | @cons part us parts uss hpart _ ih =>
    obtain ⟨vss, hvss, hiff⟩ := ih
    obtain ⟨vs, hvs, ⟨hmisread, hne⟩ | ⟨hnot, rfl⟩⟩ := stringPart_of_readUnless hescapes hpart
    · refine ⟨vs :: vss, .cons hvs hvss, fun heq => ?_, fun hall => ?_⟩
      · rw [List.flatten_cons, List.flatten_cons] at heq
        exact absurd heq (hne _ _)
      · exact absurd hmisread (hall part List.mem_cons_self)
    · refine ⟨vs :: vss, .cons hvs hvss, ?_⟩
      rw [List.flatten_cons, List.flatten_cons, List.append_right_inj, hiff, List.forall_mem_cons]
      exact ⟨fun hall => ⟨hnot, hall⟩, And.right⟩

end Misread

/-- The value of a string of sloppy code is what it stands for, and so the value of the same string
without octal escapes, exactly if it holds no octal escape above `0o377`. -/
theorem stringValue_of_sloppy_parts {uss : List (List UInt16)}
    (h : List.Forall₂ (PartStands Escape.Sloppy s) n.namedChildren uss) :
    ∃ t, stringValue s n = .ok t ∧ t.IsJoined ∧
      (Utf16.encode t = uss.flatten ↔
        ∀ part ∈ n.namedChildren, ¬ PartHas Escape.IsWide s part) ∧
      ∀ (s' : Source) (m : Node) (vss : List (List UInt16)),
        List.Forall₂ (PartStands Escape.Strict s') m.namedChildren vss →
        vss.flatten = uss.flatten →
        (stringValue s' m = .ok t ↔
          ∀ part ∈ n.namedChildren, ¬ PartHas Escape.IsWide s part) := by
  obtain ⟨read, hread, hiff⟩ := exists_flatten_eq_iff Escape.readUnless_sloppy h
  refine ⟨_, stringValue_of_parts hread, Utf16.isJoined_decode _, ?_, ?_⟩
  · rw [Utf16.encode_decode, hiff]
  · intro s' m vss hvss hsame
    rw [stringValue_of_parts (hvss.imp fun _ _ => stringPart_of_strict), hsame, ← hiff,
      Except.ok.injEq]
    constructor
    · intro heq
      rw [← Utf16.encode_decode read.flatten, ← heq, Utf16.encode_decode]
    · intro heq
      rw [heq]

/-- Two strings with an octal escape each: an `A`, and a space before a zero. -/
def octalChars : List Char := "'\\101' '\\400'".toList

def narrowEscape : Node where
  kind := .escapeSequence
  start := 1
  stop := 5

def wideEscape : Node where
  kind := .escapeSequence
  start := 8
  stop := 12

def narrowString : Node where
  kind := .string
  start := 0
  stop := 6
  children := [narrowEscape]

def wideString : Node where
  kind := .string
  start := 7
  stop := 13
  children := [wideEscape]

theorem text_narrowEscape :
    (Source.ofChars octalChars).text narrowEscape = .ok ['\\', '1', '0', '1'] := by
  rfl

theorem text_wideEscape :
    (Source.ofChars octalChars).text wideEscape = .ok ['\\', '4', '0', '0'] := by
  rfl

theorem isNumeral_101 : Integer.IsNumeral 8 ['1', '0', '1'] 0x41 :=
  ⟨by decide, [1, 0, 1], by decide, by decide⟩

theorem isNumeral_400 : Integer.IsNumeral 8 ['4', '0', '0'] 0x100 :=
  ⟨by decide, [4, 0, 0], by decide, by decide⟩

theorem octal_101 : Escape.Octal ['\\', '1', '0', '1'] [0x41] :=
  @Escape.Octal.intro ['1', '0', '1'] [] 0x41 isNumeral_101 (by decide) (List.forall_mem_nil _)
    (by decide) fun _ _ hlonger _ _ => hlonger.length_le

theorem octal_400 : Escape.Octal ['\\', '4', '0', '0'] [0x20, 0x30] := by
  have hspace : Integer.IsNumeral 8 ['4', '0'] 0x20 := ⟨by decide, [4, 0], by decide, by decide⟩
  refine @Escape.Octal.intro ['4', '0'] ['0'] 0x20 hspace (by decide)
    (List.forall_mem_singleton.mpr (by decide)) (by decide) ?_
  intro longer m hlonger hm hle
  by_contra! hlength
  have hall : longer = ['4', '0', '0'] := hlonger.eq_of_length_le hlength
  subst hall
  have hsame := hm.unique isNumeral_400
  omega

theorem stringValue_of_sloppy_parts_samples :
    (∃ t, stringValue (.ofChars octalChars) narrowString = .ok t ∧ Utf16.encode t = [0x41]) ∧
      ∃ t, stringValue (.ofChars octalChars) wideString = .ok t ∧ Utf16.encode t ≠ [0x20, 0x30] := by
  have hnarrow : List.Forall₂ (PartStands Escape.Sloppy (.ofChars octalChars))
      narrowString.namedChildren [[0x41]] :=
    .cons (.escape rfl text_narrowEscape (.inr octal_101)) .nil
  have hwide : List.Forall₂ (PartStands Escape.Sloppy (.ofChars octalChars))
      wideString.namedChildren [[0x20, 0x30]] :=
    .cons (.escape rfl text_wideEscape (.inr octal_400)) .nil
  obtain ⟨t, ht, -, hiff, -⟩ := stringValue_of_sloppy_parts hnarrow
  obtain ⟨u, hu, -, hiff', -⟩ := stringValue_of_sloppy_parts hwide
  refine ⟨⟨t, ht, hiff.mpr ?_⟩, u, hu, fun heq => ?_⟩
  · intro part hpart
    rw [List.mem_singleton.mp hpart, partHas_iff rfl text_narrowEscape,
      Escape.isWide_iff isNumeral_101 (by decide)]
    decide
  · refine hiff'.mp heq wideEscape List.mem_cons_self ?_
    rw [partHas_iff rfl text_wideEscape, Escape.isWide_iff isNumeral_400 (by decide)]
    decide

end Key

end ParamLint

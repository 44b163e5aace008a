import ParamLint.Proofs.JoinedText
import ParamLint.Proofs.StringValues

/-!
# Equal string keys

Scripts compare strings by their UTF-16 units. Joining forgets nothing but how the units are
grouped, so string keys with the same units have the same name, however they are written, unless one
of them holds an escape that is read as something else than it stands for.
-/
namespace ParamLint

namespace Escape

def separators : List Char := ['\u2028', '\u2029']

/-- A line continuation and an escaped question mark are cut from a source together with a separator
after them, which stands for itself. -/
inductive TakesSeparator : List Char → List UInt16 → Prop
  | lineContinuation {c : Char} (h : c ∈ separators) :
      TakesSeparator ['\\', '\r', c] (Utf16.unitsOf c.toNat)
  | questionMark {c : Char} (h : c ∈ separators) :
      TakesSeparator ['\\', '?', c] (Utf16.unitsOf '?'.toNat ++ Utf16.unitsOf c.toNat)

/-- All escapes of scripts, as they are cut from a source, and their units. -/
def Scripted (sequence : List Char) (us : List UInt16) : Prop :=
  Sloppy sequence us ∨ TakesSeparator sequence us

/-- An escape that is read as something else than it stands for: an octal one above `0o377`, or a
line continuation cut together with a separator. -/
def IsMisread (sequence : List Char) : Prop :=
  IsWide sequence ∨ ∃ c ∈ separators, sequence = ['\\', '\r', c]

variable {sequence : List Char} {us : List UInt16}

theorem Strict.not_isMisread (h : Strict sequence us) : ¬ IsMisread sequence := by
  rintro (hwide | ⟨c, hc, heq⟩)
  · exact h.not_isWide hwide
  cases h with
  | control h => cases heq
  | hex h => cases heq
  | unit h => cases heq
  | codePoint h hn => cases heq
  | lineContinuation h =>
    cases heq
    rcases List.mem_pair.mp hc with rfl | rfl
    · exact absurd h (by decide)
    · exact absurd h (by decide)
  | character h => cases heq

theorem Octal.isMisread_iff (h : Octal sequence us) : IsMisread sequence ↔ IsWide sequence := by
  refine ⟨?_, .inl⟩
  rintro (hwide | ⟨c, hc, heq⟩)
  · exact hwide
  · obtain @⟨taken, rest, n, h, hn, hrest, -, -⟩ := h
    have hreturn : '\r' ∈ taken ++ rest := by
      rw [List.tail_eq_of_cons_eq heq]
      exact List.mem_cons_self
    have hoctal : Digit.isOctal '\r' := by
      rcases List.mem_append.mp hreturn with hmem | hmem
      · exact Digit.isOctal_iff.mpr (h.exists_denotes hmem)
      · exact hrest _ hmem
    exact absurd hoctal (by decide)

theorem value_with_separator {m c : Char} (hm : m = '\r' ∨ m = '?') (hc : c ∈ separators) :
    ReadsAs (value ['\\', m, c]) (Utf16.unitsOf m.toNat ++ Utf16.unitsOf c.toNat) := by
  rcases hm with rfl | rfl <;> rcases List.mem_pair.mp hc with rfl | rfl
  all_goals exact ⟨_, rfl, rfl⟩

theorem append_ne_of_separator {c : Char} (hc : c ∈ separators) (xs ys : List UInt16) :
    Utf16.unitsOf '\r'.toNat ++ Utf16.unitsOf c.toNat ++ xs ≠ Utf16.unitsOf c.toNat ++ ys := by
  rcases List.mem_pair.mp hc with rfl | rfl
  all_goals
    intro heq
    exact absurd (List.head_eq_of_cons_eq heq) (by decide)

theorem readUnless_scripted : ReadUnless IsMisread Scripted := by
  rintro sequence us ((hstrict | hoctal) | hseparator)
  · exact ⟨us, hstrict.readsAs, .inr ⟨hstrict.not_isMisread, rfl⟩⟩
  · rw [hoctal.isMisread_iff]
    exact readUnless_octal sequence us hoctal
  · cases hseparator with
    | @lineContinuation c h =>
      refine ⟨_, value_with_separator (.inl rfl) h, .inl ⟨.inr ⟨c, h, rfl⟩, ?_⟩⟩
      exact append_ne_of_separator h
    | @questionMark c h =>
      refine ⟨_, value_with_separator (.inr rfl) h, .inr ⟨?_, rfl⟩⟩
      rintro (hwide | ⟨d, -, heq⟩)
      · cases hwide.length_eq
      · cases heq

end Escape

namespace Key

/-- The string holds an escape that is misread. -/
def IsMisread (s : Source) (n : Node) : Prop :=
  ∃ part ∈ n.namedChildren, PartHas Escape.IsMisread s part

variable {s : Source} {n key : Node}

theorem stringValue_of_scripted_parts {uss : List (List UInt16)}
    (h : List.Forall₂ (PartStands Escape.Scripted s) n.namedChildren uss) :
    ∃ t : Text, stringValue s n = .ok t.joinSurrogates ∧
      (Utf16.encode t = uss.flatten ↔ ¬ IsMisread s n) := by
  obtain ⟨vss, hvss, hiff⟩ := exists_flatten_eq_iff Escape.readUnless_scripted h
  obtain ⟨ts, hts, hunits⟩ := exists_texts hvss
  refine ⟨ts.flatten, ?_, ?_⟩
  · rw [stringValue, mapM_eq_ok_iff.mpr hts]
    rfl
  · simp only [hunits, hiff, IsMisread, not_exists, not_and]

/-- A key that is a string, as it is or in brackets, where comments may stand beside it. -/
inductive HoldsString : Node → Node → Prop
  | literal {n : Node} (hkind : n.kind = .string) : HoldsString n n
  | computed {key n : Node} (hkey : key.kind = .computedPropertyName)
      (hinner : key.namedChildren.filter (·.kind ≠ .comment) = [n]) (hkind : n.kind = .string) :
      HoldsString key n

theorem literalValue_of_string (hkind : n.kind = .string) :
    literalValue s n = (stringValue s n).map some := by
  rw [literalValue, hkind]

theorem HoldsString.name_eq (h : HoldsString key n) : name s key = (stringValue s n).map some := by
  cases h with
  | literal hkind =>
    rw [← literalValue_of_string hkind, name, hkind]
    rfl
  | computed hkey hinner hkind =>
    have hliteral : isLiteral n.kind := by
      rw [hkind]
      rfl
    rw [← literalValue_of_string hkind, name, hkey]
    dsimp only
    rw [hinner]
    exact if_pos hliteral

/-- Joining is writing a text as bytes and reading them back, which refuses none. It keeps the
units, changes nothing the second time, leaves no high half before a low one, and tells texts apart
exactly by their units. So string keys have names, and as long as no escape is misread, two of these
are equal exactly if scripts take the keys for equal. Where one of two equal keys holds such an
escape and the other does not, the names differ. -/
theorem names_of_equal_strings (t : Text) :
    (Utf16.ofBytes? (Utf16.toBytes t) = some t.joinSurrogates ∧
      Utf16.encode t.joinSurrogates = Utf16.encode t ∧
      t.joinSurrogates.joinSurrogates = t.joinSurrogates ∧
      t.joinSurrogates.IsJoined ∧
      ∀ u : Text,
        (t.joinSurrogates = u.joinSurrogates ↔ Utf16.encode t = Utf16.encode u) ∧
        (u.IsJoined → Utf16.encode u = Utf16.encode t → u = t.joinSurrogates)) ∧
    ∀ (s s' : Source) (key key' n n' : Node) (uss uss' : List (List UInt16)),
      HoldsString key n → HoldsString key' n' →
      List.Forall₂ (PartStands Escape.Scripted s) n.namedChildren uss →
      List.Forall₂ (PartStands Escape.Scripted s') n'.namedChildren uss' →
      ∃ v v', name s key = .ok (some v) ∧ name s' key' = .ok (some v') ∧
        (¬ IsMisread s n → ¬ IsMisread s' n' → (v = v' ↔ uss.flatten = uss'.flatten)) ∧
        (IsMisread s n → ¬ IsMisread s' n' → uss.flatten = uss'.flatten → v ≠ v') := by
  constructor
  · refine ⟨t.ofBytes?_toBytes, t.encode_joinSurrogates, ?_, t.isJoined_joinSurrogates, fun u => ?_⟩
    · exact Text.joinSurrogates_of_isJoined t.isJoined_joinSurrogates
    · exact ⟨Text.joinSurrogates_eq_iff, Text.eq_joinSurrogates⟩
  · intro s s' key key' n n' uss uss' hkey hkey' huss huss'
    obtain ⟨v, hv, hread⟩ := stringValue_of_scripted_parts huss
    obtain ⟨v', hv', hread'⟩ := stringValue_of_scripted_parts huss'
    refine ⟨v.joinSurrogates, v'.joinSurrogates, ?_, ?_, ?_, ?_⟩
    · rw [hkey.name_eq, hv]
      rfl
    · rw [hkey'.name_eq, hv']
      rfl
    · intro hright hright'
      rw [Text.joinSurrogates_eq_iff, hread.mpr hright, hread'.mpr hright']
    · intro hmisread hright' hequal
      rw [Ne, Text.joinSurrogates_eq_iff, hread'.mpr hright', ← hequal, hread, not_not]
      exact hmisread

/-- Four keys, of which scripts take the first two for equal and the last two. -/
def keyChars : List Char := "'\\uD83D\\uDE00' [/**/'😀'] '\\400' ' 0'".toList

def escapedFace : Node where
  kind := .string
  start := 0
  stop := 14
  children :=
    [{ kind := .escapeSequence, start := 1, stop := 7 },
     { kind := .escapeSequence, start := 7, stop := 13 }]

def plainFace : Node where
  kind := .string
  start := 20
  stop := 26
  children := [{ kind := .stringFragment, start := 21, stop := 25 }]

def bracketedFace : Node where
  kind := .computedPropertyName
  start := 15
  stop := 27
  children := [{ kind := .comment, start := 16, stop := 20 }, plainFace]

def octalSpace : Node where
  kind := .string
  start := 28
  stop := 34
  children := [{ kind := .escapeSequence, start := 29, stop := 33 }]

def plainSpace : Node where
  kind := .string
  start := 35
  stop := 39
  children := [{ kind := .stringFragment, start := 36, stop := 38 }]

theorem not_isMisread_of_fragments (h : ∀ part ∈ n.namedChildren, part.kind = .stringFragment) :
    ¬ IsMisread s n := by
  rintro ⟨part, hpart, hmisread⟩
  exact not_partHas_of_fragment (h part hpart) hmisread

theorem names_of_equal_strings_samples :
    (∃ t, name (.ofChars keyChars) escapedFace = .ok (some t) ∧
      name (.ofChars keyChars) bracketedFace = .ok (some t)) ∧
    ∃ t t', name (.ofChars keyChars) octalSpace = .ok (some t) ∧
      name (.ofChars keyChars) plainSpace = .ok (some t') ∧ t ≠ t' := by
  have hhigh : Escape.Strict ['\\', 'u', 'D', '8', '3', 'D'] [0xD83D] :=
    .unit (n := 0xD83D) ⟨by decide, [13, 8, 3, 13], by decide, by decide⟩
  have hlow : Escape.Strict ['\\', 'u', 'D', 'E', '0', '0'] [0xDE00] :=
    .unit (n := 0xDE00) ⟨by decide, [13, 14, 0, 0], by decide, by decide⟩
  have hescaped : List.Forall₂ (PartStands Escape.Scripted (.ofChars keyChars))
      escapedFace.namedChildren [[0xD83D], [0xDE00]] :=
    .cons (.escape rfl rfl (.inl (.inl hhigh))) (.cons (.escape rfl rfl (.inl (.inl hlow))) .nil)
  have hface : List.Forall₂ (PartStands Escape.Scripted (.ofChars keyChars))
      plainFace.namedChildren [[0xD83D, 0xDE00]] :=
    .cons (@PartStands.fragment _ _ _ ['😀'] rfl rfl) .nil
  have hoctal : List.Forall₂ (PartStands Escape.Scripted (.ofChars keyChars))
      octalSpace.namedChildren [[0x20, 0x30]] :=
    .cons (.escape rfl rfl (.inl (.inr octal_400))) .nil
  have hspace : List.Forall₂ (PartStands Escape.Scripted (.ofChars keyChars))
      plainSpace.namedChildren [[0x20, 0x30]] :=
    .cons (@PartStands.fragment _ _ _ [' ', '0'] rfl rfl) .nil
  have hwide : IsMisread (.ofChars keyChars) octalSpace := by
    refine ⟨_, List.mem_cons_self, rfl, ['\\', '4', '0', '0'], rfl, .inl ?_⟩
    exact (Escape.isWide_iff isNumeral_400 (by decide)).mpr (by decide)
  have hright : ¬ IsMisread (.ofChars keyChars) escapedFace := by
    rintro ⟨part, hpart, hmisread⟩
    rcases List.mem_pair.mp hpart with rfl | rfl
    · exact hhigh.not_isMisread ((partHas_iff rfl rfl).mp hmisread)
    · exact hlow.not_isMisread ((partHas_iff rfl rfl).mp hmisread)
  have hbrackets : HoldsString bracketedFace plainFace := .computed rfl rfl rfl
  obtain ⟨-, hkeys⟩ := names_of_equal_strings (Text.ofChars keyChars)
  constructor
  · obtain ⟨v, v', hv, hv', hsame, -⟩ :=
      hkeys _ _ _ _ _ _ _ _ (.literal rfl) hbrackets hescaped hface
    rw [(hsame hright (not_isMisread_of_fragments (by decide))).mpr rfl] at hv
    exact ⟨v', hv, hv'⟩
  · obtain ⟨v, v', hv, hv', -, hdiffer⟩ :=
      hkeys _ _ _ _ _ _ _ _ (.literal rfl) (.literal rfl) hoctal hspace
    exact ⟨v, v', hv, hv', hdiffer hwide (not_isMisread_of_fragments (by decide)) rfl⟩

end Key

end ParamLint

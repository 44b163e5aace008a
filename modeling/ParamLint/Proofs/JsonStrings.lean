import ParamLint.Json.Reader
import ParamLint.Proofs.Pointwise

/-!
# JSON strings

What is read as a string is read as the same string before any other rest of the input. An escape
for a high half is the hard case: whether it takes the next escape with it is decided inside of the
string, since the closing quote comes later.
-/
namespace ParamLint.Json

/-- Four hexadecimal digits are read alike before anything but the end. -/
theorem hex4?_local {cs rest : List Char} {n : Nat} (h : hex4? cs = some (n, rest)) :
    ∃ ds : List Char, ds.length = 4 ∧ cs = ds ++ rest ∧ rest ≠ [] ∧
      ∀ rest' ≠ [], hex4? (ds ++ rest') = some (n, rest') := by
  unfold hex4? at h
  split at h
  · rename_i a b c d more
    split at h
    · cases h
    · rename_i hmore
      simp only [Option.bind_eq_bind, Option.bind_eq_some_iff, Option.pure_def, Option.some.injEq,
        Prod.mk.injEq] at h
      obtain ⟨a', ha, b', hb, c', hc, d', hd, rfl, rfl⟩ := h
      refine ⟨[a, b, c, d], rfl, rfl, by simpa using hmore, fun rest' hrest' => ?_⟩
      simp [hex4?, ha, hb, hc, hd, hrest']
  · cases h

/-- The text, with the quote at its end, is read as the rest of a string, whatever follows. -/
def SpellsRest (used : List Char) (t : Text) : Prop :=
  ∀ start fuel rest, (used ++ rest).length ≤ fuel →
    readStringFrom start fuel (used ++ rest) = .ok (t, rest)

namespace SpellsRest

variable {used : List Char} {t : Text}

theorem read_self (h : SpellsRest used t) :
    readStringFrom [] (used.length + 1) used = .ok (t, []) := by
  simpa using h [] (used.length + 1) [] (by simp)

theorem ne_nil (h : SpellsRest used t) : used ≠ [] := by
  rintro rfl
  have hread := h.read_self
  simp [readStringFrom] at hread

theorem ne_backslash (h : SpellsRest used t) : used ≠ ['\\'] := by
  rintro rfl
  have hread := h.read_self
  simp [readStringFrom] at hread

theorem hex4?_isSome {w : List Char} (h : SpellsRest ('\\' :: 'u' :: w) t) :
    ∃ m w', hex4? w = some (m, w') := by
  have hread := h.read_self
  rw [readStringFrom] at hread
  cases hhex : hex4? w with
  | none => simp [unicodeEscape?, hhex] at hread
  | some r => exact ⟨r.1, r.2, rfl⟩

theorem quote : SpellsRest ['"'] [] := by
  intro start fuel rest hfuel
  cases fuel with
  | zero => simp at hfuel
  | succ fuel => rfl

end SpellsRest

theorem unicodeEscape?_eq (cs : List Char) :
    unicodeEscape? cs = (hex4? cs).bind fun r => joined? r.1 r.2 := rfl

theorem joined?_of_not_isHigh {n : Nat} (h : ¬ Utf16.isHigh n) (rest : List Char) :
    joined? n rest = some (Utf16.single n, rest) := if_neg h

theorem joined?_of_hex4? {n m : Nat} {more rest : List Char} (hhigh : Utf16.isHigh n)
    (h : hex4? more = some (m, rest)) :
    joined? n ('\\' :: 'u' :: more) =
      if Utf16.isLow m then some (Utf16.pair n m, rest)
      else some (Utf16.single n, '\\' :: 'u' :: more) := by
  obtain ⟨ds, hlen, rfl, hrest, -⟩ := hex4?_local h
  have hlong : ¬ (ds ++ rest).length ≤ 4 := by
    have := List.length_pos_iff.mpr hrest
    simp
    omega
  rw [joined?, if_pos hhigh]
  dsimp only
  rw [if_neg hlong, h]
  rfl

theorem joined?_of_ne {n : Nat} {rest : List Char} (h : ∀ more, rest ≠ '\\' :: 'u' :: more) :
    joined? n rest = some (Utf16.single n, rest) := by
  unfold joined?
  split
  · split
    · exact absurd rfl (h _)
    · rfl
  · rfl

theorem joined?_cases {n : Nat} {rest rest' : List Char} {p : CodePoint}
    (h : joined? n rest = some (p, rest')) :
    (p = Utf16.single n ∧ rest' = rest) ∨
      ∃ more m, rest = '\\' :: 'u' :: more ∧ Utf16.isHigh n ∧ hex4? more = some (m, rest') ∧
        Utf16.isLow m ∧ p = Utf16.pair n m := by
  unfold joined? at h
  split at h
  · rename_i hhigh
    split at h
    · rename_i more
      split at h
      · cases h
        exact .inl ⟨rfl, rfl⟩
      · obtain ⟨⟨m, r⟩, hhex, hr⟩ := Option.bind_eq_some_iff.mp h
        dsimp only at hr
        split at hr
        · rename_i hlow
          obtain ⟨hp, hr⟩ := Prod.mk.inj (Option.some.inj hr)
          subst hr
          exact .inr ⟨more, m, rfl, hhigh, hhex, hlow, hp.symm⟩
        · cases hr
          exact .inl ⟨rfl, rfl⟩
    · cases h
      exact .inl ⟨rfl, rfl⟩
  · cases h
    exact .inl ⟨rfl, rfl⟩

/-- A half that is left alone before the rest of a string is left alone whatever comes after that. -/
theorem SpellsRest.joined?_eq {used rest : List Char} {t : Text} {n : Nat}
    (hused : SpellsRest used t)
    (h : joined? n (used ++ rest) = some (Utf16.single n, used ++ rest)) (rest' : List Char) :
    joined? n (used ++ rest') = some (Utf16.single n, used ++ rest') := by
  by_cases hhigh : Utf16.isHigh n
  · by_cases hescape : ∃ w, used = '\\' :: 'u' :: w
    · obtain ⟨w, rfl⟩ := hescape
      obtain ⟨m, w', hw⟩ := hused.hex4?_isSome
      obtain ⟨ds, -, rfl, hne, hlocal⟩ := hex4?_local hw
      have hmore : ∀ y, hex4? (ds ++ w' ++ y) = some (m, w' ++ y) := by
        intro y
        rw [List.append_assoc]
        exact hlocal _ (by simp [hne])
      have hjoined : ∀ y, joined? n ('\\' :: 'u' :: (ds ++ w') ++ y) = _ :=
        fun y => joined?_of_hex4? hhigh (hmore y)
      rw [hjoined] at h ⊢
      by_cases hlow : Utf16.isLow m
      · rw [if_pos hlow] at h
        have hlength := congrArg (fun r => r.2.length) (Option.some.inj h)
        simp at hlength
        omega
      · rw [if_neg hlow]
        rfl
    · refine joined?_of_ne fun more hmore => ?_
      rcases List.append_eq_cons_iff.mp hmore with ⟨hnil, -⟩ | ⟨w, rfl, hw⟩
      · exact hused.ne_nil hnil
      · rcases List.append_eq_cons_iff.mp hw.symm with ⟨rfl, -⟩ | ⟨w', rfl, -⟩
        · exact hused.ne_backslash rfl
        · exact hescape ⟨w', rfl⟩
  · exact joined?_of_not_isHigh hhigh _

theorem SpellsRest.unicode {cs used rest : List Char} {p : CodePoint} {t : Text}
    (hused : SpellsRest used t) (h : unicodeEscape? cs = some (p, used ++ rest)) :
    ∃ ds, cs = ds ++ (used ++ rest) ∧
      ∀ rest', unicodeEscape? (ds ++ (used ++ rest')) = some (p, used ++ rest') := by
  have hne : ∀ rest' : List Char, used ++ rest' ≠ [] := fun rest' => by simp [hused.ne_nil]
  obtain ⟨⟨n, r⟩, hhex, hjoined⟩ := Option.bind_eq_some_iff.mp h
  obtain ⟨ds, -, rfl, -, hlocal⟩ := hex4?_local hhex
  rcases joined?_cases hjoined with ⟨rfl, rfl⟩ | ⟨more, m, rfl, hhigh, hmore, hlow, hp⟩
  · refine ⟨ds, rfl, fun rest' => ?_⟩
    rw [unicodeEscape?_eq, hlocal _ (hne rest')]
    exact hused.joined?_eq hjoined rest'
  · obtain ⟨ds', -, rfl, -, hlocal'⟩ := hex4?_local hmore
    refine ⟨ds ++ '\\' :: 'u' :: ds', by simp, fun rest' => ?_⟩
    have hread := hlocal ('\\' :: 'u' :: (ds' ++ (used ++ rest'))) (by simp)
    rw [List.append_assoc, List.cons_append, List.cons_append, unicodeEscape?_eq, hread, hp]
    exact (joined?_of_hex4? hhigh (hlocal' _ (hne rest'))).trans (if_pos hlow)

namespace SpellsRest

variable {used : List Char} {t : Text}

theorem cons_unicode {ds : List Char} {p : CodePoint} (h : SpellsRest used t)
    (hp : ∀ rest, unicodeEscape? (ds ++ (used ++ rest)) = some (p, used ++ rest)) :
    SpellsRest ('\\' :: 'u' :: (ds ++ used)) (p :: t) := by
  intro start fuel rest hfuel
  cases fuel with
  | zero => simp at hfuel
  | succ fuel =>
    have hrest := h start fuel rest (by simp at hfuel ⊢; omega)
    rw [List.cons_append, List.cons_append, List.append_assoc, readStringFrom, hp rest]
    dsimp only
    rw [hrest]
    rfl

theorem cons_escape {c d : Char} (h : SpellsRest used t) (hc : shortEscape? c = some d) :
    SpellsRest ('\\' :: c :: used) (.scalar d :: t) := by
  intro start fuel rest hfuel
  cases fuel with
  | zero => simp at hfuel
  | succ fuel =>
    have hrest := h start fuel rest (by simp at hfuel ⊢; omega)
    have hu : c ≠ 'u' := by
      rintro rfl
      cases hc
    rw [List.cons_append, List.cons_append, readStringFrom, hc]
    · dsimp only
      rw [hrest]
      rfl
    · exact hu

theorem cons_char {c : Char} (h : SpellsRest used t) (hquote : c ≠ '"') (hbackslash : c ≠ '\\')
    (hcontrol : ¬ c.toNat < 0x20) : SpellsRest (c :: used) (.scalar c :: t) := by
  intro start fuel rest hfuel
  cases fuel with
  | zero => simp at hfuel
  | succ fuel =>
    have hrest := h start fuel rest (by simp at hfuel ⊢; omega)
    rw [List.cons_append, readStringFrom, if_neg hcontrol, hrest]
    · rfl
    · exact hquote
    · exact fun hc => absurd hc hbackslash
    · exact fun _ hc => absurd hc hbackslash
    · exact fun _ _ hc => absurd hc hbackslash

end SpellsRest

theorem exists_spellsRest {start cs rest : List Char} {fuel : Nat} {t : Text}
    (h : readStringFrom start fuel cs = .ok (t, rest)) :
    ∃ used, cs = used ++ rest ∧ SpellsRest used t := by
  fun_induction readStringFrom start fuel cs generalizing t with
  | case1 => cases h
  | case2 => cases h
  | case3 n cs =>
    cases h
    exact ⟨['"'], rfl, .quote⟩
  | case4 => cases h
  | case5 fuel cs hnone => cases h
  | case6 fuel cs p r hp ih =>
    obtain ⟨⟨t', r'⟩, hread, heq⟩ := map_eq_ok_iff.mp h
    cases heq
    obtain ⟨used, rfl, hused⟩ := ih hread
    obtain ⟨ds, rfl, hds⟩ := hused.unicode hp
    exact ⟨'\\' :: 'u' :: (ds ++ used), by simp, hused.cons_unicode hds⟩
  | case7 => cases h
  | case8 fuel c cs hu d hd ih =>
    obtain ⟨⟨t', r'⟩, hread, heq⟩ := map_eq_ok_iff.mp h
    cases heq
    obtain ⟨used, rfl, hused⟩ := ih hread
    exact ⟨'\\' :: c :: used, rfl, hused.cons_escape hd⟩
  | case9 => cases h
  | case10 fuel c cs hquote hend hu hescape hcontrol ih =>
    obtain ⟨⟨t', r'⟩, hread, heq⟩ := map_eq_ok_iff.mp h
    cases heq
    obtain ⟨used, rfl, hused⟩ := ih hread
    have hbackslash : c ≠ '\\' := by
      intro hc
      cases hcs : used ++ rest with
      | nil => exact hend hc hcs
      | cons d ds => exact hescape d ds hc hcs
    exact ⟨c :: used, rfl, hused.cons_char hquote hbackslash hcontrol⟩

def SpellsString (used : List Char) (t : Text) : Prop :=
  ∀ rest, readString (used ++ rest) = .ok (t, rest)

theorem SpellsRest.spellsString {used : List Char} {t : Text} (h : SpellsRest used t) :
    SpellsString ('"' :: used) t := fun rest => h _ _ rest (by simp)

theorem exists_spellsString {cs rest : List Char} {t : Text}
    (h : readString ('"' :: cs) = .ok (t, rest)) :
    ∃ used, cs = used ++ rest ∧ SpellsString ('"' :: used) t := by
  obtain ⟨used, hcs, hused⟩ := exists_spellsRest h
  exact ⟨used, hcs, hused.spellsString⟩

end ParamLint.Json

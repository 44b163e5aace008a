import ParamLint.Json.Printer
import ParamLint.Proofs.JsonValues
import ParamLint.Proofs.Options
import ParamLint.Proofs.Surrogates

/-!
# Writing JSON and reading it back

What is written is read as the value it was written from, with any blanks after it. A text comes
back unless a high half stands before a low half in it: their escapes are read as one character. So
a lone half is kept apart from what follows it, and a character outside the first plane is joined
again.
-/
namespace ParamLint

namespace Json

/-! Strings -/

theorem hexDigit?_digitChar {d : Nat} (hd : d < 16) : hexDigit? (Nat.digitChar d) = some d := by
  have hall : ∀ d < 16, hexDigit? (Nat.digitChar d) = some d := by decide
  exact hall d hd

theorem hex4?_hex4 (u : UInt16) {rest : List Char} (hrest : rest ≠ []) :
    hex4? (hex4 u ++ rest) = some (u.toNat, rest) := by
  have hu := u.toNat_lt
  have hvalue : ((u.toNat / 0x1000 * 16 + u.toNat / 0x100 % 16) * 16 + u.toNat / 16 % 16) * 16 +
      u.toNat % 16 = u.toNat := by omega
  simp [hex4, hex4?, hrest, hexDigit?_digitChar, Nat.mod_lt, hvalue,
    hexDigit?_digitChar (show u.toNat / 0x1000 < 16 by omega)]

/-- A code point is written as one letter behind a backslash, as itself, or as its units. -/
theorem escapePoint_cases (p : CodePoint) :
    (∃ c d, escapePoint p = ['\\', c] ∧ shortEscape? c = some d ∧ p = .scalar d) ∨
      (∃ c, escapePoint p = [c] ∧ p = .scalar c ∧ c ≠ '"' ∧ c ≠ '\\' ∧ ¬ c.toNat < 0x20) ∨
      escapePoint p = escapeUnits p := by
  unfold escapePoint
  split
  case h_8 c hquote hbackslash _ _ _ _ _ =>
    split
    case isTrue hplain =>
      exact .inr (.inl ⟨c, rfl, rfl, fun hc => hquote (hc ▸ rfl), fun hc => hbackslash (hc ▸ rfl),
        by omega⟩)
    case isFalse hescaped => exact .inr (.inr rfl)
  case h_9 d => exact .inr (.inr rfl)
  all_goals exact .inl ⟨_, _, rfl, rfl, rfl⟩

/-- The escapes of a code point, before the rest of a string that leaves a high half alone. -/
theorem SpellsRest.cons_units {used : List Char} {t : Text} (h : SpellsRest used t) {p : CodePoint}
    (halone : ∀ rest, Utf16.isHigh p.toNat →
      joined? p.toNat (used ++ rest) = some (p, used ++ rest)) :
    SpellsRest (escapeUnits p ++ used) (p :: t) := by
  have hne : ∀ rest, used ++ rest ≠ [] := fun rest => by simp [h.ne_nil]
  rcases Utf16.unitsOf_cases p with ⟨u, hunits, hu⟩ | ⟨u, v, hunits, hhigh, hlow, hpair⟩
  · have hspelled : escapeUnits p ++ used = '\\' :: 'u' :: (hex4 u ++ used) := by
      simp [escapeUnits, hunits]
    rw [hspelled]
    refine h.cons_unicode fun rest => ?_
    rw [unicodeEscape?_eq, hex4?_hex4 u (hne rest), Option.bind_some, hu]
    by_cases hhigh : Utf16.isHigh p.toNat
    · exact halone rest hhigh
    · rw [joined?_of_not_isHigh hhigh, Utf16.single_toNat]
  · have hspelled : escapeUnits p ++ used =
        '\\' :: 'u' :: ((hex4 u ++ '\\' :: 'u' :: hex4 v) ++ used) := by
      simp [escapeUnits, hunits]
    rw [hspelled]
    refine h.cons_unicode fun rest => ?_
    rw [List.append_assoc, unicodeEscape?_eq, hex4?_hex4 u (by simp), Option.bind_some]
    exact (joined?_of_hex4? hhigh (hex4?_hex4 v (hne rest))).trans (by rw [if_pos hlow, hpair])

/-- A high half is left alone before a text that does not start with a low one. -/
theorem joined?_flatMap {n : Nat} {t : Text} (hnext : ∀ q ∈ t.head?, ¬ Utf16.isLow q.toNat)
    (rest : List Char) :
    joined? n (t.flatMap escapePoint ++ '"' :: rest) =
      some (Utf16.single n, t.flatMap escapePoint ++ '"' :: rest) := by
  cases t with
  | nil => exact joined?_of_ne (by simp)
  | cons q t =>
    rw [List.flatMap_cons, List.append_assoc]
    rcases escapePoint_cases q with ⟨c, d, hescape, hshort, -⟩ | ⟨c, hescape, -, -, hc, -⟩ | hescape
    · rw [hescape]
      refine joined?_of_ne fun more hmore => ?_
      have hu : c = 'u' := (List.cons.inj (List.cons.inj hmore).2).1
      subst hu
      cases hshort
    · rw [hescape]
      exact joined?_of_ne fun more hmore => hc (List.cons.inj hmore).1
    · by_cases hhigh : Utf16.isHigh n
      · -- the first unit of the next code point is no low half
        obtain ⟨u, more, hunits, hlow⟩ : ∃ u more, escapeUnits q = '\\' :: 'u' :: (hex4 u ++ more) ∧
            ¬ Utf16.isLow u.toNat := by
          rcases Utf16.unitsOf_cases q with ⟨u, hunits, hu⟩ | ⟨u, v, hunits, hhigh', -, -⟩
          · refine ⟨u, [], by simp [escapeUnits, hunits], fun hlow => hnext q rfl ?_⟩
            rwa [← hu]
          · refine ⟨u, '\\' :: 'u' :: hex4 v, by simp [escapeUnits, hunits], fun hlow => ?_⟩
            rw [Utf16.isHigh_iff] at hhigh'
            rw [Utf16.isLow_iff] at hlow
            omega
        rw [hescape, hunits, List.cons_append, List.cons_append, List.append_assoc,
          joined?_of_hex4? hhigh (hex4?_hex4 u (by simp)), if_neg hlow]
      · exact joined?_of_not_isHigh hhigh _

theorem spellsRest_flatMap {t : Text} (h : t.IsJoined) :
    SpellsRest (t.flatMap escapePoint ++ ['"']) t := by
  induction t with
  | nil => exact .quote
  | cons p t ih =>
    obtain ⟨hnext, ht⟩ := List.isChain_cons.mp h
    rw [List.flatMap_cons, List.append_assoc]
    rcases escapePoint_cases p with ⟨c, d, hescape, hshort, rfl⟩ |
      ⟨c, hescape, rfl, hquote, hbackslash, hcontrol⟩ | hescape
    · rw [hescape]
      exact (ih ht).cons_escape hshort
    · rw [hescape]
      exact (ih ht).cons_char hquote hbackslash hcontrol
    · rw [hescape]
      refine (ih ht).cons_units fun rest hhigh => ?_
      have hlow : ∀ q ∈ t.head?, ¬ Utf16.isLow q.toNat := fun q hq hlow => hnext q hq ⟨hhigh, hlow⟩
      have halone := joined?_flatMap (n := p.toNat) hlow rest
      simpa [Utf16.single_toNat] using halone

theorem spellsString_quote {t : Text} (h : t.IsJoined) : SpellsString (quote t) t :=
  (spellsRest_flatMap h).spellsString

/-! Integers -/

def minus (n : Int) : List Char := if n < 0 then ['-'] else []

theorem minus_cases (n : Int) : minus n = [] ∨ minus n = ['-'] := by
  unfold minus
  split <;> simp

theorem printInteger_eq (n : Int) : printInteger n = minus n ++ Nat.toDigits 10 n.natAbs := by
  unfold printInteger minus
  split <;> rfl

theorem isDigit_toDigits (n : Nat) : ∀ c ∈ Nat.toDigits 10 n, c.isDigit :=
  fun _ hc => Nat.isDigit_of_mem_toDigits (by decide) (by decide) hc

theorem read?_of_isSome_decimal? {n : Int} (h : (Integer.decimal? n).isSome) :
    Integer.read? 10 (minus n ++ Nat.toDigits 10 n.natAbs) = some n := by
  have hshort : ¬ Integer.digitLimit < (Nat.toDigits 10 n.natAbs).length := by
    intro hlong
    simp [Integer.decimal?, hlong] at h
  have hnegative : decide (minus n = ['-']) = decide (n < 0) := by
    unfold minus
    split <;> simp [*]
  rw [Integer.read?_of_digits (minus_cases n) Nat.toDigits_ne_nil (isDigit_toDigits _),
    if_neg hshort, hnegative, Nat.ofDigitChars_ten_toDigits, Number.signed_natAbs]

theorem wholePart?_toDigits (n : Nat) {rest : List Char} (hrest : EndsNumber rest) :
    wholePart? (Nat.toDigits 10 n ++ rest) = some (Nat.toDigits 10 n, rest) := by
  rcases Nat.eq_zero_or_pos n with rfl | hn
  · rfl
  · exact wholePart?_of_digits Nat.toDigits_ne_nil (isDigit_toDigits n)
      (Number.head?_toDigits_ne hn) fun c hc => (hrest c hc).1

theorem numberParts?_toDigits (n : Nat) {rest : List Char} (hrest : EndsNumber rest) :
    numberParts? (Nat.toDigits 10 n ++ rest) = some (Nat.toDigits 10 n, [], [], rest) := by
  refine numberParts?_eq_some_iff.mpr ⟨rest, rest, wholePart?_toDigits n hrest,
    fractionPart_eq_iff.mpr ?_, exponentPart_eq_iff.mpr ?_⟩
  · rintro ⟨d, more, rfl, -⟩
    exact (hrest '.' rfl).2.1 rfl
  · rintro ⟨e, sign, d, more, rfl, he, -⟩
    exact he.elim (hrest e rfl).2.2.1 (hrest e rfl).2.2.2

theorem spellsScalar_printInteger {n : Int} (h : (Integer.decimal? n).isSome) :
    SpellsScalar (printInteger n) (.integer n) := by
  have hsign := minus_cases n
  have hparts := @numberParts?_toDigits n.natAbs
  have hvalue : numberValue? (minus n) (Nat.toDigits 10 n.natAbs) [] [] = some (.integer n) := by
    rw [numberValue?, read?_of_isSome_decimal? h]
    rfl
  have hdigits := isDigit_toDigits n.natAbs
  rw [printInteger_eq]
  -- the first digit decides that this is a number
  obtain ⟨d, ds, hds⟩ := List.exists_cons_of_ne_nil (Nat.toDigits_ne_nil (b := 10) (n := n.natAbs))
  rw [hds] at hparts hvalue hdigits ⊢
  have hd : d.isDigit := hdigits d List.mem_cons_self
  refine ⟨startsScalar_of_digit hsign hd ds, fun rest hrest => ?_⟩
  rw [List.append_assoc, List.cons_append, readScalar, word?_of_digit hsign hd]
  exact readNumber_of_value (numberSign_of_digit hsign hd) (hparts hrest) hvalue

/-! Values -/

/-- The value holds no decimals, no text in which a high half stands before a low one, and no object
in which a key comes twice. -/
inductive IsPlain : Json → Prop
  | null : IsPlain .null
  | bool (b : Bool) : IsPlain (.bool b)
  | integer (n : Int) : IsPlain (.integer n)
  | string {t : Text} (joined : t.IsJoined) : IsPlain (.string t)
  | array {vs : List Json} (items : ∀ v ∈ vs, IsPlain v) : IsPlain (.array vs)
  | object {es : List (Text × Json)} (distinct : (keys es).Nodup)
      (names : ∀ e ∈ es, e.1.IsJoined) (values : ∀ e ∈ es, IsPlain e.2) : IsPlain (.object es)

theorem areItemsWritable_iff {vs : List Json} :
    areItemsWritable vs ↔ ∀ v ∈ vs, v.isWritable := by
  induction vs with
  | nil => simp [areItemsWritable]
  | cons v vs ih => simp [areItemsWritable, ih]

theorem areMembersWritable_iff {es : List (Text × Json)} :
    areMembersWritable es ↔ ∀ e ∈ es, e.2.isWritable := by
  induction es with
  | nil => simp [areMembersWritable]
  | cons e es ih => simp [areMembersWritable, ih]

theorem isBlank_newLine (level : Nat) : ∀ c ∈ newLine level, isBlank c := by
  rw [newLine, List.forall_mem_cons]
  refine ⟨by decide, fun c hc => ?_⟩
  rw [List.eq_of_mem_replicate hc]
  decide

theorem put_of_not_mem {key : Text} {members : List (Text × Json)} (h : key ∉ keys members)
    (v : Json) : Entries.put key v members = members ++ [(key, v)] := by
  induction members with
  | nil => rfl
  | cons e members ih =>
    rw [keys, List.map_cons, List.mem_cons, not_or] at h
    rw [Entries.put, if_neg (Ne.symm h.1), ih h.2, List.cons_append]

theorem foldl_put_of_nodup {known es : List (Text × Json)} (h : (keys (known ++ es)).Nodup) :
    es.foldl (fun known e => Entries.put e.1 e.2 known) known = known ++ es := by
  induction es generalizing known with
  | nil => simp
  | cons e es ih =>
    have hnew : e.1 ∉ keys known := by
      intro hmem
      rw [keys, List.map_append, List.map_cons] at h
      exact (List.nodup_append.mp h).2.2 e.1 hmem e.1 List.mem_cons_self rfl
    rw [List.foldl_cons, put_of_not_mem hnew, ih (by simpa using h)]
    simp

theorem spellsItems_print {level : Nat} {v : Json} {vs : List Json}
    (h : ∀ w ∈ v :: vs, Spells (printAt (level + 1) w) w) :
    SpellsItems (printAt (level + 1) v ++ (printItems (level + 1) vs ++ (newLine level ++ [']'])))
      (v :: vs) := by
  obtain ⟨hv, hvs⟩ := List.forall_mem_cons.mp h
  induction vs generalizing v with
  | nil => exact .last hv (isBlank_newLine level)
  | cons w vs ih =>
    have hrest := ih hvs (List.forall_mem_cons.mp hvs).1 (List.forall_mem_cons.mp hvs).2
    have hitem := SpellsItems.cons hv (List.forall_mem_nil _) (isBlank_newLine (level + 1)) hrest
    simpa [printItems] using hitem

theorem spellsMember_print {level : Nat} {e : Text × Json} (hname : e.1.IsJoined)
    (hvalue : Spells (printAt level e.2) e.2) :
    SpellsMember (quote e.1 ++ (':' :: ' ' :: printAt level e.2)) e := by
  have hblank : ∀ c ∈ [' '], isBlank c := List.forall_mem_singleton.mpr (by decide)
  exact .of_name (spellsString_quote hname) (List.forall_mem_nil _) hblank hvalue

theorem spellsMembers_print {level : Nat} {e : Text × Json} {es : List (Text × Json)}
    (h : ∀ f ∈ e :: es, f.1.IsJoined ∧ Spells (printAt (level + 1) f.2) f.2) :
    SpellsMembers (quote e.1 ++ (':' :: ' ' :: printAt (level + 1) e.2) ++
      (printMembers (level + 1) es ++ (newLine level ++ ['\x7d']))) (e :: es) := by
  induction es generalizing e with
  | nil =>
    obtain ⟨hname, hvalue⟩ := h e List.mem_cons_self
    exact .last (spellsMember_print hname hvalue) (isBlank_newLine level)
  | cons f es ih =>
    obtain ⟨⟨hname, hvalue⟩, hrest⟩ := List.forall_mem_cons.mp h
    have hmember := SpellsMembers.cons (spellsMember_print hname hvalue) (List.forall_mem_nil _)
      (isBlank_newLine (level + 1)) (ih hrest)
    simpa [printMembers] using hmember

theorem spells_printAt {v : Json} (h : v.IsPlain) (hwritable : v.isWritable) (level : Nat) :
    Spells (printAt level v) v := by
  induction h generalizing level with
  | null => exact .scalar (spellsScalar_of_mem (w := "null") (by simp [words]))
  | bool b =>
    cases b with
    | false => exact .scalar (spellsScalar_of_mem (w := "false") (by simp [words]))
    | true => exact .scalar (spellsScalar_of_mem (w := "true") (by simp [words]))
  | integer n => exact .scalar (spellsScalar_printInteger hwritable)
  | string joined => exact .string (spellsString_quote joined)
  | @array vs items ih =>
    rw [isWritable, areItemsWritable_iff] at hwritable
    cases vs with
    | nil => exact .nil_array (List.forall_mem_nil _)
    | cons v vs =>
      have hitems := spellsItems_print fun w hw => ih w hw (hwritable w hw) (level + 1)
      simpa [printAt] using Spells.array (isBlank_newLine (level + 1)) hitems
  | @object es distinct names values ih =>
    rw [isWritable, areMembersWritable_iff] at hwritable
    cases es with
    | nil => exact .nil_object (List.forall_mem_nil _)
    | cons e es =>
      have hmembers := spellsMembers_print fun f hf =>
        ⟨names f hf, ih f hf (hwritable f hf) (level + 1)⟩
      have hput : (e :: es).foldl (fun known e => Entries.put e.1 e.2 known) [] = e :: es :=
        foldl_put_of_nodup distinct
      have hobject := Spells.object (isBlank_newLine (level + 1)) hmembers
      rw [hput] at hobject
      simpa [printAt] using hobject

/-! Whole texts -/

theorem Spells.head?_ne_mark {used : List Char} {v : Json} (h : Spells used v) :
    used.head? ≠ some '\ufeff' := by
  intro hmark
  obtain ⟨cs, rfl⟩ := List.head?_eq_some_iff.mp hmark
  have hread := h.read (cs.length + 2) [] (by simp) (by simp [Closes])
  have hdigit : '\ufeff'.isDigit = false := by decide
  simp [readFrom, readScalar, word?, words, dropWord?, readNumber, numberSign, numberParts?,
    wholePart?, hdigit] at hread

theorem parse_of_spells {used blanks : List Char} {v : Json} (h : Spells used v)
    (hblanks : ∀ c ∈ blanks, isBlank c) : parse (used ++ blanks) = .ok v := by
  have hcloses : Closes blanks := fun c hc => .inl (hblanks c (List.mem_of_mem_head? hc))
  have hread := h.read ((used ++ blanks).length + 1) blanks (Nat.lt_succ_self _) hcloses
  have hskip : skipBlanks (used ++ blanks) = used ++ blanks :=
    (h.opens.of_append h.ne_nil).skipBlanks_append (List.forall_mem_nil _)
  have hend : skipBlanks blanks = [] := List.dropWhile_eq_nil_iff.mpr hblanks
  have hmark : (used ++ blanks).head? ≠ some '\ufeff' := by
    rw [List.head?_append_of_ne_nil _ h.ne_nil]
    exact h.head?_ne_mark
  rw [parse, if_neg hmark, hskip, hread, ok_bind]
  dsimp only
  rw [hend]
  rfl

/-- What is written of a plain value is read as the value, with any blanks after it. -/
theorem parse_of_print? {v : Json} (h : v.IsPlain) {cs blanks : List Char}
    (hcs : v.print? = some cs) (hblanks : ∀ c ∈ blanks, isBlank c) : parse (cs ++ blanks) = .ok v := by
  unfold print? at hcs
  split at hcs
  case isTrue hwritable =>
    cases hcs
    exact parse_of_spells (spells_printAt h hwritable 0) hblanks
  case isFalse => cases hcs

end Json

end ParamLint

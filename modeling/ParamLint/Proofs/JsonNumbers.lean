import Mathlib.Data.List.TakeWhile
import ParamLint.Proofs.JsonStrings
import ParamLint.Proofs.NumberRoundTrip

/-!
# JSON numbers and words

A word or a number is read as the same value before any rest that does not carry on a number. The
one way a number can fail behind its first digit is to be an integer with too many digits.
-/
namespace ParamLint

namespace Integer

theorem splitSign_of_digits {sign ds : List Char} (hsign : sign = [] ∨ sign = ['-'])
    (hds : ∀ c ∈ ds, c.isDigit) :
    splitSign (Digit.trimBlanks ((sign ++ ds).map Digit.toAscii)) =
      (decide (sign = ['-']), ds) := by
  have hplain := fun c hc => (Number.denotes_of_isDigit (hds c hc)).isPlain
  rcases hsign with rfl | rfl
  · exact splitSign_of_isPlain hplain
  · have hascii : ∀ c ∈ '-' :: ds, Digit.toAscii c = c :=
      List.forall_mem_cons.mpr ⟨by decide, fun c hc => (hplain c hc).ascii⟩
    have hblank : ∀ c ∈ '-' :: ds, Digit.isPlainBlank c = false :=
      List.forall_mem_cons.mpr ⟨by decide, fun c hc => (hplain c hc).blank⟩
    rw [List.singleton_append, List.map_congr_left hascii, List.map_id',
      Digit.trimBlanks_of_no_blank hblank]
    rfl

theorem read?_of_digits {sign ds : List Char} (hsign : sign = [] ∨ sign = ['-'])
    (hne : ds ≠ []) (hds : ∀ c ∈ ds, c.isDigit) :
    read? 10 (sign ++ ds) =
      if digitLimit < ds.length then none
      else some (signed (decide (sign = ['-'])) (Nat.ofDigitChars 10 ds 0)) := by
  have hnumeric := fun c hc => Number.isNumeric_of_isDigit (hds c hc)
  have hmark : dropMark 10 ds = ds := by
    unfold dropMark
    split
    · rename_i m rest
      have hm := (hnumeric m (by simp)).mark
      rw [if_neg (by simp [hm])]
    · rfl
  have hcount : ds.countP (· ≠ '_') = ds.length :=
    List.countP_eq_length.mpr fun c hc => decide_eq_true (hnumeric c hc).underscore
  rw [read?, splitSign_of_digits hsign hds]
  dsimp only
  rw [hmark, hcount, Number.digits?_of_isDigit hne hds]
  simp

theorem read?_eq_none_iff {sign ds : List Char} (hsign : sign = [] ∨ sign = ['-'])
    (hne : ds ≠ []) (hds : ∀ c ∈ ds, c.isDigit) :
    read? 10 (sign ++ ds) = none ↔ digitLimit < ds.length := by
  simp [read?_of_digits hsign hne hds]

end Integer

namespace Json

/-- No number goes on here. -/
def EndsNumber (rest : List Char) : Prop :=
  ∀ c ∈ rest.head?, ¬ c.isDigit ∧ c ≠ '.' ∧ c ≠ 'e' ∧ c ≠ 'E'

theorem exists_span (cs : List Char) :
    ∃ ds rest, cs.span (·.isDigit) = (ds, rest) ∧ cs = ds ++ rest ∧ ∀ c ∈ ds, c.isDigit :=
  ⟨_, _, List.span_eq_takeWhile_dropWhile _ _, List.takeWhile_append_dropWhile.symm,
    fun _ hc => List.mem_takeWhile_imp hc⟩

theorem wholePart?_of_digits {whole rest : List Char} (hne : whole ≠ [])
    (hwhole : ∀ c ∈ whole, c.isDigit) (hzero : whole.head? ≠ some '0')
    (hrest : ∀ c ∈ rest.head?, ¬ c.isDigit) : wholePart? (whole ++ rest) = some (whole, rest) := by
  obtain ⟨c, ds, rfl⟩ := List.exists_cons_of_ne_nil hne
  rw [List.cons_append, wholePart?, if_pos (hwhole c List.mem_cons_self)]
  · exact congrArg some (Number.spanDigits_append hwhole hrest)
  · rintro rfl
    exact hzero rfl

theorem wholePart?_cases {cs whole rest : List Char} (h : wholePart? cs = some (whole, rest)) :
    cs = whole ++ rest ∧ whole ≠ [] ∧ (∀ c ∈ whole, c.isDigit) ∧
      (whole = ['0'] ∨ (whole.head? ≠ some '0' ∧ ∀ c ∈ rest.head?, ¬ c.isDigit)) := by
  unfold wholePart? at h
  split at h
  · cases h
    exact ⟨rfl, List.cons_ne_nil _ _, by simp, .inl rfl⟩
  · rename_i c more hzero
    split at h
    · rename_i hc
      have hspan := List.span_eq_takeWhile_dropWhile (fun c : Char => c.isDigit) (c :: more)
      rw [List.takeWhile_cons_of_pos hc, List.dropWhile_cons_of_pos hc] at hspan
      rw [hspan] at h
      cases h
      refine ⟨by simp, List.cons_ne_nil _ _, ?_, .inr ⟨by simpa using hzero, ?_⟩⟩
      · exact List.forall_mem_cons.mpr ⟨hc, fun _ hd => List.mem_takeWhile_imp hd⟩
      · intro d hd hdigit
        have hnot := List.head?_dropWhile_not (fun c : Char => c.isDigit) more
        rw [Option.mem_def.mp hd] at hnot
        simp [hdigit] at hnot
    · cases h
  · cases h

theorem wholePart?_local {cs whole rest rest' : List Char} (h : wholePart? cs = some (whole, rest))
    (hrest' : ∀ c ∈ rest'.head?, ¬ c.isDigit) :
    wholePart? (whole ++ rest') = some (whole, rest') := by
  obtain ⟨-, hne, hdigits, rfl | ⟨hzero, -⟩⟩ := wholePart?_cases h
  · rfl
  · exact wholePart?_of_digits hne hdigits hzero hrest'

def StartsFraction (cs : List Char) : Prop := ∃ d rest, cs = '.' :: d :: rest ∧ d.isDigit

def StartsExponent (cs : List Char) : Prop :=
  ∃ e sign d rest, cs = e :: (sign ++ d :: rest) ∧ (e = 'e' ∨ e = 'E') ∧
    (sign = [] ∨ sign = ['+'] ∨ sign = ['-']) ∧ d.isDigit

theorem span_isDigit_of_head {cs : List Char} (h : ∀ d ∈ cs.head?, ¬ d.isDigit) :
    cs.span (·.isDigit) = ([], cs) :=
  Number.spanDigits_append (List.forall_mem_nil _) h

theorem span_isDigit_ne_nil {d : Char} (hd : d.isDigit) (cs : List Char) :
    ((d :: cs).span (·.isDigit)).1 ≠ [] := by
  rw [List.span_eq_takeWhile_dropWhile, List.takeWhile_cons_of_pos hd]
  exact List.cons_ne_nil _ _

theorem fractionPart_eq_iff {cs : List Char} : fractionPart cs = ([], cs) ↔ ¬ StartsFraction cs := by
  constructor
  · rintro h ⟨d, rest, rfl, hd⟩
    rw [fractionPart] at h
    dsimp only at h
    rw [if_neg (by simpa only [List.isEmpty_iff] using span_isDigit_ne_nil hd rest)] at h
    cases h
  · intro h
    unfold fractionPart
    split
    · rename_i rest
      rw [span_isDigit_of_head]
      · rfl
      · intro d hd hdigit
        obtain ⟨more, rfl⟩ := List.head?_eq_some_iff.mp hd
        exact h ⟨d, more, rfl, hdigit⟩
    · rfl

theorem fractionPart_local {cs fraction rest : List Char} (h : fractionPart cs = (fraction, rest)) :
    cs = fraction ++ rest ∧ (∀ c ∈ fraction.head?, c = '.') ∧
      ∀ rest', (∀ c ∈ rest'.head?, ¬ c.isDigit ∧ c ≠ '.') →
        fractionPart (fraction ++ rest') = (fraction, rest') := by
  have hnone : ∀ rest' : List Char, (∀ c ∈ rest'.head?, ¬ c.isDigit ∧ c ≠ '.') →
      fractionPart rest' = ([], rest') := by
    intro rest' hends
    refine fractionPart_eq_iff.mpr ?_
    rintro ⟨d, more, rfl, -⟩
    exact (hends '.' rfl).2 rfl
  unfold fractionPart at h
  split at h
  · rename_i more
    obtain ⟨ds, rest₂, hspan, rfl, hds⟩ := exists_span more
    rw [hspan] at h
    dsimp only at h
    split at h
    · cases h
      exact ⟨rfl, by simp, hnone⟩
    · rename_i hne
      cases h
      refine ⟨rfl, by simp, fun rest' hrest' => ?_⟩
      have hspan' : (ds ++ rest').span (·.isDigit) = (ds, rest') :=
        Number.spanDigits_append hds fun c hc => (hrest' c hc).1
      rw [List.cons_append, fractionPart, hspan']
      exact if_neg hne
  · cases h
    exact ⟨rfl, by simp, hnone⟩

theorem exponentSign_of_digit {sign rest : List Char} {d : Char}
    (hsign : sign = [] ∨ sign = ['+'] ∨ sign = ['-']) (hd : d.isDigit) :
    exponentSign (sign ++ d :: rest) = (sign, d :: rest) := by
  rcases hsign with rfl | rfl | rfl
  · rw [List.nil_append]
    unfold exponentSign
    split
    · rename_i heq
      rw [(List.cons.inj heq).1] at hd
      exact absurd hd (by decide)
    · rename_i heq
      rw [(List.cons.inj heq).1] at hd
      exact absurd hd (by decide)
    · rfl
  · rfl
  · rfl

theorem exponentSign_cases {cs sign rest : List Char} (h : exponentSign cs = (sign, rest)) :
    cs = sign ++ rest ∧ (sign = [] ∨ sign = ['+'] ∨ sign = ['-']) := by
  unfold exponentSign at h
  split at h <;> cases h <;> simp

theorem exponentPart_eq_iff {cs : List Char} : exponentPart cs = ([], cs) ↔ ¬ StartsExponent cs := by
  constructor
  · rintro h ⟨e, sign, d, rest, rfl, he, hsign, hd⟩
    unfold exponentPart at h
    dsimp only at h
    rw [if_pos he, exponentSign_of_digit hsign hd] at h
    dsimp only at h
    rw [if_neg (by simpa only [List.isEmpty_iff] using span_isDigit_ne_nil hd rest)] at h
    cases h
  · intro h
    cases cs with
    | nil => rfl
    | cons e rest =>
      unfold exponentPart
      dsimp only
      split
      · rename_i he
        cases hsign : exponentSign rest with
        | mk sign after =>
          obtain ⟨rfl, hcases⟩ := exponentSign_cases hsign
          dsimp only
          rw [span_isDigit_of_head]
          · rfl
          · intro d hd hdigit
            obtain ⟨more, rfl⟩ := List.head?_eq_some_iff.mp hd
            exact h ⟨e, sign, d, more, rfl, he, hcases, hdigit⟩
      · rfl

theorem exponentPart_local {cs exponent rest : List Char} (h : exponentPart cs = (exponent, rest)) :
    cs = exponent ++ rest ∧ (∀ c ∈ exponent.head?, c = 'e' ∨ c = 'E') ∧
      ∀ rest', (∀ c ∈ rest'.head?, ¬ c.isDigit ∧ c ≠ 'e' ∧ c ≠ 'E') →
        exponentPart (exponent ++ rest') = (exponent, rest') := by
  have hnone : ∀ rest' : List Char, (∀ c ∈ rest'.head?, ¬ c.isDigit ∧ c ≠ 'e' ∧ c ≠ 'E') →
      exponentPart rest' = ([], rest') := by
    intro rest' hrest'
    refine exponentPart_eq_iff.mpr ?_
    rintro ⟨e, sign, d, more, rfl, he, -⟩
    exact he.elim (hrest' e rfl).2.1 (hrest' e rfl).2.2
  cases cs with
  | nil =>
    cases h
    exact ⟨rfl, by simp, hnone⟩
  | cons e more =>
    unfold exponentPart at h
    dsimp only at h
    split at h
    · rename_i he
      cases hsign : exponentSign more with
      | mk sign after =>
        obtain ⟨rfl, hcases⟩ := exponentSign_cases hsign
        obtain ⟨ds, rest₂, hspan, rfl, hds⟩ := exists_span after
        rw [hsign] at h
        dsimp only at h
        rw [hspan] at h
        dsimp only at h
        split at h
        · cases h
          exact ⟨rfl, by simp, hnone⟩
        · rename_i hne
          cases h
          refine ⟨by simp, by simpa using he, fun rest' hrest' => ?_⟩
          have hspan' : (ds ++ rest').span (·.isDigit) = (ds, rest') :=
            Number.spanDigits_append hds fun c hc => (hrest' c hc).1
          have hsign' : exponentSign (sign ++ (ds ++ rest')) = (sign, ds ++ rest') := by
            cases ds with
            | nil => exact absurd rfl hne
            | cons d ds => exact exponentSign_of_digit hcases (hds d List.mem_cons_self)
          rw [List.cons_append, List.cons_append, List.append_assoc]
          unfold exponentPart
          dsimp only
          rw [if_pos he, hsign']
          dsimp only
          rw [hspan']
          exact if_neg hne
    · cases h
      exact ⟨rfl, by simp, hnone⟩

theorem numberSign_of_digit {sign ds : List Char} {d : Char} (hsign : sign = [] ∨ sign = ['-'])
    (hd : d.isDigit) : numberSign (sign ++ d :: ds) = (sign, d :: ds) := by
  rcases hsign with rfl | rfl
  · rw [List.nil_append]
    unfold numberSign
    split
    · rename_i heq
      rw [(List.cons.inj heq).1] at hd
      exact absurd hd (by decide)
    · rfl
  · rfl

theorem numberSign_cases {cs sign body : List Char} (h : numberSign cs = (sign, body)) :
    cs = sign ++ body ∧ (sign = [] ∨ sign = ['-']) := by
  unfold numberSign at h
  split at h <;> cases h <;> simp

theorem numberParts?_eq_some_iff {body whole fraction exponent rest : List Char} :
    numberParts? body = some (whole, fraction, exponent, rest) ↔
      ∃ r₁ r₂, wholePart? body = some (whole, r₁) ∧ fractionPart r₁ = (fraction, r₂) ∧
        exponentPart r₂ = (exponent, rest) := by
  simp only [numberParts?, Option.bind_eq_bind, Option.bind_eq_some_iff, Option.pure_def,
    Option.some.injEq]
  constructor
  · rintro ⟨⟨whole₁, r₁⟩, hwhole, heq⟩
    dsimp only at heq
    cases heq
    exact ⟨r₁, _, hwhole, rfl, rfl⟩
  · rintro ⟨r₁, r₂, hwhole, hfraction, hexponent⟩
    exact ⟨(whole, r₁), hwhole, by simp only [hfraction, hexponent]⟩

theorem numberParts?_local {body whole fraction exponent rest : List Char}
    (h : numberParts? body = some (whole, fraction, exponent, rest)) :
    body = whole ++ fraction ++ exponent ++ rest ∧ whole ≠ [] ∧ (∀ c ∈ whole, c.isDigit) ∧
      ∀ rest', EndsNumber rest' →
        numberParts? (whole ++ fraction ++ exponent ++ rest') =
          some (whole, fraction, exponent, rest') := by
  obtain ⟨r₁, r₂, hwhole, hfraction, hexponent⟩ := numberParts?_eq_some_iff.mp h
  obtain ⟨rfl, hne, hdigits, -⟩ := wholePart?_cases hwhole
  obtain ⟨rfl, hfractionHead, hfractionLocal⟩ := fractionPart_local hfraction
  obtain ⟨rfl, hexponentHead, hexponentLocal⟩ := exponentPart_local hexponent
  refine ⟨by simp, hne, hdigits, fun rest' hrest' => ?_⟩
  -- after the digits comes the point of a fraction, the letter of an exponent or the rest
  have hafter : ∀ c ∈ (exponent ++ rest').head?, ¬ c.isDigit ∧ c ≠ '.' := by
    cases exponent with
    | nil => exact fun c hc => ⟨(hrest' c hc).1, (hrest' c hc).2.1⟩
    | cons e ds =>
      intro c hc
      obtain rfl := Option.some.inj hc
      rcases hexponentHead e rfl with rfl | rfl <;> decide
  have hbefore : ∀ c ∈ (fraction ++ (exponent ++ rest')).head?, ¬ c.isDigit := by
    cases fraction with
    | nil => exact fun c hc => (hafter c hc).1
    | cons e ds =>
      intro c hc
      obtain rfl := Option.some.inj hc
      rw [hfractionHead e rfl]
      decide
  rw [List.append_assoc, List.append_assoc]
  exact numberParts?_eq_some_iff.mpr ⟨_, _, wholePart?_local hwhole hbefore,
    hfractionLocal _ hafter, hexponentLocal rest' fun c hc => ⟨(hrest' c hc).1, (hrest' c hc).2.2⟩⟩

theorem readNumber_of_value {cs sign body whole fraction exponent rest : List Char} {v : Json}
    (hsign : numberSign cs = (sign, body))
    (hparts : numberParts? body = some (whole, fraction, exponent, rest))
    (hvalue : numberValue? sign whole fraction exponent = some v) :
    readNumber cs = .ok (v, rest) := by
  unfold readNumber
  rw [hsign]
  dsimp only
  rw [hparts]
  dsimp only
  rw [hvalue]

theorem readNumber_of_long {cs sign body whole rest : List Char}
    (hsign : numberSign cs = (sign, body)) (hparts : numberParts? body = some (whole, [], [], rest))
    (hlong : Integer.read? 10 (sign ++ whole) = none) :
    readNumber cs = .error ⟨.integerTooLong whole.length, cs⟩ := by
  have hvalue : numberValue? sign whole [] [] = none := by
    simp [numberValue?, hlong]
  unfold readNumber
  rw [hsign]
  dsimp only
  rw [hparts]
  dsimp only
  rw [hvalue]
  rfl

theorem readNumber_cases (cs : List Char) :
    readNumber cs = .error ⟨.expectingValue, cs⟩ ∨
      ∃ sign body whole fraction exponent rest, numberSign cs = (sign, body) ∧
        numberParts? body = some (whole, fraction, exponent, rest) ∧
        ((∃ v, numberValue? sign whole fraction exponent = some v ∧
            readNumber cs = .ok (v, rest)) ∨
          (fraction = [] ∧ exponent = [] ∧ Integer.read? 10 (sign ++ whole) = none ∧
            readNumber cs = .error ⟨.integerTooLong whole.length, cs⟩)) := by
  cases hsign : numberSign cs with
  | mk sign body =>
    cases hparts : numberParts? body with
    | none =>
      refine .inl ?_
      unfold readNumber
      rw [hsign]
      dsimp only
      rw [hparts]
    | some parts =>
      obtain ⟨whole, fraction, exponent, rest⟩ := parts
      cases hvalue : numberValue? sign whole fraction exponent with
      | some v =>
        exact .inr ⟨sign, body, whole, fraction, exponent, rest, rfl, hparts,
          .inl ⟨v, hvalue, readNumber_of_value hsign hparts hvalue⟩⟩
      | none =>
        by_cases hplain : fraction.isEmpty && exponent.isEmpty
        · rw [numberValue?, if_pos hplain, Option.map_eq_none_iff] at hvalue
          obtain ⟨rfl, rfl⟩ : fraction = [] ∧ exponent = [] := by simpa using hplain
          exact .inr ⟨sign, body, whole, [], [], rest, rfl, hparts,
            .inr ⟨rfl, rfl, hvalue, readNumber_of_long hsign hparts hvalue⟩⟩
        · refine .inl ?_
          unfold readNumber
          rw [hsign]
          dsimp only
          rw [hparts]
          dsimp only
          rw [hvalue]
          exact if_neg hplain

def startsScalar (c : Char) : Bool := c.isAlpha || c.isDigit || c = '-'

theorem startsScalar_of_digit {sign : List Char} {d : Char} (hsign : sign = [] ∨ sign = ['-'])
    (hd : d.isDigit) (ds : List Char) : ∃ c cs, sign ++ d :: ds = c :: cs ∧ startsScalar c := by
  rcases hsign with rfl | rfl
  · exact ⟨d, ds, rfl, by simp [startsScalar, hd]⟩
  · exact ⟨'-', d :: ds, rfl, by decide⟩

/-- The text is read as a word or a number before anything that does not carry on a number. -/
structure SpellsScalar (used : List Char) (v : Json) : Prop where
  head : ∃ c cs, used = c :: cs ∧ startsScalar c
  read : ∀ rest, EndsNumber rest → readScalar (used ++ rest) = .ok (v, rest)

theorem word?_of_mem {w : String} {v : Json} (h : (w, v) ∈ words) (rest : List Char) :
    word? (w.toList ++ rest) = some (v, rest) := by
  simp only [words, List.mem_cons, Prod.mk.injEq, List.not_mem_nil, or_false] at h
  rcases h with ⟨rfl, rfl⟩ | ⟨rfl, rfl⟩ | ⟨rfl, rfl⟩ | ⟨rfl, rfl⟩ | ⟨rfl, rfl⟩ | ⟨rfl, rfl⟩ <;> rfl

theorem exists_mem_words {cs rest : List Char} {v : Json} (h : word? cs = some (v, rest)) :
    ∃ w, (w, v) ∈ words ∧ cs = w.toList ++ rest := by
  obtain ⟨⟨w, v'⟩, hmem, hdrop⟩ := List.exists_of_findSome?_eq_some h
  obtain ⟨rest', hrest', heq⟩ := Option.map_eq_some_iff.mp hdrop
  cases heq
  unfold dropWord? at hrest'
  split at hrest'
  · rename_i hpre
    obtain ⟨more, rfl⟩ := List.isPrefixOf_iff_prefix.mp hpre
    obtain rfl := Option.some.inj hrest'
    exact ⟨w, hmem, by simp⟩
  · cases hrest'

theorem word?_of_digit {sign ds : List Char} {d : Char} (hsign : sign = [] ∨ sign = ['-'])
    (hd : d.isDigit) : word? (sign ++ d :: ds) = none := by
  have hne : ∀ c : Char, ¬ c.isDigit → c ≠ d := by
    rintro c hc rfl
    exact hc hd
  have hn := hne 'n' (by decide)
  have ht := hne 't' (by decide)
  have hf := hne 'f' (by decide)
  have hN := hne 'N' (by decide)
  have hI := hne 'I' (by decide)
  have hminus := hne '-' (by decide)
  rcases hsign with rfl | rfl <;> simp [word?, words, dropWord?, hn, ht, hf, hN, hI, hminus]

theorem spellsScalar_of_mem {w : String} {v : Json} (h : (w, v) ∈ words) :
    SpellsScalar w.toList v := by
  constructor
  · simp only [words, List.mem_cons, Prod.mk.injEq, List.not_mem_nil, or_false] at h
    rcases h with ⟨rfl, rfl⟩ | ⟨rfl, rfl⟩ | ⟨rfl, rfl⟩ | ⟨rfl, rfl⟩ | ⟨rfl, rfl⟩ | ⟨rfl, rfl⟩ <;>
      exact ⟨_, _, rfl, by decide⟩
  · intro rest _
    rw [readScalar, word?_of_mem h]

theorem exists_spellsScalar_of_number {cs rest : List Char} {v : Json}
    (h : readNumber cs = .ok (v, rest)) : ∃ used, cs = used ++ rest ∧ SpellsScalar used v := by
  rcases readNumber_cases cs with hnone |
    ⟨sign, body, whole, fraction, exponent, rest₁, hsign, hparts, ⟨v₁, hvalue, hread⟩ |
      ⟨-, -, -, hread⟩⟩
  · rw [hnone] at h
    cases h
  · rw [hread] at h
    cases h
    obtain ⟨rfl, hminus⟩ := numberSign_cases hsign
    obtain ⟨rfl, hne, hdigits, hpartsLocal⟩ := numberParts?_local hparts
    obtain ⟨d, ds, rfl⟩ := List.exists_cons_of_ne_nil hne
    have hd : d.isDigit := hdigits d List.mem_cons_self
    refine ⟨sign ++ d :: (ds ++ fraction ++ exponent), by simp, ?_, fun rest' hrest' => ?_⟩
    · exact startsScalar_of_digit hminus hd _
    · have hparts' := hpartsLocal rest' hrest'
      simp only [List.cons_append, List.append_assoc] at hparts' ⊢
      rw [readScalar, word?_of_digit hminus hd]
      exact readNumber_of_value (numberSign_of_digit hminus hd) hparts' hvalue
  · rw [hread] at h
    cases h

theorem exists_spellsScalar {cs rest : List Char} {v : Json} (h : readScalar cs = .ok (v, rest)) :
    ∃ used, cs = used ++ rest ∧ SpellsScalar used v := by
  unfold readScalar at h
  split at h
  · rename_i reading hword
    cases h
    obtain ⟨w, hmem, rfl⟩ := exists_mem_words hword
    exact ⟨w.toList, rfl, spellsScalar_of_mem hmem⟩
  · exact exists_spellsScalar_of_number h

/-! Integers with too many digits -/

/-- An integer of `n` digits, more than are read, comes first. -/
def LongInteger (n : Nat) (cs : List Char) : Prop :=
  ∃ sign whole after, cs = sign ++ whole ++ after ∧ (sign = [] ∨ sign = ['-']) ∧
    (∀ c ∈ whole, c.isDigit) ∧ whole.head? ≠ some '0' ∧ whole.length = n ∧
    Integer.digitLimit < n ∧ (∀ c ∈ after.head?, ¬ c.isDigit) ∧ ¬ StartsFraction after ∧
    ¬ StartsExponent after

theorem LongInteger.exists_digit {n : Nat} {cs : List Char} (h : LongInteger n cs) :
    ∃ sign d ds, cs = sign ++ d :: ds ∧ (sign = [] ∨ sign = ['-']) ∧ d.isDigit := by
  obtain ⟨sign, whole, after, rfl, hsign, hdigits, -, hlength, hlong, -⟩ := h
  cases whole with
  | nil =>
    rw [List.length_nil] at hlength
    omega
  | cons d ds =>
    exact ⟨sign, d, ds ++ after, by simp, hsign, hdigits d List.mem_cons_self⟩

theorem LongInteger.exists_start {n : Nat} {cs : List Char} (h : LongInteger n cs) :
    ∃ c rest, cs = c :: rest ∧ startsScalar c := by
  obtain ⟨sign, d, ds, rfl, hsign, hd⟩ := h.exists_digit
  exact startsScalar_of_digit hsign hd ds

theorem readNumber_of_longInteger {n : Nat} {cs : List Char} (h : LongInteger n cs) :
    readNumber cs = .error ⟨.integerTooLong n, cs⟩ := by
  obtain ⟨sign, whole, after, rfl, hsign, hdigits, hzero, rfl, hlong, hafter, hfraction,
    hexponent⟩ := h
  have hne : whole ≠ [] := List.ne_nil_of_length_pos ((Nat.zero_le _).trans_lt hlong)
  have hparts : numberParts? (whole ++ after) = some (whole, [], [], after) :=
    numberParts?_eq_some_iff.mpr ⟨after, after, wholePart?_of_digits hne hdigits hzero hafter,
      fractionPart_eq_iff.mpr hfraction, exponentPart_eq_iff.mpr hexponent⟩
  have hcut : numberSign (sign ++ whole ++ after) = (sign, whole ++ after) := by
    obtain ⟨d, ds, rfl⟩ := List.exists_cons_of_ne_nil hne
    rw [List.append_assoc]
    exact numberSign_of_digit hsign (hdigits d List.mem_cons_self)
  exact readNumber_of_long hcut hparts ((Integer.read?_eq_none_iff hsign hne hdigits).mpr hlong)

theorem longInteger_of_readNumber {n : Nat} {cs rest : List Char}
    (h : readNumber cs = .error ⟨.integerTooLong n, rest⟩) : LongInteger n cs ∧ rest = cs := by
  rcases readNumber_cases cs with hnone |
    ⟨sign, body, whole, fraction, exponent, after, hsign, hparts, ⟨v, -, hread⟩ |
      ⟨rfl, rfl, hread?, hread⟩⟩
  · rw [hnone] at h
    cases h
  · rw [hread] at h
    cases h
  · rw [hread] at h
    cases h
    obtain ⟨r₁, r₂, hwhole, hfraction, hexponent⟩ := numberParts?_eq_some_iff.mp hparts
    obtain ⟨hcs, hcases⟩ := numberSign_cases hsign
    obtain ⟨rfl, hne, hdigits, hzero⟩ := wholePart?_cases hwhole
    obtain ⟨hr₁, -, -⟩ := fractionPart_local hfraction
    obtain ⟨hr₂, -, -⟩ := exponentPart_local hexponent
    rw [List.nil_append] at hr₁ hr₂
    subst hr₁
    subst hr₂
    have hlong := (Integer.read?_eq_none_iff hcases hne hdigits).mp hread?
    obtain ⟨hhead, hafter⟩ : whole.head? ≠ some '0' ∧ ∀ c ∈ r₁.head?, ¬ c.isDigit := by
      rcases hzero with rfl | hzero
      · exact absurd hlong (by decide)
      · exact hzero
    refine ⟨?_, rfl⟩
    refine ⟨sign, whole, r₁, by simp [hcs], hcases, hdigits, hhead, rfl, hlong, hafter, ?_, ?_⟩
    · exact fractionPart_eq_iff.mp hfraction
    · exact exponentPart_eq_iff.mp hexponent

theorem readScalar_of_longInteger {n : Nat} {cs : List Char} (h : LongInteger n cs) :
    readScalar cs = .error ⟨.integerTooLong n, cs⟩ := by
  obtain ⟨sign, d, ds, rfl, hsign, hd⟩ := h.exists_digit
  rw [readScalar, word?_of_digit hsign hd]
  exact readNumber_of_longInteger h

end Json

end ParamLint

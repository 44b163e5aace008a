import ParamLint.Proofs.IntegerNames
import ParamLint.Proofs.NumberLayout

/-!
# Names of numbers are read back

The name of a value, taken for a literal, is read as the same value again, up to the sign of zero.
So names are fixed points, and no two values share a name except the two zeros.
-/
namespace ParamLint

/-- The same number, with positive zero for both zeros. -/
def Binary64.withoutZeroSign : Binary64 → Binary64
  | finite negative m e => finite (negative && m ≠ 0) m e
  | v => v

namespace Number

variable {raw cs : List Char} {v : Binary64}

/-- The value of which `name` takes the text, if the literal is read as one. -/
def value? (raw : List Char) : Option Binary64 :=
  let cs := raw.filter (· ≠ '_')
  if cs.getLast? = some 'n' then none
  else if (markedBase? cs).isSome || hasLeadingZero cs && cs.all Digit.isDigit then
    (integer? cs).map Binary64.ofInt
  else decimal? cs

theorem name_eq_value? (hsuffix : (raw.filter (· ≠ '_')).getLast? ≠ some 'n') :
    name raw = (value? raw).elim raw format := by
  rw [name, value?]
  simp only [if_neg hsuffix]
  split_ifs
  · cases integer? (raw.filter (· ≠ '_')) <;> rfl
  · cases decimal? (raw.filter (· ≠ '_')) <;> rfl

theorem name_of_value? (h : value? raw = some v) : name raw = format v := by
  have hsuffix : (raw.filter (· ≠ '_')).getLast? ≠ some 'n' := by
    intro hlast
    rw [value?, if_pos hlast] at h
    cases h
  rw [name_eq_value? hsuffix, h]
  rfl

/-! Every value that is read is one of the format -/

theorem isValue_of_unsigned? {negative : Bool} (h : unsigned? negative cs = some v) :
    v.IsValue := by
  unfold unsigned? at h
  split at h
  split at h
  split_ifs at h
  simp only [Option.bind_eq_bind, Option.bind_eq_some_iff] at h
  obtain ⟨c, -, e, -, hv⟩ := h
  cases hv
  exact (Binary64.isNearest_ofDecimal negative c _).isValue

theorem isValue_of_decimal? (h : decimal? cs = some v) : v.IsValue := by
  unfold decimal? at h
  split at h
  extract_lets at h
  split_ifs at h
  · cases h
    trivial
  · cases h
    trivial
  · exact isValue_of_unsigned? h

theorem isValue_of_value? (h : value? raw = some v) : v.IsValue := by
  rw [value?] at h
  split_ifs at h
  · obtain ⟨n, -, rfl⟩ := Option.map_eq_some_iff.mp h
    exact (Binary64.isNearest_nearest _ n.natAbs one_pos).isValue
  · exact isValue_of_decimal? h

/-! Reading the characters of a numeral -/

theorem denotes_of_isDigit {c : Char} (hc : c.isDigit) : Digit.Denotes 10 c (c.toNat - 48) := by
  have hrange : 48 ≤ c.toNat ∧ c.toNat ≤ 57 := by
    simpa [Char.isDigit, UInt32.le_iff_toNat_le] using hc
  refine ⟨by omega, by omega, .inl (Char.toNat_inj.mp ?_)⟩
  rw [Nat.toNat_digitChar_of_lt_ten (by omega)]
  omega

theorem digitsFrom_of_isDigit {ds : List Char} (hds : ∀ c ∈ ds, c.isDigit) (n : ℕ) :
    Integer.digitsFrom 10 n true ds = some (Nat.ofDigitChars 10 ds n) := by
  induction ds generalizing n with
  | nil => rfl
  | cons c ds ih =>
    have hc := denotes_of_isDigit (hds c List.mem_cons_self)
    rw [Integer.digitsFrom_cons hc, ih fun d hd => hds d (List.mem_cons_of_mem c hd),
      Nat.ofDigitChars_cons, Nat.mul_comm]
    rfl

theorem digits?_of_isDigit {ds : List Char} (hne : ds ≠ []) (hds : ∀ c ∈ ds, c.isDigit) :
    Integer.digits? 10 ds = some (Nat.ofDigitChars 10 ds 0) := by
  obtain ⟨c, ds, rfl⟩ := List.exists_cons_of_ne_nil hne
  have hc := denotes_of_isDigit (hds c List.mem_cons_self)
  rw [← digitsFrom_of_isDigit hds, Integer.digits?, Integer.digitsFrom_cons hc,
    Integer.digitsFrom_cons hc]

structure IsNumeric (c : Char) : Prop where
  ascii : Digit.toAscii c = c
  blank : Digit.isPlainBlank c = false
  underscore : c ≠ '_'
  suffix : c ≠ 'n'
  mark : Integer.markBase? c = none

instance (c : Char) : Decidable (IsNumeric c) :=
  decidable_of_iff (Digit.toAscii c = c ∧ Digit.isPlainBlank c = false ∧ c ≠ '_' ∧ c ≠ 'n' ∧
      Integer.markBase? c = none)
    ⟨fun ⟨ha, hb, hu, hs, hm⟩ => ⟨ha, hb, hu, hs, hm⟩,
      fun h => ⟨h.ascii, h.blank, h.underscore, h.suffix, h.mark⟩⟩

theorem isNumeric_of_isDigit {c : Char} (hc : c.isDigit) : IsNumeric c := by
  have h := denotes_of_isDigit hc
  refine ⟨h.isPlain.ascii, h.isPlain.blank, h.ne_underscore, ?_, markBase?_of_denotes h⟩
  rintro rfl
  exact (toLower_ne_of_denotes h).2 rfl

namespace Numeral

variable {p : Numeral}

theorem isNumeric_of_mem_text (h : p.IsDecimal) : ∀ c ∈ p.text, IsNumeric c := by
  have hexponent : ∀ c ∈ p.exponentText, IsNumeric c := by
    rw [exponentText]
    cases hp : p.exponent with
    | none => simp
    | some x =>
      rintro c (_ | ⟨_, _ | ⟨_, hc⟩⟩)
      · decide
      · split_ifs <;> decide
      · exact isNumeric_of_isDigit ((h.exponent x hp).2 c hc)
  have hfraction : ∀ c ∈ p.fractionText, IsNumeric c := by
    rw [fractionText]
    cases hp : p.fraction with
    | none => simp
    | some ds =>
      rintro c (_ | ⟨_, hc⟩)
      · decide
      · exact isNumeric_of_isDigit (h.fraction ds hp c hc)
  have hunsigned : ∀ c ∈ p.unsignedText, IsNumeric c := by
    intro c hc
    rcases List.mem_append.mp hc with hc | hc
    · exact isNumeric_of_isDigit (h.whole.2 c hc)
    rcases List.mem_append.mp hc with hc | hc
    · exact hfraction c hc
    · exact hexponent c hc
  rw [text]
  split_ifs
  · rintro c (_ | ⟨_, hc⟩)
    · decide
    · exact hunsigned c hc
  · exact hunsigned

/-! Reading a numeral -/

theorem exponent?_exponentText (h : p.IsDecimal) : exponent? p.exponentText =
    some (p.exponent.elim 0 fun x => Integer.signed x.1 (Nat.ofDigitChars 10 x.2 0)) := by
  rw [exponentText]
  cases hp : p.exponent with
  | none => rfl
  | some x =>
    obtain ⟨hne, hdigits⟩ := h.exponent x hp
    have hsplit : Integer.splitSign ((if x.1 then '-' else '+') :: x.2) = x := by
      obtain ⟨negative, ds⟩ := x
      cases negative <;> rfl
    have hall : (x.2.isEmpty || !x.2.all (·.isDigit)) = false := by
      simpa using ⟨hne, hdigits⟩
    simp only [Option.elim_some, exponent?, true_or, if_true, hsplit, hall,
      digits?_of_isDigit hne hdigits]
    rfl

theorem unsigned?_unsignedText (h : p.IsDecimal) : unsigned? p.negative p.unsignedText =
    some (Binary64.ofDecimal p.negative p.coefficient p.power) := by
  have hdigits : ∀ c ∈ p.whole ++ p.fraction.getD [], c.isDigit := by
    intro c hc
    rcases List.mem_append.mp hc with hc | hc
    · exact h.whole.2 c hc
    · cases hp : p.fraction with
      | none => simp [hp] at hc
      | some ds =>
        rw [hp] at hc
        exact h.fraction ds hp c hc
  have hwhole : p.whole.isEmpty = false := by simpa using h.whole.1
  unfold unsigned?
  rw [spanDigits_unsignedText h]
  split
  rename_i _ _ hspan
  obtain ⟨rfl, rfl⟩ := Prod.mk.inj hspan
  split
  rename_i fraction rest hrest
  have hsplit : (fraction, rest) = (p.fraction.getD [], p.exponentText) := by
    rw [← hrest, fractionText]
    cases hp : p.fraction with
    | none =>
      rw [exponentText]
      cases p.exponent <;> rfl
    | some ds => exact spanDigits_exponentText (h.fraction ds hp) p
  obtain ⟨rfl, rfl⟩ := Prod.mk.inj hsplit
  rw [hwhole, Bool.false_and, if_neg Bool.false_ne_true,
    digits?_of_isDigit (by simp [h.whole.1]) hdigits, exponent?_exponentText h]
  rfl

theorem decimal?_text (h : p.IsDecimal) :
    decimal? p.text = some (Binary64.ofDecimal p.negative p.coefficient p.power) := by
  have hnumeric := isNumeric_of_mem_text h
  have hascii : p.text.map Digit.toAscii = p.text := by
    rw [List.map_congr_left fun c hc => (hnumeric c hc).ascii, List.map_id']
  obtain ⟨c, rest, htext, hc⟩ := exists_unsignedText h
  have hsplit : Integer.splitSign (Digit.trimBlanks (p.text.map Digit.toAscii)) =
      (p.negative, c :: rest) := by
    rw [hascii, Digit.trimBlanks_of_no_blank fun c hc => (hnumeric c hc).blank, splitSign_text h,
      htext]
  rw [decimal?_of_digit hsplit (denotes_of_isDigit hc), ← htext, unsigned?_unsignedText h]

theorem markedBase?_text (h : p.IsDecimal) : markedBase? p.text = none := by
  have hnumeric := isNumeric_of_mem_text h
  unfold markedBase?
  split
  · rename_i m rest heq
    exact (hnumeric m (by simp [heq])).mark
  · rfl

theorem not_leadingZero_text (h : p.IsDecimal)
    (hzero : p.whole.head? = some '0' → p.whole = ['0']) :
    (hasLeadingZero p.text && p.text.all Digit.isDigit) = false := by
  rw [text]
  cases p.negative with
  | true => rfl
  | false =>
    obtain ⟨c, ds, hwhole⟩ := List.exists_cons_of_ne_nil h.whole.1
    rw [if_neg (by decide), unsignedText, hwhole]
    by_cases hc : c = '0'
    · obtain rfl : ds = [] := by
        rw [hwhole, hc] at hzero
        exact (List.cons.inj (hzero rfl)).2
      rw [fractionText, exponentText, hc]
      cases p.fraction with
      | none => cases p.exponent <;> rfl
      | some fraction => rfl
    · have hplain : hasLeadingZero (c :: ds ++ (p.fractionText ++ p.exponentText)) = false := by
        rw [hasLeadingZero]
        intro m rest heq
        exact hc (List.cons.inj heq).1
      rw [hplain, Bool.false_and]

theorem value?_text (h : p.IsDecimal) (hzero : p.whole.head? = some '0' → p.whole = ['0']) :
    value? p.text = some (Binary64.ofDecimal p.negative p.coefficient p.power) := by
  have hnumeric := isNumeric_of_mem_text h
  have hfilter : p.text.filter (· ≠ '_') = p.text :=
    List.filter_eq_self.mpr fun c hc => decide_eq_true (hnumeric c hc).underscore
  have hsuffix : p.text.getLast? ≠ some 'n' :=
    fun hlast => (hnumeric 'n' (List.mem_of_getLast? hlast)).suffix rfl
  rw [value?, hfilter]
  simp only [if_neg hsuffix, markedBase?_text h, not_leadingZero_text h hzero, decimal?_text h]
  rfl

end Numeral

/-! The name of a value -/

theorem exists_text_format (negative : Bool) {m : ℕ} {e : ℤ} (h : Binary64.IsCanonical m e)
    (he : e ≤ Binary64.greatestExponent) (hm : 0 < m) :
    ∃ p : Numeral, p.IsDecimal ∧ (p.whole.head? = some '0' → p.whole = ['0']) ∧
      format (.finite negative m e) = p.text ∧
      Binary64.ofDecimal p.negative p.coefficient p.power = .finite negative m e := by
  obtain ⟨c, g, hshortest, p, rfl, hshows, htext⟩ := exists_format_eq_text negative h hm
  refine ⟨p, hshows.toIsDecimal, ?_, htext, ?_⟩
  · cases hp : p.exponent with
    | none => exact (hshows.positional hp).whole
    | some x =>
      obtain ⟨d, hwhole, hd⟩ := (hshows.scientific (by rw [hp]; rfl)).whole
      rw [hwhole]
      rintro ⟨⟩
      exact absurd rfl hd
  · have hnearest := Binary64.isNearest_ofDecimal p.negative p.coefficient p.power
    rw [hshows.value] at hnearest
    have hround := hshortest.rounds.isNearest p.negative
    rw [if_neg (not_lt.mpr he)] at hround
    exact hnearest.unique hround

theorem value?_format (h : v.IsValue) : value? (format v) = some v.withoutZeroSign := by
  cases v with
  | nan => rfl
  | infinite negative => cases negative <;> rfl
  | finite negative m e =>
    rcases Nat.eq_zero_or_pos m with rfl | hm
    · obtain rfl : e = -1074 := h.1.normal.resolve_left (by norm_num)
      rw [Binary64.withoutZeroSign, decide_eq_false (by decide), Bool.and_false]
      rfl
    · obtain ⟨p, hdecimal, hzero, htext, hvalue⟩ := exists_text_format negative h.1 h.2 hm
      rw [htext, p.value?_text hdecimal hzero, hvalue, Binary64.withoutZeroSign]
      simp [hm.ne']

theorem format_withoutZeroSign (v : Binary64) : format v.withoutZeroSign = format v := by
  cases v with
  | nan => rfl
  | infinite negative => rfl
  | finite negative m e =>
    rcases Nat.eq_zero_or_pos m with rfl | hm
    · rfl
    · rw [Binary64.withoutZeroSign]
      simp [hm.ne']

theorem name_format (h : v.IsValue) : name (format v) = format v := by
  rw [name_of_value? (value?_format h), format_withoutZeroSign]

theorem format_inj {w : Binary64} (hv : v.IsValue) (hw : w.IsValue) :
    format v = format w ↔ v.withoutZeroSign = w.withoutZeroSign := by
  constructor
  · intro h
    have hread := congrArg value? h
    rw [value?_format hv, value?_format hw] at hread
    exact Option.some.inj hread
  · intro h
    rw [← format_withoutZeroSign v, h, format_withoutZeroSign]

theorem name_name (hsuffix : (raw.filter (· ≠ '_')).getLast? ≠ some 'n') :
    name (name raw) = name raw := by
  rw [name_eq_value? hsuffix]
  cases h : value? raw with
  | none => exact (name_eq_value? hsuffix).trans (by rw [h])
  | some v => exact name_format (isValue_of_value? h)

/-- Names lose nothing but the sign of zero: the name of every value is read as this value, so it is
its own name and that of no other number. Of a text that does not end in `n`, whether it is read as
a value or not, the name is its own name too. -/
theorem names_are_read_back :
    (∀ bits, value? (format (Binary64.ofBits bits)) = some (Binary64.ofBits bits).withoutZeroSign ∧
      name (format (Binary64.ofBits bits)) = format (Binary64.ofBits bits)) ∧
    (∀ bits bits', format (Binary64.ofBits bits) = format (Binary64.ofBits bits') ↔
      (Binary64.ofBits bits).withoutZeroSign = (Binary64.ofBits bits').withoutZeroSign) ∧
    ∀ raw : List Char, (raw.filter (· ≠ '_')).getLast? ≠ some 'n' →
      name raw = (value? raw).elim raw format ∧ name (name raw) = name raw := by
  have hvalue := Binary64.isValue_ofBits
  refine ⟨fun bits => ⟨value?_format (hvalue bits), name_format (hvalue bits)⟩, ?_, ?_⟩
  · exact fun bits bits' => format_inj (hvalue bits) (hvalue bits')
  · exact fun raw hsuffix => ⟨name_eq_value? hsuffix, name_name hsuffix⟩

/-- The least positive value, and a literal that is read as an integer. -/
theorem names_are_read_back_samples :
    value? "5e-324".toList = some (.finite false 1 (-1074)) ∧
      name (name "0x1_0".toList) = name "0x1_0".toList := by
  have hformat : format (Binary64.ofBits 1) = "5e-324".toList := by decide +kernel
  constructor
  · rw [← hformat]
    exact (names_are_read_back.1 1).1
  · exact (names_are_read_back.2.2 "0x1_0".toList (by decide)).2

end Number

end ParamLint

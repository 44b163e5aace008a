import ParamLint.Proofs.Decoding
import ParamLint.Proofs.JsonFaults
import ParamLint.Proofs.Naming
import ParamLint.Proofs.Options

/-!
# Errors of loading

Loading a configuration reports a file that cannot be opened, is no JSON object or holds wrong
options. It lets three errors of the layers below pass: that of a path the file system cannot be
asked for, that of bytes which are no text, and that of an integer with too many digits.
-/
namespace ParamLint

namespace ConfigError

/-- Loading raises this as an error of the configuration. -/
def IsReported : ConfigError → Prop
  | unreadable _ _ | malformed _ _ _ | notObject _ | invalid _ => True
  | unnamable _ | undecodable _ | numberTooLong _ => False

end ConfigError

/-- The text holds an integer of `n` digits, more than are read, where the part before it leaves a
value to come. -/
def Json.MeetsLongInteger (n : Nat) (cs : List Char) : Prop :=
  ∃ before rest, cs = before ++ rest ∧ parse before = .error ⟨.expectingValue, []⟩ ∧
    LongInteger n rest

namespace Configuration

/-- The file at the path can be asked for and, if it can be opened, holds text that is free of long
integers. -/
structure IsReadable (top : FileTree) (here : Place) (p : Path) : Prop where
  namable : Path.IsNamable p.toText
  text : ∀ bytes, top.openPath here p = .ok bytes →
    ∃ cs, bytes = Utf8.encode cs ∧ ∀ n, ¬ Json.MeetsLongInteger n (Lines.unify cs)

/-- How reading the file at the path fails below the configuration. -/
inductive Escapes (top : FileTree) (here : Place) (p : Path) : ConfigError → Prop
  | unnamable {fault : Path.Fault} (h : Path.fault? p.toText = some fault) :
    Escapes top here p (.unnamable fault)
  | undecodable {bytes : List UInt8} {fault : Utf8.Fault} (hname : Path.IsNamable p.toText)
    (hopen : top.openPath here p = .ok bytes) (hfault : Utf8.decode bytes = .error fault) :
    Escapes top here p (.undecodable fault)
  | numberTooLong {cs : List Char} {n : Nat} (hname : Path.IsNamable p.toText)
    (hopen : top.openPath here p = .ok (Utf8.encode cs))
    (hlong : Json.MeetsLongInteger n (Lines.unify cs)) : Escapes top here p (.numberTooLong n)

variable {top : FileTree} {here : Place} {p : Path} {raw overrides : List (Text × Json)}
  {e : ConfigError}

theorem Escapes.not_isReported (h : Escapes top here p e) : ¬ e.IsReported := by
  cases h <;> exact id

/-- What loading does on its own with what it reads. -/
def Reports {α : Type} (x : Except ConfigError α) : Prop :=
  (∃ a, x = .ok a) ∨ ∃ e : ConfigError, e.IsReported ∧ x = .error e

theorem not_reports_of_not_isReported {α : Type} {x : Except ConfigError α} (hx : x = .error e)
    (he : ¬ e.IsReported) : ¬ Reports x := by
  rintro (⟨a, ha⟩ | ⟨e', he', hx'⟩)
  · rw [hx] at ha
    cases ha
  · rw [hx] at hx'
    cases hx'
    exact he he'

theorem reports_ofOptions (raw overrides : List (Text × Json)) :
    Reports (ofOptions raw overrides) := by
  unfold ofOptions
  cases Options.parse (Options.merge raw overrides) with
  | ok c => exact .inl ⟨c, rfl⟩
  | error found => exact .inr ⟨.invalid found, trivial, rfl⟩

theorem optionsOfText_of_meets {path : Text} {cs : List Char} {n : Nat}
    (h : Json.MeetsLongInteger n cs) : optionsOfText path cs = .error (.numberTooLong n) := by
  obtain ⟨before, rest, rfl, hbefore, hlong⟩ := h
  rw [optionsOfText, Json.parse_eq_integerTooLong_iff.mpr ⟨before, rfl, hbefore, hlong⟩]

theorem reports_optionsOfText {path : Text} {cs : List Char}
    (h : ∀ n, ¬ Json.MeetsLongInteger n cs) : Reports (optionsOfText path cs) := by
  unfold optionsOfText
  split
  · rename_i n rest hparse
    obtain ⟨before, rfl, hbefore, hlong⟩ := Json.parse_eq_integerTooLong_iff.mp hparse
    exact absurd ⟨before, rest, rfl, hbefore, hlong⟩ (h n)
  · exact .inr ⟨.malformed _ _ _, trivial, rfl⟩
  · exact .inl ⟨_, rfl⟩
  · exact .inr ⟨.notObject _, trivial, rfl⟩

theorem Escapes.optionsOfFile_eq (h : Escapes top here p e) :
    optionsOfFile top here p = .error e := by
  cases h with
  | unnamable hfault => rw [optionsOfFile, hfault]
  | undecodable hname hopen hfault =>
    rw [optionsOfFile, Path.fault?_eq_none_iff.mpr hname]
    dsimp only
    rw [hopen]
    dsimp only
    rw [optionsOfBytes, hfault]
  | @numberTooLong cs n hname hopen hlong =>
    rw [optionsOfFile, Path.fault?_eq_none_iff.mpr hname]
    dsimp only
    rw [hopen]
    dsimp only
    rw [optionsOfBytes, Utf8.decode_encode]
    exact optionsOfText_of_meets hlong

theorem IsReadable.reports (h : IsReadable top here p) : Reports (optionsOfFile top here p) := by
  rw [optionsOfFile, Path.fault?_eq_none_iff.mpr h.namable]
  dsimp only
  cases hopen : top.openPath here p with
  | error error => exact .inr ⟨.unreadable _ error, trivial, rfl⟩
  | ok bytes =>
    obtain ⟨cs, rfl, hfree⟩ := h.text bytes hopen
    dsimp only
    rw [optionsOfBytes, Utf8.decode_encode]
    exact reports_optionsOfText hfree

theorem Escapes.not_isReadable (h : Escapes top here p e) : ¬ IsReadable top here p := fun hread =>
  not_reports_of_not_isReported h.optionsOfFile_eq h.not_isReported hread.reports

theorem isReadable_or_escapes (top : FileTree) (here : Place) (p : Path) :
    IsReadable top here p ∨ ∃ e, Escapes top here p e := by
  cases hfault : Path.fault? p.toText with
  | some fault => exact .inr ⟨_, .unnamable hfault⟩
  | none =>
    have hname := Path.fault?_eq_none_iff.mp hfault
    cases hopen : top.openPath here p with
    | error error => exact .inl ⟨hname, fun bytes hbytes => by rw [hopen] at hbytes; cases hbytes⟩
    | ok bytes =>
      cases hdecode : Utf8.decode bytes with
      | error fault => exact .inr ⟨_, .undecodable hname hopen hdecode⟩
      | ok cs =>
        obtain rfl := Utf8.decode_eq_ok_iff.mp hdecode
        by_cases hlong : ∃ n, Json.MeetsLongInteger n (Lines.unify cs)
        · obtain ⟨n, hlong⟩ := hlong
          exact .inr ⟨_, .numberTooLong hname hopen hlong⟩
        · refine .inl ⟨hname, fun bytes hbytes => ⟨cs, ?_, fun n hn => hlong ⟨n, hn⟩⟩⟩
          rw [hopen] at hbytes
          cases hbytes
          rfl

theorem load_of_file_error (h : optionsOfFile top here p = .error e) :
    load top here (some p) overrides = .error e := by
  rw [load, h]

theorem load_cases (top : FileTree) (here : Place) (file : Option Path)
    (overrides : List (Text × Json)) :
    ((∀ p ∈ file, IsReadable top here p) ∧ Reports (load top here file overrides)) ∨
      ∃ p ∈ file, ∃ e, Escapes top here p e ∧ load top here file overrides = .error e := by
  cases file with
  | none => exact .inl ⟨by simp, reports_ofOptions [] overrides⟩
  | some p =>
    rcases isReadable_or_escapes top here p with hread | ⟨e, hescapes⟩
    · refine .inl ⟨by simpa using hread, ?_⟩
      rcases hread.reports with ⟨raw, hraw⟩ | ⟨e, he, herror⟩
      · rw [load_of_file hraw]
        exact reports_ofOptions raw overrides
      · exact .inr ⟨e, he, load_of_file_error herror⟩
    · exact .inr ⟨p, rfl, e, hescapes, load_of_file_error hescapes.optionsOfFile_eq⟩

/-- Loading returns a configuration or reports an error of it, unless reading the file fails in one
of three ways. -/
theorem load_reports_unless_reading_fails (top : FileTree) (here : Place) (file : Option Path)
    (overrides : List (Text × Json)) :
    (((∃ c, load top here file overrides = .ok c) ∨
        ∃ e : ConfigError, e.IsReported ∧ load top here file overrides = .error e) ↔
      ∀ p ∈ file, IsReadable top here p) ∧
    ∀ e : ConfigError, (load top here file overrides = .error e ∧ ¬ e.IsReported) ↔
      ∃ p ∈ file, Escapes top here p e := by
  rcases load_cases top here file overrides with ⟨hread, hreports⟩ | ⟨p, hp, e, hescapes, hload⟩
  · refine ⟨⟨fun _ => hread, fun _ => hreports⟩, fun e => ⟨?_, ?_⟩⟩
    · rintro ⟨hload, he⟩
      exact absurd hreports (not_reports_of_not_isReported hload he)
    · rintro ⟨p, hp, hescapes⟩
      exact absurd (hread p hp) hescapes.not_isReadable
  · have hnot := not_reports_of_not_isReported hload hescapes.not_isReported
    refine ⟨⟨fun hreports => absurd hreports hnot, fun hread => ?_⟩, fun e' => ⟨?_, ?_⟩⟩
    · exact absurd (hread p hp) hescapes.not_isReadable
    · rintro ⟨hload', -⟩
      rw [hload] at hload'
      cases hload'
      exact ⟨p, hp, hescapes⟩
    · rintro ⟨p', hp', hescapes'⟩
      obtain rfl : file = some p' := hp'
      exact ⟨load_of_file_error hescapes'.optionsOfFile_eq, hescapes'.not_isReported⟩

def bytesTree (bytes : List UInt8) : FileTree := .folder [(Text.ofString "c.json", .file bytes)]

theorem openPath_bytesTree (bytes : List UInt8) :
    (bytesTree bytes).openPath [] configPath = .ok bytes := by rfl

theorem isNamable_configPath : Path.IsNamable configPath.toText :=
  Path.fault?_eq_none_iff.mp (by decide +kernel)

def longText : List Char := List.replicate (Integer.digitLimit + 1) '1'

theorem longInteger_longText : Json.LongInteger (Integer.digitLimit + 1) longText := by
  refine ⟨[], longText, [], by simp, .inl rfl, ?_, ?_, List.length_replicate, Nat.lt_succ_self _,
    by simp, ?_, ?_⟩
  · intro c hc
    rw [List.eq_of_mem_replicate hc]
    decide
  · rw [longText, List.replicate_succ]
    decide
  · rintro ⟨d, rest, hnil, -⟩
    cases hnil
  · rintro ⟨e, sign, d, rest, hnil, -⟩
    cases hnil

theorem unify_longText : Lines.unify longText = longText := by
  rw [longText]
  induction Integer.digitLimit + 1 with
  | zero => rfl
  | succ n ih =>
    rw [List.replicate_succ, Lines.unify, ih]
    · simp
    · simp

/-- Bytes that are no text, and an integer with one digit too many. -/
theorem load_lets_reading_errors_pass :
    load (bytesTree [0xff]) [] (some configPath) [] =
        .error (.undecodable ⟨0, [0xff], .invalidStart⟩) ∧
      load (bytesTree (Utf8.encode longText)) [] (some configPath) [] =
        .error (.numberTooLong (Integer.digitLimit + 1)) := by
  have hpass := fun bytes =>
    (load_reports_unless_reading_fails (bytesTree bytes) [] (some configPath) []).2
  refine ⟨((hpass _ _).mpr ⟨configPath, rfl, ?_⟩).1, ((hpass _ _).mpr ⟨configPath, rfl, ?_⟩).1⟩
  · exact .undecodable isNamable_configPath (openPath_bytesTree _) rfl
  · refine .numberTooLong isNamable_configPath (openPath_bytesTree _) ⟨[], longText, ?_, rfl, ?_⟩
    · rw [unify_longText, List.nil_append]
    · exact longInteger_longText

end Configuration

end ParamLint

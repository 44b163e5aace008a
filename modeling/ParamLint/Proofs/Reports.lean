import ParamLint.CommandLine.Run
import ParamLint.Proofs.JsonRoundTrip

/-!
# Reports in JSON

A report in JSON is read back as the records of its diagnostics, in order, and these are the records
of no other diagnostics. It is written unless a line or a column has too many digits. Either way the
program ends with one exactly if there are diagnostics.
-/
namespace ParamLint

namespace Text

instance (t : Text) : Decidable t.IsJoined := inferInstanceAs (Decidable (List.IsChain _ _))

theorem isJoined_of_scalar {t : Text} (h : ∀ p ∈ t, ¬ p.isSurrogate) : t.IsJoined := by
  induction t with
  | nil => exact .nil
  | cons p t ih =>
    obtain ⟨hp, ht⟩ := List.forall_mem_cons.mp h
    refine (ih ht).cons fun q _ hhalves => ?_
    cases p with
    | surrogate d => exact hp rfl
    | scalar c =>
      have hc : c.toNat.isValidChar := c.valid
      unfold Nat.isValidChar at hc
      obtain ⟨hlow, hhigh⟩ := Utf16.isHigh_iff.mp hhalves.1
      simp only [CodePoint.toNat] at hlow hhigh
      omega

theorem isJoined_ofString (s : String) : (ofString s).IsJoined := by
  apply isJoined_of_scalar
  intro p hp
  obtain ⟨c, -, rfl⟩ := List.mem_map.mp hp
  exact Bool.false_ne_true

end Text

namespace Diagnostic

def texts (d : Diagnostic) : List Text := [d.path, d.name, d.params, d.paramsObject, d.message]

/-- Neither the line nor the column has too many digits. -/
def IsWritable (d : Diagnostic) : Prop :=
  (Integer.decimal? d.location.line).isSome ∧ (Integer.decimal? d.location.column).isSome

instance (d : Diagnostic) : Decidable d.IsWritable := inferInstanceAs (Decidable (_ ∧ _))

theorem isPlain_toJson {d : Diagnostic} (h : ∀ t ∈ d.texts, t.IsJoined) : d.toJson.IsPlain := by
  simp only [texts, List.forall_mem_cons, List.not_mem_nil, false_imp_iff, implies_true,
    and_true] at h
  obtain ⟨hpath, hname, hparams, hobject, hmessage⟩ := h
  have hkeys : (["path", "line", "column", "ruleId", "messageId", "data", "message"].map
      Text.ofString).Nodup := by decide +kernel
  have hdataKeys : (["name", "params", "paramsObj"].map Text.ofString).Nodup := by decide +kernel
  refine .object hkeys (by simp [Text.isJoined_ofString]) ?_
  simp only [List.forall_mem_cons, List.not_mem_nil, false_imp_iff, implies_true, and_true]
  refine ⟨.string hpath, .integer _, .integer _, .string (Text.isJoined_ofString _),
    .string (Text.isJoined_ofString _), ?_, .string hmessage⟩
  refine .object hdataKeys (by simp [data, Text.isJoined_ofString]) ?_
  simp only [data, List.map_cons, List.map_nil, List.forall_mem_cons, List.not_mem_nil,
    false_imp_iff, implies_true, and_true]
  exact ⟨.string hname, .string hparams, .string hobject⟩

theorem isWritable_toJson_iff {d : Diagnostic} : d.toJson.isWritable ↔ d.IsWritable := by
  simp [toJson, data, IsWritable, Json.isWritable, Json.areMembersWritable]

theorem toJson_injective : Function.Injective toJson := by
  intro d d' h
  obtain ⟨path, ⟨line, column⟩, name, params, paramsObject, message⟩ := d
  obtain ⟨path', ⟨line', column'⟩, name', params', paramsObject', message'⟩ := d'
  simp [toJson, data] at h
  simp [h]

end Diagnostic

namespace CommandLine

variable {args : Arguments} {r : Project.Report} {t : Tally}

theorem isClean_iff : t.isClean ↔ t.diagnostics = [] := List.isEmpty_iff

theorem isWritable_records_iff {ds : List Diagnostic} :
    (Json.array (ds.map Diagnostic.toJson)).isWritable ↔ ∀ d ∈ ds, d.IsWritable := by
  rw [Json.isWritable, Json.areItemsWritable_iff, List.forall_mem_map]
  exact forall₂_congr fun d _ => Diagnostic.isWritable_toJson_iff

theorem isPlain_records {ds : List Diagnostic} (h : ∀ d ∈ ds, ∀ s ∈ d.texts, s.IsJoined) :
    (Json.array (ds.map Diagnostic.toJson)).IsPlain :=
  .array (List.forall_mem_map.mpr fun d hd => Diagnostic.isPlain_toJson (h d hd))

theorem report_of_writable (hformat : args.format = .json) (ht : r.result = .ok t)
    (h : ∀ d ∈ t.diagnostics, d.IsWritable) :
    ∃ cs, Json.print? (.array (t.diagnostics.map Diagnostic.toJson)) = some cs ∧
      (report args r).output = Text.ofChars (cs ++ ['\n']) ∧
      (report args r).status = if t.diagnostics = [] then .clean else .findings := by
  have hprint : Json.print? (.array (t.diagnostics.map Diagnostic.toJson)) = _ :=
    if_pos (isWritable_records_iff.mpr h)
  refine ⟨_, hprint, ?_, ?_⟩
  · simp [report, ht, hformat, jsonReport, hprint, line, Text.ofChars, Text.ofString]
  · simp [report, ht, hformat, jsonReport, hprint, isClean_iff]

theorem report_of_not_writable (hformat : args.format = .json) (ht : r.result = .ok t)
    (h : ¬ ∀ d ∈ t.diagnostics, d.IsWritable) :
    (report args r).output = [] ∧ (report args r).status = .broken .longNumber := by
  have hprint : Json.print? (.array (t.diagnostics.map Diagnostic.toJson)) = none :=
    if_neg (mt isWritable_records_iff.mp h)
  simp [report, ht, hformat, jsonReport, hprint]

/-- A report in JSON is read back as the records of the diagnostics, which no other diagnostics
have, if all their lines and columns can be written; otherwise nothing is written. The program ends
with one exactly if there are diagnostics. -/
theorem json_report_reads_back (hformat : args.format = .json) (ht : r.result = .ok t)
    (hjoined : ∀ d ∈ t.diagnostics, ∀ s ∈ d.texts, s.IsJoined) :
    ((∀ d ∈ t.diagnostics, d.IsWritable) →
      ∃ cs, (report args r).output = Text.ofChars cs ∧
        Json.parse cs = .ok (.array (t.diagnostics.map Diagnostic.toJson)) ∧
        ∀ ds, Json.parse cs = .ok (.array (ds.map Diagnostic.toJson)) → ds = t.diagnostics) ∧
    ((∃ d ∈ t.diagnostics, ¬ d.IsWritable) →
      (report args r).output = [] ∧ (report args r).status = .broken .longNumber) ∧
    (report args r).status.code = if t.diagnostics = [] then 0 else 1 := by
  refine ⟨fun h => ?_, fun h => ?_, ?_⟩
  · obtain ⟨cs, hcs, houtput, -⟩ := report_of_writable hformat ht h
    have hblank : ∀ c ∈ ['\n'], Json.isBlank c := List.forall_mem_singleton.mpr (by decide)
    have hread := Json.parse_of_print? (isPlain_records hjoined) hcs hblank
    refine ⟨cs ++ ['\n'], houtput, hread, fun ds hds => ?_⟩
    rw [hread] at hds
    have hrecords := Json.array.inj (Except.ok.inj hds)
    exact (List.map_injective_iff.mpr Diagnostic.toJson_injective hrecords).symm
  · apply report_of_not_writable hformat ht
    push Not
    exact h
  · by_cases h : ∀ d ∈ t.diagnostics, d.IsWritable
    · obtain ⟨cs, -, -, hstatus⟩ := report_of_writable hformat ht h
      rw [hstatus]
      split <;> rfl
    · have hne : t.diagnostics ≠ [] := by
        intro hnil
        simp [hnil] at h
      rw [(report_of_not_writable hformat ht h).2, if_neg hne]
      rfl

/-- A finding whose texts hold a quote, a backslash, a control character, a character of two units
and one half of such a character. -/
def oddDiagnostic : Diagnostic where
  path := Text.ofString "a\"\\\x01.js"
  location := ⟨1, 2⟩
  name := Text.ofString "f😀"
  params := [.surrogate 0x3d, .scalar 'é']
  paramsObject := [.surrogate 0x600]
  message := Text.ofString "\n\x7f"

def oddReport : Project.Report := { result := .ok { diagnostics := [oddDiagnostic] } }

theorem json_report_reads_back_oddReport :
    ∃ cs, (report { format := .json } oddReport).output = Text.ofChars cs ∧
      Json.parse cs = .ok (.array [oddDiagnostic.toJson]) ∧
      (report { format := .json } oddReport).status.code = 1 := by
  have hjoined : ∀ d ∈ [oddDiagnostic], ∀ s ∈ d.texts, s.IsJoined := by decide +kernel
  have hwritable : ∀ d ∈ [oddDiagnostic], d.IsWritable := by decide +kernel
  have hformat : ({ format := .json } : Arguments).format = .json := rfl
  have hresult : oddReport.result = .ok { diagnostics := [oddDiagnostic] } := rfl
  obtain ⟨hwritten, -, hcode⟩ := json_report_reads_back hformat hresult hjoined
  obtain ⟨cs, houtput, hread, -⟩ := hwritten hwritable
  exact ⟨cs, houtput, hread, hcode⟩

end CommandLine

end ParamLint

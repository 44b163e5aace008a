import ParamLint.Proofs.KeyOverflow
import ParamLint.Proofs.Pointwise
import ParamLint.Run.Source
import ParamLint.Syntax.Parse

/-!
# What is reported

A function conforms if it has no parameters and these are ignored, if it has one and these are
ignored, or if all its parameters are allowed. Checking a source reports exactly the functions that
neither are exempt nor conform, once each and in document order, and only a key that overflows keeps
it from doing so.
-/
namespace ParamLint

namespace Site

/-- The parameters of a function are in order, or their number is ignored. -/
def Conforms (c : Configuration) (s : Site) : Prop :=
  s.params = [] ∧ c.noParams ∨ s.params.length = 1 ∧ c.singleParam ∨
    s.params ≠ [] ∧ ∀ p ∈ s.params, p.isAllowed

instance (c : Configuration) (s : Site) : Decidable (s.Conforms c) :=
  inferInstanceAs (Decidable (_ ∨ _ ∨ _))

/-- The place of the first offending parameter, of the function itself if there is none. -/
def anchor (s : Site) : Location := (s.offending.head?.map Param.location).getD s.location

def labels (s : Site) : List Text := s.offending.map Param.label

def diagnostic (path : Text) (s : Site) : Diagnostic :=
  let params := Text.join (Text.ofString ", ") s.labels
  let paramsObject :=
    if s.labels = [] then Text.ofString "\x7b\x7d"
    else Text.ofString "\x7b " ++ params ++ Text.ofString " \x7d"
  { path
    location := s.anchor
    name := s.displayName
    params
    paramsObject
    message :=
      Text.ofString "Functions must use object parameters only. Use " ++ s.displayName ++
        Text.ofString "(" ++ paramsObject ++ Text.ofString ") instead of " ++ s.displayName ++
        Text.ofString "(" ++ params ++ Text.ofString ")" }

theorem offending_eq_nil_iff (s : Site) : s.offending = [] ↔ ∀ p ∈ s.params, p.isAllowed := by
  simp [offending]

theorem judge_eq (s : Site) :
    verdict.judge s = if s.offending = [] then .compliant
      else .violation ⟨s.anchor, s.displayName, s.labels⟩ := by
  unfold verdict.judge
  cases h : s.offending with
  | nil => rfl
  | cons p rest => simp [anchor, labels, h]

theorem verdict_of_conforms {c : Configuration} {s : Site} (h : s.Conforms c) :
    s.verdict c = .compliant := by
  have hjudge : (∀ p ∈ s.params, p.isAllowed) → verdict.judge s = .compliant := by
    intro hallowed
    rw [judge_eq, if_pos ((offending_eq_nil_iff s).mpr hallowed)]
  unfold verdict
  rcases h with ⟨hparams, hno⟩ | ⟨hlength, hsingle⟩ | ⟨hparams, hallowed⟩
  · rw [hparams]
    exact if_pos hno
  · obtain ⟨p, hp⟩ := List.length_eq_one_iff.mp hlength
    rw [hp]
    exact if_pos hsingle
  · split
    · contradiction
    · split
      · rfl
      · exact hjudge hallowed
    · exact hjudge hallowed

theorem verdict_of_not_conforms {c : Configuration} {s : Site} (h : ¬ s.Conforms c) :
    s.verdict c = .violation ⟨s.anchor, s.displayName, s.labels⟩ := by
  obtain ⟨hno, hsingle, hallowed⟩ : ¬ (s.params = [] ∧ c.noParams) ∧
      ¬ (s.params.length = 1 ∧ c.singleParam) ∧
      ¬ (s.params ≠ [] ∧ ∀ p ∈ s.params, p.isAllowed) := by
    simpa only [Conforms, not_or] using h
  have hjudge : s.params ≠ [] →
      verdict.judge s = .violation ⟨s.anchor, s.displayName, s.labels⟩ := by
    intro hparams
    rw [judge_eq, if_neg fun hnone => hallowed ⟨hparams, (offending_eq_nil_iff s).mp hnone⟩]
  unfold verdict
  split
  · rename_i hparams
    have hnone : s.offending = [] := by simp [offending, hparams]
    rw [if_neg fun hc => hno ⟨hparams, hc⟩]
    simp [anchor, labels, hnone]
  · rename_i p hparams
    rw [if_neg fun hc => hsingle ⟨by rw [hparams]; rfl, hc⟩]
    exact hjudge (by simp [hparams])
  · rename_i hparams _
    exact hjudge hparams

end Site

/-- The one message there is has a value for each of its gaps. -/
theorem Message.render_useObjectParams (name params paramsObject : Text) :
    Message.render (Text.ofString Message.useObjectParams)
        (Diagnostic.data name params paramsObject) =
      .ok (Text.ofString "Functions must use object parameters only. Use " ++ name ++
        Text.ofString "(" ++ paramsObject ++ Text.ofString ") instead of " ++ name ++
        Text.ofString "(" ++ params ++ Text.ofString ")") := by
  have hname : (Diagnostic.data name params paramsObject).lookup (Text.ofString "name") =
      some name := by rfl
  have hparams : (Diagnostic.data name params paramsObject).lookup (Text.ofString "params") =
      some params := by rfl
  have hobject : (Diagnostic.data name params paramsObject).lookup (Text.ofString "paramsObj") =
      some paramsObject := by rfl
  simp [Message.render, Message.templates, Message.fill, hname, hparams, hobject, bind,
    Except.bind, pure, Except.pure, Except.map]

theorem Diagnostic.ofViolation_eq (path : Text) (s : Site) :
    Diagnostic.ofViolation path ⟨s.anchor, s.displayName, s.labels⟩ = s.diagnostic path := by
  simp only [Diagnostic.ofViolation, Message.render_useObjectParams, Site.diagnostic,
    Diagnostic.objectOf, List.isEmpty_iff]
  rfl

/-- What is reported about functions: those that are exempt and those that conform are dropped, and
every other one is reported once. -/
def Site.reported (c : Configuration) (path : Text) (sites : List Site) : List Diagnostic :=
  ((sites.filter fun s => !s.isExempt c).filter fun s => ¬ s.Conforms c).map (·.diagnostic path)

namespace Findings

variable (c : Configuration) (path : Text) (source : Source)

theorem diagnostics_eq (s : Site) :
    diagnostics c path s = if s.Conforms c then [] else [s.diagnostic path] := by
  unfold diagnostics
  by_cases h : s.Conforms c
  · rw [Site.verdict_of_conforms h, if_pos h]
  · rw [Site.verdict_of_not_conforms h, if_neg h]
    simp only [Diagnostic.ofViolation_eq]

theorem reported_cons (s : Site) (sites : List Site) :
    Site.reported c path (s :: sites) =
      (if s.isExempt c then [] else diagnostics c path s) ++ Site.reported c path sites := by
  rw [diagnostics_eq, Site.reported, Site.reported]
  by_cases hexempt : s.isExempt c
  · simp [hexempt]
  · by_cases hconforms : s.Conforms c <;> simp [hexempt, hconforms]

theorem result_ofOccurrences {os : List Occurrence} {sites : List Site}
    (h : List.Forall₂ (fun o s => o.site source = .ok s) os sites) :
    (ofOccurrences c path source os).result = .ok (Site.reported c path sites) := by
  induction h with
  | nil => rfl
  | @cons o s os sites hsite _ ih =>
    rw [reported_cons]
    simp only [ofOccurrences, hsite]
    by_cases hexempt : s.isExempt c
    · simp [hexempt, ih]
    · simp [hexempt, ih, Except.map]

theorem result_ofOccurrences_eq_ok_iff {os : List Occurrence} {ds : List Diagnostic} :
    (ofOccurrences c path source os).result = .ok ds ↔
      ∃ sites, List.Forall₂ (fun o s => o.site source = .ok s) os sites ∧
        ds = Site.reported c path sites := by
  constructor
  · intro h
    have hsites : ∃ sites, List.Forall₂ (fun o s => o.site source = .ok s) os sites := by
      induction os generalizing ds with
      | nil => exact ⟨[], .nil⟩
      | cons o os ih =>
        simp only [ofOccurrences] at h
        cases hs : o.site source with
        | error e => simp [hs] at h
        | ok s =>
          rw [hs] at h
          cases hrest : (ofOccurrences c path source os).result with
          | error e => by_cases hexempt : s.isExempt c <;> simp [hexempt, hrest, Except.map] at h
          | ok ds' =>
            obtain ⟨sites, hsites⟩ := ih hrest
            exact ⟨s :: sites, .cons hs hsites⟩
    obtain ⟨sites, hsites⟩ := hsites
    rw [result_ofOccurrences c path source hsites, Except.ok.injEq] at h
    exact ⟨sites, hsites, h.symm⟩
  · rintro ⟨sites, hsites, rfl⟩
    exact result_ofOccurrences c path source hsites

/-- A function whose site overflows ends the findings, whatever comes before and after it. -/
theorem result_ofOccurrences_overflow {p : Occurrence → Prop} {os : List Occurrence}
    (hsites : ∀ o ∈ os, OverflowsIff (p o) (o.site source)) (h : ∃ o ∈ os, p o) :
    (ofOccurrences c path source os).result = .error (.unreadable .overflow) := by
  induction os with
  | nil => simp at h
  | cons o os ih =>
    have ho := hsites o List.mem_cons_self
    by_cases hp : p o
    · simp [ofOccurrences, ho.fails hp]
    · obtain ⟨s, hs⟩ := ho.reads hp
      have hrest := ih (fun q hq => hsites q (List.mem_cons_of_mem o hq)) (by simpa [hp] using h)
      simp only [ofOccurrences, hs]
      by_cases hexempt : s.isExempt c
      · simp [hexempt, hrest]
      · simp [hexempt, hrest, Except.map]

variable {parse : Parser} {cs : List Char} {root : Node}

theorem overflowsIff_site_of_mem_functions (hroot : root.OnBoundaries cs) {o : Occurrence}
    (ho : o ∈ root.functions []) :
    OverflowsIff (o.KeyOverflows (.ofChars cs)) (o.site (.ofChars cs)) := by
  rw [← Node.occurrences_eq_functions] at ho
  exact Occurrence.overflowsIff_site (Node.onBoundaries_of_mem_occurrences hroot ho)

theorem result_ofTree (hroot : root.OnBoundaries cs)
    (h : ∀ o ∈ root.functions [], ¬ o.KeyOverflows (.ofChars cs)) :
    ∃ sites, List.Forall₂ (fun o s => o.site (.ofChars cs) = .ok s) (root.functions []) sites ∧
      (ofTree c path (.ofChars cs) root).result = .ok (Site.reported c path sites) := by
  obtain ⟨sites, hsites⟩ := exists_forall₂ fun o ho =>
    (overflowsIff_site_of_mem_functions hroot ho).reads (h o ho)
  refine ⟨sites, hsites, ?_⟩
  rw [ofTree, Node.occurrences_eq_functions]
  exact result_ofOccurrences c path (.ofChars cs) hsites

theorem result_ofTree_overflow (hroot : root.OnBoundaries cs)
    (h : ∃ o ∈ root.functions [], o.KeyOverflows (.ofChars cs)) :
    (ofTree c path (.ofChars cs) root).result = .error (.unreadable .overflow) := by
  rw [ofTree, Node.occurrences_eq_functions]
  exact result_ofOccurrences_overflow c path (.ofChars cs)
    (fun o ho => overflowsIff_site_of_mem_functions hroot ho) h

@[simp] theorem path_enter (path : Text) :
    (FileContext.enter c path).path = Path.normalize path := rfl

theorem ofSource_of_exempt {file : FileContext} (h : file.isExempt) (cs : List Char) :
    ofSource parse c file cs = ⟨[], .ok []⟩ := by
  rw [ofSource, if_pos h]

theorem ofSource_of_parse {file : FileContext} (h : ¬ file.isExempt)
    (hparse : parse (Path.dialect file.path) cs = some root) :
    ofSource parse c file cs = ofTree c file.path (.ofChars cs) root := by
  rw [ofSource, if_neg h, hparse]

end Findings

/-- Checking a source reports nothing on an exempt file. On any other it reports exactly the
functions of its tree that are neither exempt nor conform, each once and in recursive pre-order,
unless the key of a function overflows. -/
theorem Findings.reports_functions_in_preorder (parse : Parser) (hparse : parse.KeepsBoundaries)
    (c : Configuration) (path : Text) (cs : List Char) :
    ((FileContext.enter c path).isExempt →
      (Findings.ofSource parse c (FileContext.enter c path) cs).result = .ok []) ∧
    (¬ (FileContext.enter c path).isExempt →
      ∀ root, parse (Path.dialect (Path.normalize path)) cs = some root →
        root.OnBoundaries cs ∧
          Findings.ofSource parse c (FileContext.enter c path) cs =
            Findings.ofTree c (Path.normalize path) (.ofChars cs) root) ∧
    ∀ root : Node, root.OnBoundaries cs →
      ((∀ o ∈ root.functions [], ¬ o.KeyOverflows (.ofChars cs)) →
        ∃ sites, List.Forall₂ (fun o s => o.site (.ofChars cs) = .ok s) (root.functions []) sites ∧
          (Findings.ofTree c (Path.normalize path) (.ofChars cs) root).result =
            .ok (Site.reported c (Path.normalize path) sites)) ∧
      ((∃ o ∈ root.functions [], o.KeyOverflows (.ofChars cs)) →
        (Findings.ofTree c (Path.normalize path) (.ofChars cs) root).result =
          .error (.unreadable .overflow)) := by
  refine ⟨fun h => ?_, fun h root hroot => ?_, fun root hroot => ⟨?_, ?_⟩⟩
  · rw [ofSource_of_exempt c h]
  · exact ⟨hparse _ cs root hroot, ofSource_of_parse c h hroot⟩
  · exact result_ofTree c (Path.normalize path) hroot
  · exact result_ofTree_overflow c (Path.normalize path) hroot

namespace Findings

/-- A function that has another one in the default of a parameter. -/
def nestedSource : List Char := "function f(a, g = (x, y) => x) \x7b\x7d".toList

def overflowingSource : List Char := "(\x7b'\\u\x7bFFFFFFFF\x7d'(a, b) \x7b\x7d\x7d)".toList

def samplePath : Text := Text.ofString "./a.js"

theorem reports_sample_functions :
    (∃ sites, sites.length = 2 ∧
      (ofSource Syntax.parse {} (FileContext.enter {} samplePath) nestedSource).result =
        .ok (Site.reported {} (Text.ofString "a.js") sites)) ∧
    (ofSource Syntax.parse {} (FileContext.enter {} samplePath) overflowingSource).result =
      .error (.unreadable .overflow) := by
  have hexempt : ¬ (FileContext.enter {} samplePath).isExempt := by decide +kernel
  have hpath : Path.normalize samplePath = Text.ofString "a.js" := by decide +kernel
  have hdialect : Path.dialect (Text.ofString "a.js") = .javascript := by decide +kernel
  constructor
  · obtain ⟨root, hparse⟩ : ∃ root, Syntax.parse .javascript nestedSource = some root :=
      Option.isSome_iff_exists.mp (by decide +kernel)
    have hkeys : ∀ root ∈ Syntax.parse .javascript nestedSource, (root.functions []).length = 2 ∧
        ∀ o ∈ root.functions [], ¬ o.KeyOverflows (.ofChars nestedSource) := by decide +kernel
    obtain ⟨hlength, hreadable⟩ := hkeys root hparse
    obtain ⟨-, hparsed, htree⟩ :=
      reports_functions_in_preorder Syntax.parse Syntax.keepsBoundaries_parse {} samplePath
        nestedSource
    rw [hpath] at hparsed htree
    obtain ⟨hroot, hsource⟩ := hparsed hexempt root (hdialect ▸ hparse)
    obtain ⟨sites, hsites, hresult⟩ := (htree root hroot).1 hreadable
    exact ⟨sites, hsites.length_eq ▸ hlength, hsource ▸ hresult⟩
  · obtain ⟨root, hparse⟩ : ∃ root, Syntax.parse .javascript overflowingSource = some root :=
      Option.isSome_iff_exists.mp (by decide +kernel)
    have hkeys : ∀ root ∈ Syntax.parse .javascript overflowingSource,
        ∃ o ∈ root.functions [], o.KeyOverflows (.ofChars overflowingSource) := by decide +kernel
    obtain ⟨-, hparsed, htree⟩ :=
      reports_functions_in_preorder Syntax.parse Syntax.keepsBoundaries_parse {} samplePath
        overflowingSource
    rw [hpath] at hparsed htree
    obtain ⟨hroot, hsource⟩ := hparsed hexempt root (hdialect ▸ hparse)
    rw [hsource]
    exact (htree root hroot).2 (hkeys root hparse)

end Findings

end ParamLint

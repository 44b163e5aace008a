import ParamLint.Proofs.Accounting

/-!
# Ignoring more

A configuration that ignores at least as much reports no more: every finding that stays is the same
record in the same order, and a run that returned still returns.
-/
namespace ParamLint

/-- What the first configuration ignores, the second ignores too. -/
structure Configuration.Weaker (c c' : Configuration) : Prop where
  functionNames : c.functionNames ⊆ c'.functionNames
  methodNames : c.methodNames ⊆ c'.methodNames
  constructors : c.constructors → c'.constructors
  singleParam : c.singleParam → c'.singleParam
  noParams : c.noParams → c'.noParams
  testFiles : c.testFiles → c'.testFiles
  filePatterns : c.filePatterns ⊆ c'.filePatterns

theorem any_mem_mono {o : Option Text} {names names' : List Text} (h : names ⊆ names')
    (ho : o.any (· ∈ names)) : o.any (· ∈ names') := by
  cases o with
  | none => exact ho
  | some name =>
    simp only [Option.any_some, decide_eq_true_eq] at ho ⊢
    exact h ho

section Layers

variable {c c' : Configuration} (h : c.Weaker c')
include h

theorem Configuration.exemptsFile_mono {path : Text} (hp : c.exemptsFile path) :
    c'.exemptsFile path := by
  simp only [exemptsFile, Bool.or_eq_true, Bool.and_eq_true, List.any_eq_true] at hp ⊢
  rcases hp with ⟨htests, hpath⟩ | ⟨pattern, hpattern, hmatch⟩
  · exact .inl ⟨h.testFiles htests, hpath⟩
  · exact .inr ⟨pattern, h.filePatterns hpattern, hmatch⟩

theorem Exemption.namedBy_mono {kind : ParentKind} {s : Site}
    (hs : namedBy kind c.functionNames s) : namedBy kind c'.functionNames s := by
  simp only [namedBy, Bool.and_eq_true] at hs ⊢
  exact ⟨hs.1, any_mem_mono h.functionNames hs.2⟩

theorem Exemption.applies_mono {s : Site} {e : Exemption} (he : e.applies c s) :
    e.applies c' s := by
  cases e with
  | member =>
    simp only [applies, Bool.and_eq_true, Bool.or_eq_true] at he ⊢
    obtain ⟨hmember, hname | ⟨hkind, hconstructors⟩⟩ := he
    · exact ⟨hmember, .inl (any_mem_mono h.methodNames hname)⟩
    · exact ⟨hmember, .inr ⟨hkind, h.constructors hconstructors⟩⟩
  | ownName => exact any_mem_mono h.functionNames he
  | declarator => exact namedBy_mono h he
  | propertyValue => exact namedBy_mono h he
  | assignment => exact namedBy_mono h he

theorem Site.isExempt_mono {s : Site} (hs : s.isExempt c) : s.isExempt c' := by
  simp only [Site.isExempt, List.any_eq_true] at hs ⊢
  obtain ⟨e, he, happlies⟩ := hs
  exact ⟨e, he, Exemption.applies_mono h happlies⟩

theorem Site.conforms_mono {s : Site} (hs : s.Conforms c) : s.Conforms c' := by
  rcases hs with ⟨hparams, hno⟩ | ⟨hlength, hsingle⟩ | hallowed
  · exact .inl ⟨hparams, h.noParams hno⟩
  · exact .inr (.inl ⟨hlength, h.singleParam hsingle⟩)
  · exact .inr (.inr hallowed)

theorem Site.reported_sublist (path : Text) (sites : List Site) :
    (Site.reported c' path sites).Sublist (Site.reported c path sites) := by
  simp only [Site.reported, List.filter_filter]
  refine (List.monotone_filter_right sites fun s hs => ?_).map _
  simp only [Bool.and_eq_true, Bool.not_eq_true', decide_eq_true_eq] at hs ⊢
  refine ⟨fun hconforms => hs.1 (Site.conforms_mono h hconforms), ?_⟩
  by_contra hexempt
  rw [Bool.not_eq_false] at hexempt
  rw [Site.isExempt_mono h hexempt] at hs
  exact Bool.noConfusion hs.2

theorem Findings.result_ofTree_mono {path : Text} {source : Source} {root : Node}
    {ds : List Diagnostic} (hds : (Findings.ofTree c path source root).result = .ok ds) :
    ∃ ds', (Findings.ofTree c' path source root).result = .ok ds' ∧ ds'.Sublist ds := by
  rw [Findings.ofTree, Findings.result_ofOccurrences_eq_ok_iff] at hds
  obtain ⟨sites, hsites, rfl⟩ := hds
  exact ⟨_, Findings.result_ofOccurrences c' path source hsites,
    Site.reported_sublist h path sites⟩

theorem Project.isExempt_mono {root file : Place} (hfile : isExempt root c file) :
    isExempt root c' file :=
  Configuration.exemptsFile_mono h hfile

end Layers

/-! Runs -/

/-- An outcome for which at least as much is ignored. -/
inductive Outcome.Shrinks : Outcome → Outcome → Prop
  | exempt (o : Outcome) : Shrinks .exempt o
  | skipped (path : Text) : Shrinks (.skipped path) (.skipped path)
  | checked {ds' ds : List Diagnostic} (h : ds'.Sublist ds) : Shrinks (.checked ds') (.checked ds)

/-- A tally for which at least as much is ignored. -/
structure Tally.Shrinks (t' t : Tally) : Prop where
  diagnostics : t'.diagnostics.Sublist t.diagnostics
  skipped : t'.skipped.Sublist t.skipped
  checked : t'.checked ≤ t.checked
  exempt : t.exempt ≤ t'.exempt

namespace Tally.Shrinks

variable {t t' : Tally}

theorem refl (t : Tally) : Tally.Shrinks t t := ⟨.refl _, .refl _, Nat.le_refl _, Nat.le_refl _⟩

theorem add (h : Tally.Shrinks t' t) {o o' : Outcome} (ho : Outcome.Shrinks o' o) :
    Tally.Shrinks (t'.add o') (t.add o) := by
  cases ho with
  | exempt o =>
    cases o with
    | exempt => exact ⟨h.diagnostics, h.skipped, h.checked, Nat.succ_le_succ h.exempt⟩
    | skipped path =>
      exact ⟨h.diagnostics, h.skipped.trans (List.sublist_append_left _ _), h.checked,
        Nat.le_succ_of_le h.exempt⟩
    | checked ds =>
      exact ⟨h.diagnostics.trans (List.sublist_append_left _ _), h.skipped,
        Nat.le_succ_of_le h.checked, Nat.le_succ_of_le h.exempt⟩
  | skipped path => exact ⟨h.diagnostics, h.skipped.append (.refl _), h.checked, h.exempt⟩
  | checked hds =>
    exact ⟨h.diagnostics.append hds, h.skipped, Nat.succ_le_succ h.checked, h.exempt⟩

theorem antisymm (h : Tally.Shrinks t' t) (h' : Tally.Shrinks t t') : t' = t := by
  obtain ⟨diagnostics, checked, exempt, skipped⟩ := t
  obtain ⟨diagnostics', checked', exempt', skipped'⟩ := t'
  simp only [Tally.mk.injEq]
  exact ⟨h.diagnostics.antisymm h'.diagnostics, Nat.le_antisymm h.checked h'.checked,
    Nat.le_antisymm h'.exempt h.exempt, h.skipped.antisymm h'.skipped⟩

end Tally.Shrinks

namespace Project

variable {parse : Parser} {top : FileTree} {root : Place} {c c' : Configuration}

/-- One file: what it gave is given again, or less. -/
theorem checkFile_mono (h : c.Weaker c') {file : Place} {o : Outcome}
    (ho : (checkFile parse top root c file).2 = .ok o) :
    ∃ o', (checkFile parse top root c' file).2 = .ok o' ∧ Outcome.Shrinks o' o := by
  by_cases hexempt' : isExempt root c' file
  · exact ⟨.exempt, checkFile_of_exempt hexempt', .exempt o⟩
  · have hexempt : ¬ isExempt root c file := fun hc => hexempt' (isExempt_mono h hc)
    cases htree : tree? parse top root file with
    | none =>
      rw [checkFile_of_no_tree hexempt htree, Except.ok.injEq] at ho
      subst o
      exact ⟨_, checkFile_of_no_tree hexempt' htree, .skipped _⟩
    | some found =>
      obtain ⟨cs, tree⟩ := found
      rcases checkFile_of_tree hexempt htree with ⟨ds, hresult, hfile⟩ | ⟨e, -, hfile⟩
      · rw [hfile, Except.ok.injEq] at ho
        subst o
        obtain ⟨ds', hresult', hsub⟩ := Findings.result_ofTree_mono h hresult
        rcases checkFile_of_tree hexempt' htree with ⟨ds'', hresult'', hfile'⟩ | ⟨e, herror, -⟩
        · rw [hresult', Except.ok.injEq] at hresult''
          subst ds''
          exact ⟨_, hfile', .checked hsub⟩
        · rw [hresult'] at herror
          cases herror
      · rw [hfile] at ho
        cases ho

/-- All files: the tallies keep shrinking as the outcomes do. -/
theorem checkFiles_mono (h : c.Weaker c') {files : List Place} {outcomes : List Outcome}
    (hrun : List.Forall₂ (fun f o => (checkFile parse top root c f).2 = .ok o) files outcomes)
    {t t' : Tally} (ht : Tally.Shrinks t' t) :
    ∃ outcomes',
      List.Forall₂ (fun f o => (checkFile parse top root c' f).2 = .ok o) files outcomes' ∧
      Tally.Shrinks (outcomes'.foldl Tally.add t') (outcomes.foldl Tally.add t) := by
  induction hrun generalizing t t' with
  | nil => exact ⟨[], .nil, ht⟩
  | cons ho _ ih =>
    obtain ⟨o', ho', hshrinks⟩ := checkFile_mono h ho
    obtain ⟨outcomes', hrun', hfold⟩ := ih (ht.add hshrinks)
    exact ⟨o' :: outcomes', .cons ho' hrun', hfold⟩

theorem result_check_mono (h : c.Weaker c') {git : Git.Program} {here : Place}
    {paths : List Text} {since : Option Text} {t : Tally}
    (ht : (check parse top git here root c paths since).result = .ok t) :
    ∃ t', (check parse top git here root c' paths since).result = .ok t' ∧ Tally.Shrinks t' t := by
  obtain ⟨files, selected, hfiles, hselected, hrun⟩ := result_check_eq_ok_iff.mp ht
  obtain ⟨outcomes, houtcomes, rfl⟩ := checkFiles_eq_ok_iff.mp hrun
  obtain ⟨outcomes', houtcomes', hshrinks⟩ := checkFiles_mono h houtcomes (.refl {})
  refine ⟨_, result_check_eq_ok_iff.mpr ⟨files, selected, hfiles, hselected, ?_⟩, hshrinks⟩
  exact checkFiles_eq_ok_iff.mpr ⟨outcomes', houtcomes', rfl⟩

/-- Ignoring more only takes findings away: a run that returns still returns, and its tally differs
by what is ignored now. Two configurations that ignore the same give the same tally, so the order
and the repetition of what is ignored do not matter. -/
theorem check_antitone {git : Git.Program} {here : Place} {paths : List Text}
    {since : Option Text} {t : Tally} (h : c.Weaker c')
    (ht : (check parse top git here root c paths since).result = .ok t) :
    ∃ t', (check parse top git here root c' paths since).result = .ok t' ∧
      t'.diagnostics.Sublist t.diagnostics ∧ t'.skipped.Sublist t.skipped ∧
      t'.checked ≤ t.checked ∧ t.exempt ≤ t'.exempt ∧ (c'.Weaker c → t' = t) := by
  obtain ⟨t', ht', hshrinks⟩ := result_check_mono h ht
  refine ⟨t', ht', hshrinks.diagnostics, hshrinks.skipped, hshrinks.checked, hshrinks.exempt, ?_⟩
  intro h'
  obtain ⟨t'', ht'', hshrinks'⟩ := result_check_mono h' ht'
  rw [ht, Except.ok.injEq] at ht''
  subst t''
  exact hshrinks.antisymm hshrinks'

def sampleWider : Configuration where
  functionNames := [Text.ofString "g", Text.ofString "f", Text.ofString "g"]
  filePatterns := [Text.ofString "**/d.*"]

def sampleWiderTally : Tally where
  diagnostics := [sampleDiagnostic "h.js" "h" ["c", "d"]]
  checked := 2
  exempt := 2
  skipped := [Text.ofString "c.js"]

theorem check_antitone_sample :
    Configuration.Weaker {} sampleWider ∧ sampleRun.result = .ok sampleTally ∧
      (check Syntax.parse sampleTree silentGit [] [] sampleWider samplePaths none).result =
        .ok sampleWiderTally ∧
      sampleWiderTally.diagnostics.Sublist sampleTally.diagnostics ∧
      sampleWiderTally.skipped.Sublist sampleTally.skipped ∧
      sampleWiderTally.checked ≤ sampleTally.checked ∧
      sampleTally.exempt ≤ sampleWiderTally.exempt := by
  have hweaker : Configuration.Weaker {} sampleWider := by
    constructor <;> decide
  have hwider : (check Syntax.parse sampleTree silentGit [] [] sampleWider samplePaths
      none).result = .ok sampleWiderTally := by
    apply eq_ok_of_toOption
    decide +kernel
  obtain ⟨t, ht, hdiagnostics, hskipped, hchecked, hexempt, -⟩ :=
    check_antitone hweaker result_sampleRun
  obtain rfl : sampleWiderTally = t := Except.ok.inj (hwider.symm.trans ht)
  exact ⟨hweaker, result_sampleRun, hwider, hdiagnostics, hskipped, hchecked, hexempt⟩

end Project

end ParamLint

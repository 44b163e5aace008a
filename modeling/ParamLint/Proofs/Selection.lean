import ParamLint.Proofs.Accounting
import ParamLint.Proofs.Changes

/-!
# Which files a run looks at

A tally is put together from one block for each file, and the block of a file depends on that file
alone. Looking at fewer files leaves the blocks of the others as they are; naming the same places in
another order, repeatedly or by other paths only moves the blocks.
-/
namespace ParamLint.Project

variable {parse : Parser} {top : FileTree} {root here : Place} {c : Configuration}
  {git : Git.Program} {paths : List Text} {since : Option Text} {files : List Place} {t : Tally}

/-- What is found in one file alone. -/
def findings (parse : Parser) (top : FileTree) (root : Place) (c : Configuration) (file : Place) :
    List Diagnostic :=
  match (checkFile parse top root c file).2 with
  | .ok (.checked ds) => ds
  | _ => []

/-- The tally counts these files, lists those that are skipped, and holds what is found in each. -/
structure Covers (parse : Parser) (top : FileTree) (root : Place) (c : Configuration)
    (files : List Place) (t : Tally) : Prop where
  exempt : t.exempt = (files.filter (classOf parse top root c · = .exempt)).length
  checked : t.checked = (files.filter (classOf parse top root c · = .checked)).length
  skipped : t.skipped =
    (files.filter (classOf parse top root c · = .skipped)).map (displayPath root)
  diagnostics : t.diagnostics = files.flatMap (findings parse top root c)

theorem diagnostics_add {file : Place} {o : Outcome}
    (ho : (checkFile parse top root c file).2 = .ok o) (t : Tally) : (t.add o).diagnostics = t.diagnostics ++ findings parse top root c file := by
  rw [findings, ho]
  cases o with
  | exempt => simp [Tally.add]
  | skipped path => simp [Tally.add]
  | checked ds => simp [Tally.add]

theorem diagnostics_foldl {outcomes : List Outcome}
    (hrun : List.Forall₂ (fun f o => (checkFile parse top root c f).2 = .ok o) files outcomes)
    (t : Tally) :
    (outcomes.foldl Tally.add t).diagnostics =
      t.diagnostics ++ files.flatMap (findings parse top root c) := by
  induction hrun generalizing t with
  | nil => simp
  | cons ho _ ih =>
    rw [List.foldl_cons, ih, diagnostics_add ho, List.flatMap_cons, List.append_assoc]

theorem exists_checkFiles_iff :
    (∃ t, (checkFiles parse top root c {} files).2 = .ok t) ↔
      ∀ f ∈ files, ∃ o, (checkFile parse top root c f).2 = .ok o := by
  constructor
  · rintro ⟨t, ht⟩ f hf
    obtain ⟨outcomes, hrun, -⟩ := checkFiles_eq_ok_iff.mp ht
    exact exists_of_forall₂ hrun hf
  · intro h
    obtain ⟨outcomes, hrun⟩ := exists_forall₂ h
    exact ⟨_, checkFiles_eq_ok_iff.mpr ⟨outcomes, hrun, rfl⟩⟩

theorem exists_checkFiles_of_subset (h : (checkFiles parse top root c {} files).2 = .ok t)
    {others : List Place} (hothers : others ⊆ files) :
    ∃ t', (checkFiles parse top root c {} others).2 = .ok t' := by
  have hall := exists_checkFiles_iff.mp ⟨t, h⟩
  exact exists_checkFiles_iff.mpr fun f hf => hall f (hothers hf)

theorem covers_of_checkFiles (h : (checkFiles parse top root c {} files).2 = .ok t) :
    Covers parse top root c files t := by
  obtain ⟨outcomes, hrun, rfl⟩ := checkFiles_eq_ok_iff.mp h
  have haccounts : Accounts parse top root c files (outcomes.foldl Tally.add {}) :=
    Accounts.nil.foldl hrun
  exact ⟨haccounts.exempt, haccounts.checked, haccounts.skipped, diagnostics_foldl hrun {}⟩

/-! Files that are not looked at -/

theorem checkFile_congr {top' : FileTree} {file : Place} (h : top'.read file = top.read file) :
    checkFile parse top' root c file = checkFile parse top root c file := by
  have htext : readText top' file = readText top file := by
    rw [readText, readText, h]
  simp only [checkFile, htext]

theorem checkFiles_congr {top' : FileTree} (h : ∀ f ∈ files, top'.read f = top.read f)
    (t : Tally) : checkFiles parse top' root c t files = checkFiles parse top root c t files := by
  induction files generalizing t with
  | nil => rfl
  | cons f files ih =>
    have hf : checkFile parse top' root c f = checkFile parse top root c f :=
      checkFile_congr (h f List.mem_cons_self)
    have hfiles := ih fun g hg => h g (List.mem_cons_of_mem f hg)
    simp only [checkFiles, hf, hfiles]

/-- Only the bytes of the files that are selected make a difference. -/
theorem check_congr {top' : FileTree} (hfound : Discovery.discover top here paths = .ok files)
    (hfound' : Discovery.discover top' here paths = .ok files)
    (hread : ∀ selected, Selects git here root since files selected →
      ∀ f ∈ selected, top'.read f = top.read f) :
    check parse top' git here root c paths since = check parse top git here root c paths since := by
  simp only [check, hfound, hfound']
  rcases hselect : (select git here root since files).run.run {} with
    ⟨failure | selected, transcript⟩
  · rfl
  · have hselected : Selects git here root since files selected :=
      selects_iff.mpr (by rw [hselect])
    simp only [checkFiles_congr (hread selected hselected)]

/-- A run over the changed files alone gives, in the same order, what the full run gave for these
files. It looks at no file that was not discovered: what else there is may be anything. -/
theorem check_changed_restricts {revision : Text}
    (hfull : (check parse top git here root c paths none).result = .ok t)
    (hgit : Git.Succeeds git here root.toText revision) :
    ∃ files changed t', Discovery.discover top here paths = .ok files ∧
      ((Git.changedSince git here root.toText revision).run.run {}).1 = .ok changed ∧
      (check parse top git here root c paths (some revision)).result = .ok t' ∧
      Covers parse top root c files t ∧ Covers parse top root c (files.filter (· ∈ changed)) t' ∧
      (∀ f ∈ files, Discovery.isSupported (f.getLast?.getD []) ∧
        ∃ p ∈ Discovery.namedPlaces here paths, Discovery.Reaches p f) ∧
      ∀ top', Discovery.discover top' here paths = .ok files →
        (∀ f ∈ files, f ∈ changed → top'.read f = top.read f) →
        check parse top' git here root c paths (some revision) =
          check parse top git here root c paths (some revision) := by
  obtain ⟨files, selected, hfiles, rfl, hrun⟩ := result_check_eq_ok_iff.mp hfull
  have hchanged := hgit.changedSince_eq
  generalize Git.places _ _ ++ Git.places _ _ = changed at hchanged
  have hsub : selected.filter (· ∈ changed) ⊆ selected := List.filter_subset_self _
  obtain ⟨t', ht'⟩ := exists_checkFiles_of_subset hrun hsub
  refine ⟨selected, changed, t', hfiles, hchanged, ?_, covers_of_checkFiles hrun,
    covers_of_checkFiles ht', ?_, ?_⟩
  · exact result_check_eq_ok_iff.mpr ⟨_, _, hfiles, ⟨changed, hchanged, rfl⟩, ht'⟩
  · intro f hf
    obtain ⟨p, hp, hmem⟩ := (Discovery.mem_discover_iff hfiles).mp hf
    have hsupported := Discovery.supported_of_mem_filesAt hmem
    exact ⟨hsupported.1, p, hp, hsupported.2⟩
  · intro top' hfiles' hread
    apply check_congr hfiles hfiles'
    rintro _ ⟨changed', hchanged', rfl⟩ f hf
    rw [hchanged, Except.ok.injEq] at hchanged'
    subst changed'
    rw [List.mem_filter, decide_eq_true_eq] at hf
    exact hread f hf.1 hf.2

def repositoryTree : FileTree := .folder [(Text.ofString "repo", sampleTree)]

def repositoryPlaces (paths : List String) : List Place :=
  Discovery.namedPlaces Git.sampleTop (paths.map Text.ofString)

def repositoryFiles : List Place :=
  repositoryPlaces ["a.js", "b.test.js", "c.js", "d.ts", "h.js"]

/-- Two of the sample files, and two that are not discovered. -/
def changedPaths : List String := ["d.ts", "a.js", "e.txt", "node_modules/f.js"]

def repository : Git.Program := Git.sampleProgram (changedPaths.map Text.ofString) []

def repositoryRun (since : Option Text) : Report :=
  check Syntax.parse repositoryTree repository Git.sampleTop Git.sampleTop {} samplePaths since

def changedTally : Tally where
  diagnostics := [sampleDiagnostic "a.js" "f" ["a", "b"]]
  checked := 1
  skipped := [Text.ofString "d.ts"]

theorem check_changed_restricts_repository :
    Git.Succeeds repository Git.sampleTop Git.sampleTop.toText (Text.ofString "HEAD") ∧
      Discovery.discover repositoryTree Git.sampleTop samplePaths = .ok repositoryFiles ∧
      ((Git.changedSince repository Git.sampleTop Git.sampleTop.toText
        (Text.ofString "HEAD")).run.run {}).1 = .ok (repositoryPlaces changedPaths) ∧
      repositoryFiles.filter (· ∈ repositoryPlaces changedPaths) =
        repositoryPlaces ["a.js", "d.ts"] ∧
      (repositoryRun none).result = .ok sampleTally ∧
      (repositoryRun (some (Text.ofString "HEAD"))).result = .ok changedTally ∧
      Covers Syntax.parse repositoryTree Git.sampleTop {} repositoryFiles sampleTally ∧
      Covers Syntax.parse repositoryTree Git.sampleTop {} (repositoryPlaces ["a.js", "d.ts"])
        changedTally := by
  have hgit : Git.Succeeds repository Git.sampleTop Git.sampleTop.toText
      (Text.ofString "HEAD") := by
    constructor <;> decide +kernel
  have hfull : (repositoryRun none).result = .ok sampleTally := by
    apply eq_ok_of_toOption
    decide +kernel
  have hrun : (repositoryRun (some (Text.ofString "HEAD"))).result = .ok changedTally := by
    apply eq_ok_of_toOption
    decide +kernel
  have hdiscover : Discovery.discover repositoryTree Git.sampleTop samplePaths =
      .ok repositoryFiles := by
    apply eq_ok_of_toOption
    decide +kernel
  have hask : ((Git.changedSince repository Git.sampleTop Git.sampleTop.toText
      (Text.ofString "HEAD")).run.run {}).1 = .ok (repositoryPlaces changedPaths) := by
    apply eq_ok_of_toOption
    decide +kernel
  have hfilter : repositoryFiles.filter (· ∈ repositoryPlaces changedPaths) =
      repositoryPlaces ["a.js", "d.ts"] := by decide +kernel
  obtain ⟨files, changed, t', hfiles, hchanged, ht', hcovers, hrestricted, -⟩ :=
    check_changed_restricts hfull hgit
  obtain rfl : repositoryFiles = files := Except.ok.inj (hdiscover.symm.trans hfiles)
  obtain rfl : repositoryPlaces changedPaths = changed := Except.ok.inj (hask.symm.trans hchanged)
  obtain rfl : changedTally = t' := Except.ok.inj (hrun.symm.trans ht')
  rw [hfilter] at hrestricted
  exact ⟨hgit, hdiscover, hask, hfilter, hfull, hrun, hcovers, hrestricted⟩

/-! Other arguments for the same files -/

theorem Selects.exists_perm {selected files' : List Place}
    (h : Selects git here root since files selected) (hfiles : files'.Perm files) :
    ∃ selected', Selects git here root since files' selected' ∧ selected'.Perm selected := by
  cases since with
  | none =>
    obtain rfl : selected = files := h
    exact ⟨files', rfl, hfiles⟩
  | some revision =>
    obtain ⟨changed, hchanged, rfl⟩ := h
    exact ⟨_, ⟨changed, hchanged, rfl⟩, hfiles.filter _⟩

theorem Selects.nodup {selected : List Place} (h : Selects git here root since files selected)
    (hfiles : files.Nodup) : selected.Nodup := by
  cases since with
  | none => exact h ▸ hfiles
  | some revision =>
    obtain ⟨changed, -, rfl⟩ := h
    exact hfiles.filter _

theorem Covers.perm {files' : List Place} {t' : Tally} (h : Covers parse top root c files t)
    (h' : Covers parse top root c files' t') (hfiles : files'.Perm files) :
    t'.checked = t.checked ∧ t'.exempt = t.exempt ∧ t'.skipped.Perm t.skipped := by
  rw [h.checked, h'.checked, h.exempt, h'.exempt, h.skipped, h'.skipped]
  exact ⟨(hfiles.filter _).length_eq, (hfiles.filter _).length_eq, (hfiles.filter _).map _⟩

/-- Arguments that name the same places give the same run but for the order of the files: each file
is looked at once, and what is found in it stays together. -/
theorem check_of_same_places {paths' : List Text}
    (hnamable : ∀ path ∈ paths', Path.IsNamable path)
    (hsame : ∀ p, p ∈ Discovery.namedPlaces here paths ↔ p ∈ Discovery.namedPlaces here paths')
    (ht : (check parse top git here root c paths since).result = .ok t) :
    ∃ found found' files files' t',
      Discovery.discover top here paths = .ok found ∧ Selects git here root since found files ∧
      Discovery.discover top here paths' = .ok found' ∧ Selects git here root since found' files' ∧
      (check parse top git here root c paths' since).result = .ok t' ∧
      files.Nodup ∧ files'.Perm files ∧
      t'.checked = t.checked ∧ t'.exempt = t.exempt ∧ t'.skipped.Perm t.skipped ∧
      t.diagnostics = files.flatMap (findings parse top root c) ∧
      t'.diagnostics = files'.flatMap (findings parse top root c) := by
  obtain ⟨found, files, hfound, hfiles, hrun⟩ := result_check_eq_ok_iff.mp ht
  obtain ⟨found', hfound', hperm⟩ := Discovery.exists_perm_discover hnamable hsame hfound
  obtain ⟨files', hfiles', hperm'⟩ := hfiles.exists_perm hperm
  obtain ⟨t', hrun'⟩ := exists_checkFiles_of_subset hrun hperm'.subset
  have hcovers := covers_of_checkFiles hrun
  have hcovers' := covers_of_checkFiles hrun'
  obtain ⟨hchecked, hexempt, hskipped⟩ := hcovers.perm hcovers' hperm'
  have ht' := result_check_eq_ok_iff.mpr ⟨found', files', hfound', hfiles', hrun'⟩
  have hnodup := hfiles.nodup (Discovery.nodup_discover hfound)
  exact ⟨found, found', files, files', t', hfound, hfiles, hfound', hfiles', ht', hnodup, hperm',
    hchecked, hexempt, hskipped, hcovers.diagnostics, hcovers'.diagnostics⟩

def samplePathsAgain : List Text :=
  ["d.ts", "x/../c.js", "e.txt", "h.js", "a.js", "/b.test.js", "./a.js", "d.ts"].map Text.ofString

theorem check_of_same_places_sample :
    ∃ (files files' : List Place) (t' : Tally),
      (check Syntax.parse sampleTree silentGit [] [] {} samplePathsAgain none).result = .ok t' ∧
      files.Nodup ∧ files'.Perm files ∧ t'.checked = 2 ∧
      sampleTally.diagnostics = files.flatMap (findings Syntax.parse sampleTree [] {}) ∧
      t'.diagnostics = files'.flatMap (findings Syntax.parse sampleTree [] {}) := by
  have hnamable : ∀ path ∈ samplePathsAgain, Path.IsNamable path := by decide +kernel
  have hto : ∀ p ∈ Discovery.namedPlaces [] samplePaths,
      p ∈ Discovery.namedPlaces [] samplePathsAgain := by decide +kernel
  have hfrom : ∀ p ∈ Discovery.namedPlaces [] samplePathsAgain,
      p ∈ Discovery.namedPlaces [] samplePaths := by decide +kernel
  obtain ⟨-, -, files, files', t', -, -, -, -, ht', hnodup, hperm, hchecked, -, -, hall, hall'⟩ :=
    check_of_same_places hnamable (fun p => ⟨hto p, hfrom p⟩) result_sampleRun
  exact ⟨files, files', t', ht', hnodup, hperm, hchecked, hall, hall'⟩

end ParamLint.Project

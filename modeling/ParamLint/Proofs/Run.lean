import ParamLint.Proofs.Findings
import ParamLint.Run.Project

/-!
# One file after the other

A file that is looked at is exempt, or it has a tree and is checked, or it is skipped. Which of
these it is depends on its path and its own bytes only. A run over files succeeds exactly if every file
gives an outcome, and adds the outcomes up in order.
-/
namespace ParamLint

namespace Findings

/-- A tree is never unparsable: it fails only for a function that has no site. -/
theorem result_ofTree_ne_unparsable (c : Configuration) (path : Text) (source : Source)
    (root : Node) (p : Text) : (ofTree c path source root).result ≠ .error (.unparsable p) := by
  unfold ofTree
  induction root.occurrences with
  | nil => simp [ofOccurrences]
  | cons o os ih =>
    simp only [ofOccurrences]
    cases o.site source with
    | error e => simp
    | ok s =>
      by_cases hexempt : s.isExempt c
      · simpa [hexempt] using ih
      · cases hresult : (ofOccurrences c path source os).result with
        | error e => simpa [hexempt, hresult, Except.map] using ih
        | ok ds => simp [hexempt, Except.map]

end Findings

namespace Project

variable (parse : Parser) (top : FileTree) (root : Place) (c : Configuration) (file : Place)

/-- The file is not looked at. -/
def isExempt : Bool := (FileContext.enter c (displayPath root file)).isExempt

/-- The text of a file and its tree, if it is UTF-8 and has no syntax errors. -/
def tree? : Option (List Char × Node) :=
  match readText top file with
  | .error _ => none
  | .ok cs =>
    (parse (Path.dialect (Path.normalize (displayPath root file))) cs).map (cs, ·)

variable {parse top root c file}

theorem tree?_eq_some {cs : List Char} {tree : Node}
    (h : tree? parse top root file = some (cs, tree)) :
    readText top file = .ok cs ∧
      parse (Path.dialect (Path.normalize (displayPath root file))) cs = some tree := by
  unfold tree? at h
  cases hread : readText top file with
  | error reason => simp [hread] at h
  | ok cs' =>
    rw [hread] at h
    obtain ⟨tree', hparse, hpair⟩ := Option.map_eq_some_iff.mp h
    rw [Prod.mk.injEq] at hpair
    obtain ⟨rfl, rfl⟩ := hpair
    exact ⟨rfl, hparse⟩

theorem checkFile_of_exempt (h : isExempt root c file) :
    (checkFile parse top root c file).2 = .ok .exempt := by
  rw [isExempt] at h
  simp [checkFile, h]

theorem checkFile_of_no_tree (h : ¬ isExempt root c file)
    (htree : tree? parse top root file = none) :
    (checkFile parse top root c file).2 = .ok (.skipped (displayPath root file)) := by
  rw [isExempt] at h
  unfold tree? at htree
  simp only [checkFile, if_neg h]
  cases hread : readText top file with
  | error reason => rfl
  | ok cs =>
    rw [hread] at htree
    have hparse : parse (Path.dialect (Path.normalize (displayPath root file))) cs = none := by
      simpa using htree
    simp [Findings.ofSource, h, hparse]

theorem checkFile_of_tree (h : ¬ isExempt root c file) {cs : List Char} {tree : Node}
    (htree : tree? parse top root file = some (cs, tree)) :
    (∃ ds, (Findings.ofTree c (Path.normalize (displayPath root file)) (.ofChars cs) tree).result =
        .ok ds ∧ (checkFile parse top root c file).2 = .ok (.checked ds)) ∨
      ∃ e, (Findings.ofTree c (Path.normalize (displayPath root file)) (.ofChars cs) tree).result =
        .error (.unreadable e) ∧ (checkFile parse top root c file).2 = .error e := by
  rw [isExempt] at h
  obtain ⟨hread, hparse⟩ := tree?_eq_some htree
  have hfound := Findings.ofSource_of_parse c h hparse
  rw [Findings.path_enter] at hfound
  simp only [checkFile, if_neg h, hread, hfound]
  cases hresult : (Findings.ofTree c (Path.normalize (displayPath root file)) (.ofChars cs)
      tree).result with
  | ok ds => exact .inl ⟨ds, rfl, rfl⟩
  | error e =>
    cases e with
    | unparsable p => exact absurd hresult (Findings.result_ofTree_ne_unparsable c _ _ tree p)
    | unreadable e => exact .inr ⟨e, rfl, rfl⟩

/-! Runs -/

/-- A run succeeds exactly if every file gives an outcome, and adds them up in order. -/
theorem checkFiles_eq_ok_iff {t t' : Tally} {files : List Place} :
    (checkFiles parse top root c t files).2 = .ok t' ↔
      ∃ outcomes,
        List.Forall₂ (fun f o => (checkFile parse top root c f).2 = .ok o) files outcomes ∧
        t' = outcomes.foldl Tally.add t := by
  induction files generalizing t with
  | nil => simp [checkFiles, eq_comm]
  | cons f files ih =>
    simp only [checkFiles]
    rcases hfile : checkFile parse top root c f with ⟨journal, e | o⟩
    · simp [List.forall₂_cons_left_iff, hfile]
    · simp only [ih]
      constructor
      · rintro ⟨outcomes, hmatch, rfl⟩
        exact ⟨o :: outcomes, .cons (by rw [hfile]) hmatch, rfl⟩
      · rintro ⟨outcomes, hmatch, rfl⟩
        obtain ⟨o', outcomes', ho', hmatch', rfl⟩ := List.forall₂_cons_left_iff.mp hmatch
        rw [hfile, Except.ok.injEq] at ho'
        subst o'
        exact ⟨outcomes', hmatch', rfl⟩

/-- The files of a run among those discovered: all of them, or those that changed. -/
def Selects (git : Git.Program) (here root : Place) (since : Option Text)
    (files selected : List Place) : Prop :=
  match since with
  | none => selected = files
  | some revision => ∃ changed,
      ((Git.changedSince git here root.toText revision).run.run {}).1 = .ok changed ∧
        selected = files.filter (· ∈ changed)

theorem Selects.subset {git : Git.Program} {here : Place} {since : Option Text}
    {files selected : List Place} (h : Selects git here root since files selected) :
    selected ⊆ files := by
  cases since with
  | none => exact h ▸ List.Subset.refl files
  | some revision =>
    obtain ⟨changed, -, rfl⟩ := h
    exact fun file hfile => (List.mem_filter.mp hfile).1

theorem fst_select_run (git : Git.Program) (here root : Place) (revision : Text)
    (files : List Place) :
    ((select git here root (some revision) files).run.run {}).1 =
      ((Git.changedSince git here root.toText revision).run.run {}).1.map
        fun changed => files.filter (· ∈ changed) := by
  simp only [select, ExceptT.run_bind, StateT.run_bind]
  rcases (Git.changedSince git here root.toText revision).run.run {} with
    ⟨failure | changed, transcript⟩
  · rfl
  · rfl

theorem selects_iff {git : Git.Program} {here : Place} {since : Option Text}
    {files selected : List Place} :
    Selects git here root since files selected ↔
      ((select git here root since files).run.run {}).1 = .ok selected := by
  cases since with
  | none => exact ⟨fun h => by rw [h]; rfl, fun h => (Except.ok.inj h).symm⟩
  | some revision =>
    rw [fst_select_run]
    simp only [Selects]
    cases ((Git.changedSince git here root.toText revision).run.run {}).1 with
    | error failure => simp [Except.map]
    | ok changed => simp [Except.map, eq_comm]

/-- A program that has nothing to say, for runs that do not ask it. -/
def silentGit : Git.Program := fun _ => ⟨0, [], []⟩

theorem result_check_eq_ok_iff {git : Git.Program} {here : Place} {paths : List Text}
    {since : Option Text} {t : Tally} :
    (check parse top git here root c paths since).result = .ok t ↔
      ∃ files selected, Discovery.discover top here paths = .ok files ∧
        Selects git here root since files selected ∧
        (checkFiles parse top root c {} selected).2 = .ok t := by
  simp only [check, selects_iff]
  cases Discovery.discover top here paths with
  | error place => simp
  | ok files =>
    rcases hselect : (select git here root since files).run.run {} with
      ⟨failure | selected, transcript⟩
    · simp [hselect]
    · cases hfiles : (checkFiles parse top root c {} selected).2 with
      | error e => simp [hselect, hfiles, Except.mapError]
      | ok t' => simp [hselect, hfiles, Except.mapError]

end Project

end ParamLint

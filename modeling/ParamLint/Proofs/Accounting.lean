import ParamLint.Proofs.Discovery
import ParamLint.Proofs.Run

/-!
# Accounting

Every file of a run is in one of three classes, by its path and its own bytes. The tally counts the
classes, lists the skipped files in order, and holds what is found in each checked file alone.
-/
namespace ParamLint

inductive FileClass
  | exempt
  | skipped
  | checked
deriving DecidableEq

namespace Project

variable (parse : Parser) (top : FileTree) (root : Place) (c : Configuration) (file : Place)

def classOf : FileClass :=
  if isExempt root c file then .exempt
  else if (tree? parse top root file).isSome then .checked
  else .skipped

/-- What checking the text of one file gives, whatever other files there are. -/
def FindsAlone (diagnostics : List Diagnostic) : Prop :=
  ∃ cs, readText top file = .ok cs ∧
    (Findings.ofSource parse c (FileContext.enter c (displayPath root file)) cs).result =
      .ok diagnostics

variable {parse top root c file}

/-- The tree of a file is missing if its bytes are not UTF-8 or have syntax errors. -/
theorem tree?_eq_none_iff :
    tree? parse top root file = none ↔ ∀ bytes, top.read file = .ok bytes →
      (∃ fault, Utf8.decode bytes = .error fault) ∨
        ∃ cs, Utf8.decode bytes = .ok cs ∧
          parse (Path.dialect (Path.normalize (displayPath root file))) (Lines.unify cs) =
            none := by
  simp only [tree?, readText]
  cases top.read file with
  | error e => simp
  | ok bytes =>
    cases hdecode : Utf8.decode bytes with
    | error fault => simp [hdecode]
    | ok cs => simp [hdecode]

theorem classOf_eq_skipped_iff :
    classOf parse top root c file = .skipped ↔
      ¬ isExempt root c file ∧ tree? parse top root file = none := by
  unfold classOf
  by_cases hexempt : isExempt root c file
  · simp [hexempt]
  · cases tree? parse top root file <;> simp [hexempt]

theorem outcome_cases {o : Outcome} (h : (checkFile parse top root c file).2 = .ok o) :
    (classOf parse top root c file = .exempt ∧ o = .exempt) ∨
      (classOf parse top root c file = .skipped ∧ o = .skipped (displayPath root file)) ∨
      (classOf parse top root c file = .checked ∧
        ∃ ds, FindsAlone parse top root c file ds ∧ o = .checked ds) := by
  by_cases hexempt : isExempt root c file
  · rw [checkFile_of_exempt hexempt, Except.ok.injEq] at h
    exact .inl ⟨by simp [classOf, hexempt], h.symm⟩
  · cases htree : tree? parse top root file with
    | none =>
      rw [checkFile_of_no_tree hexempt htree, Except.ok.injEq] at h
      exact .inr (.inl ⟨by simp [classOf, hexempt, htree], h.symm⟩)
    | some found =>
      obtain ⟨cs, tree⟩ := found
      obtain ⟨hread, hparse⟩ := tree?_eq_some htree
      rcases checkFile_of_tree hexempt htree with ⟨ds, hresult, hfile⟩ | ⟨e, -, hfile⟩
      · rw [hfile, Except.ok.injEq] at h
        refine .inr (.inr ⟨by simp [classOf, hexempt, htree], ds, ⟨cs, hread, ?_⟩, h.symm⟩)
        rw [Findings.ofSource_of_parse c hexempt hparse]
        exact hresult
      · rw [hfile] at h
        cases h

structure Accounts (parse : Parser) (top : FileTree) (root : Place) (c : Configuration)
    (done : List Place) (t : Tally) : Prop where
  exempt : t.exempt = (done.filter (classOf parse top root c · = .exempt)).length
  skipped : t.skipped = (done.filter (classOf parse top root c · = .skipped)).map (displayPath root)
  checked : t.checked = (done.filter (classOf parse top root c · = .checked)).length
  diagnostics : ∃ answers, List.Forall₂ (FindsAlone parse top root c)
      (done.filter (classOf parse top root c · = .checked)) answers ∧
    t.diagnostics = answers.flatten

namespace Accounts

variable {done : List Place} {t : Tally}

theorem nil : Accounts parse top root c [] {} := ⟨rfl, rfl, rfl, [], .nil, rfl⟩

/-- One more file goes into its class and changes nothing about the others. -/
theorem add (h : Accounts parse top root c done t) {f : Place} {o : Outcome}
    (ho : (checkFile parse top root c f).2 = .ok o) :
    Accounts parse top root c (done ++ [f]) (t.add o) := by
  obtain ⟨answers, hanswers, hdiagnostics⟩ := h.diagnostics
  rcases outcome_cases ho with ⟨hclass, rfl⟩ | ⟨hclass, rfl⟩ | ⟨hclass, ds, hds, rfl⟩
  · constructor
    · simp [Tally.add, hclass, h.exempt]
    · simp [Tally.add, hclass, h.skipped]
    · simp [Tally.add, hclass, h.checked]
    · exact ⟨answers, by simpa [hclass] using hanswers, hdiagnostics⟩
  · constructor
    · simp [Tally.add, hclass, h.exempt]
    · simp [Tally.add, hclass, h.skipped]
    · simp [Tally.add, hclass, h.checked]
    · exact ⟨answers, by simpa [hclass] using hanswers, hdiagnostics⟩
  · constructor
    · simp [Tally.add, hclass, h.exempt]
    · simp [Tally.add, hclass, h.skipped]
    · simp [Tally.add, hclass, h.checked]
    · refine ⟨answers ++ [ds], ?_, by simp [Tally.add, hdiagnostics]⟩
      have hlast : List.Forall₂ (FindsAlone parse top root c) [f] [ds] := .cons hds .nil
      simpa [hclass] using List.rel_append hanswers hlast

theorem foldl (h : Accounts parse top root c done t) {files : List Place} {outcomes : List Outcome}
    (hrun : List.Forall₂ (fun f o => (checkFile parse top root c f).2 = .ok o) files outcomes) :
    Accounts parse top root c (done ++ files) (outcomes.foldl Tally.add t) := by
  induction hrun generalizing done t with
  | nil => simpa using h
  | cons ho _ ih => simpa using ih (h.add ho)

end Accounts

theorem length_classes (files : List Place) :
    (files.filter (classOf parse top root c · = .exempt)).length +
        (files.filter (classOf parse top root c · = .skipped)).length +
        (files.filter (classOf parse top root c · = .checked)).length = files.length := by
  induction files with
  | nil => rfl
  | cons f files ih =>
    cases hclass : classOf parse top root c f <;> simp [hclass] <;> omega

/-- Every selected file of a run that returns is exempt, skipped or checked. The tally has the sizes
of these classes, the skipped files in the order of discovery, and the findings of the checked files
one after the other, each as if the file were alone. -/
theorem check_accounts_for_every_file {git : Git.Program} {here : Place} {paths : List Text}
    {since : Option Text} {t : Tally}
    (h : (check parse top git here root c paths since).result = .ok t) :
    ∃ files selected, Discovery.discover top here paths = .ok files ∧
      Selects git here root since files selected ∧
      (top.HasDistinctNames → ∀ f ∈ selected, ∃ bytes, top.read f = .ok bytes) ∧
      (∀ f ∈ selected, classOf parse top root c f = .skipped ↔ ¬ isExempt root c f ∧
        ∀ bytes, top.read f = .ok bytes →
          (∃ fault, Utf8.decode bytes = .error fault) ∨
            ∃ cs, Utf8.decode bytes = .ok cs ∧
              parse (Path.dialect (Path.normalize (displayPath root f)))
                (Lines.unify cs) = none) ∧
      t.exempt = (selected.filter (classOf parse top root c · = .exempt)).length ∧
      t.skipped = (selected.filter (classOf parse top root c · = .skipped)).map (displayPath root) ∧
      t.checked = (selected.filter (classOf parse top root c · = .checked)).length ∧
      t.exempt + t.skipped.length + t.checked = selected.length ∧
      ∃ answers, List.Forall₂ (FindsAlone parse top root c)
          (selected.filter (classOf parse top root c · = .checked)) answers ∧
        t.diagnostics = answers.flatten := by
  obtain ⟨files, selected, hfiles, hselected, hrun⟩ := result_check_eq_ok_iff.mp h
  obtain ⟨outcomes, houtcomes, rfl⟩ := checkFiles_eq_ok_iff.mp hrun
  have haccounts : Accounts parse top root c selected (outcomes.foldl Tally.add {}) :=
    Accounts.nil.foldl houtcomes
  have hlength := @length_classes parse top root c selected
  refine ⟨files, selected, hfiles, hselected, ?_, ?_, haccounts.exempt, haccounts.skipped,
    haccounts.checked, ?_, haccounts.diagnostics⟩
  · intro htop f hf
    exact Discovery.exists_read_of_mem_discover htop hfiles (hselected.subset hf)
  · intro f _
    rw [classOf_eq_skipped_iff, tree?_eq_none_iff]
  · rw [haccounts.exempt, haccounts.skipped, haccounts.checked, List.length_map]
    exact hlength

/-- Two functions to report, a test file, bytes that are no text, a syntax error, and a file that is
not looked for. -/
def sampleTree : FileTree :=
  .folder
    [(Text.ofString "a.js", .file (Utf8.encode "function f(a, b) \x7b\x7d".toList)),
     (Text.ofString "b.test.js", .file (Utf8.encode "function g(a, b) \x7b\x7d".toList)),
     (Text.ofString "c.js", .file [0x66, 0xff]),
     (Text.ofString "d.ts", .file (Utf8.encode "function (".toList)),
     (Text.ofString "e.txt", .file []),
     (Text.ofString "h.js", .file (Utf8.encode "function h(c, d) \x7b\x7d".toList))]

def samplePaths : List Text :=
  ["a.js", "b.test.js", "c.js", "./c.js", "d.ts", "e.txt", "h.js"].map Text.ofString

def sampleDiagnostic (path name : String) (params : List String) : Diagnostic :=
  Diagnostic.ofViolation (Text.ofString path)
    ⟨⟨1, 12⟩, Text.ofString name, params.map Text.ofString⟩

def sampleTally : Tally where
  diagnostics := [sampleDiagnostic "a.js" "f" ["a", "b"], sampleDiagnostic "h.js" "h" ["c", "d"]]
  checked := 2
  exempt := 1
  skipped := [Text.ofString "c.js", Text.ofString "d.ts"]

def sampleRun : Report := check Syntax.parse sampleTree silentGit [] [] {} samplePaths none

theorem result_sampleRun : sampleRun.result = .ok sampleTally := by
  apply eq_ok_of_toOption
  decide +kernel

theorem check_accounts_for_sample :
    sampleRun.result = .ok sampleTally ∧
      ∃ files selected, Discovery.discover sampleTree [] samplePaths = .ok files ∧
        Selects silentGit [] [] none files selected ∧ selected.length = 5 := by
  refine ⟨result_sampleRun, ?_⟩
  obtain ⟨files, selected, hfiles, hselected, -, -, -, -, -, hlength, -⟩ :=
    check_accounts_for_every_file result_sampleRun
  exact ⟨files, selected, hfiles, hselected, hlength.symm⟩

end Project

end ParamLint

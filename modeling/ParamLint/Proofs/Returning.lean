import ParamLint.Proofs.Discovery
import ParamLint.Proofs.Run

/-!
# Runs that return

Paths that exist are all discovered, unless the file system refuses a path that is too long, and a
file that is no text or has syntax errors does not end a run. What ends one is a function, in a file
that is looked at, whose key overflows.
-/
namespace ParamLint.Project

/-- The file is looked at, and the key of a function in it overflows. -/
def FileOverflows (parse : Parser) (top : FileTree) (root : Place) (c : Configuration)
    (file : Place) : Prop :=
  ¬ isExempt root c file ∧ ∃ found, tree? parse top root file = some found ∧
    ∃ o ∈ found.2.functions [], o.KeyOverflows (.ofChars found.1)

instance (parse : Parser) (top : FileTree) (root : Place) (c : Configuration) (file : Place) :
    Decidable (FileOverflows parse top root c file) :=
  inferInstanceAs (Decidable (¬ isExempt root c file ∧ ∃ found ∈ tree? parse top root file,
    ∃ o ∈ found.2.functions [], o.KeyOverflows (.ofChars found.1)))

variable {parse : Parser} {top : FileTree} {root here : Place} {c : Configuration}

section Files

variable (hparse : parse.KeepsBoundaries)
include hparse

theorem overflowsIff_checkFile_of_tree {file : Place} (hexempt : ¬ isExempt root c file)
    {cs : List Char} {tree : Node} (htree : tree? parse top root file = some (cs, tree)) :
    OverflowsIff (∃ o ∈ tree.functions [], o.KeyOverflows (.ofChars cs))
      (checkFile parse top root c file).2 := by
  have hroot := hparse _ cs tree (tree?_eq_some htree).2
  constructor
  · intro h
    have hresult := Findings.result_ofTree_overflow c (Path.normalize (displayPath root file))
      hroot h
    rcases checkFile_of_tree hexempt htree with ⟨ds, hds, -⟩ | ⟨e, he, hfile⟩
    · rw [hresult] at hds
      cases hds
    · rw [hresult, Except.error.injEq, CheckError.unreadable.injEq] at he
      rw [hfile, he]
  · intro h
    obtain ⟨sites, -, hresult⟩ := Findings.result_ofTree c
      (Path.normalize (displayPath root file)) hroot (by simpa using h)
    rcases checkFile_of_tree hexempt htree with ⟨ds, -, hfile⟩ | ⟨e, he, -⟩
    · exact ⟨_, hfile⟩
    · rw [hresult] at he
      cases he

theorem overflowsIff_checkFile (file : Place) :
    OverflowsIff (FileOverflows parse top root c file) (checkFile parse top root c file).2 := by
  by_cases hexempt : isExempt root c file
  · exact .of_ok ⟨_, checkFile_of_exempt hexempt⟩ fun h => h.1 hexempt
  · cases htree : tree? parse top root file with
    | none =>
      exact .of_ok ⟨_, checkFile_of_no_tree hexempt htree⟩ (by simp [FileOverflows, htree])
    | some found =>
      have hfile := overflowsIff_checkFile_of_tree hparse hexempt htree
      exact hfile.congr (by simp [FileOverflows, hexempt, htree])

/-- A run over files overflows exactly if one of them does, whatever was tallied before. -/
theorem overflowsIff_checkFiles (files : List Place) (t : Tally) :
    OverflowsIff (∃ f ∈ files, FileOverflows parse top root c f)
      (checkFiles parse top root c t files).2 := by
  induction files generalizing t with
  | nil => exact .of_ok ⟨t, rfl⟩ (by simp)
  | cons f files ih =>
    have hf : OverflowsIff (FileOverflows parse top root c f) (checkFile parse top root c f).2 :=
      overflowsIff_checkFile hparse f
    simp only [checkFiles]
    by_cases hover : FileOverflows parse top root c f
    · have herror := hf.fails hover
      rcases hfile : checkFile parse top root c f with ⟨journal, e | o⟩
      · rw [hfile] at herror
        cases herror
        exact ⟨fun _ => rfl, fun hno => absurd ⟨f, List.mem_cons_self, hover⟩ hno⟩
      · rw [hfile] at herror
        cases herror
    · obtain ⟨o, ho⟩ := hf.reads hover
      rcases hfile : checkFile parse top root c f with ⟨journal, e | o'⟩
      · rw [hfile] at ho
        cases ho
      · exact (ih (t.add o')).congr (by simp [hover])

end Files

theorem result_check_of_discover {git : Git.Program} {paths : List Text} {files : List Place}
    (hfiles : Discovery.discover top here paths = .ok files) :
    (check parse top git here root c paths none).result =
      (checkFiles parse top root c {} files).2.mapError .unreadable := by
  simp only [check, hfiles]
  rfl

/-- A run over paths that exist ends with a refusal if the file system refuses something that it is
asked for to discover the files. Otherwise it returns a tally, whatever the bytes of the files are,
unless a function in a file that is looked at has a key that overflows. Every key has a name or
none, unless it is a string with an escape that is too large. -/
theorem check_returns_unless_overflow (hparse : parse.KeepsBoundaries) {git : Git.Program}
    {paths : List Text}
    (hpaths : ∀ path ∈ paths, Discovery.IsPresent top here path) :
    ((∃ path ∈ paths, ∃ q ∈ Discovery.askedAt top ((Path.ofText path).resolve here),
        q.isTooLong) →
      ∃ q, (check parse top git here root c paths none).result =
        .error (.discovery (.tooLong q))) ∧
    ((∀ path ∈ paths, ∀ q ∈ Discovery.askedAt top ((Path.ofText path).resolve here),
        ¬ q.isTooLong) →
      ∃ files, Discovery.discover top here paths = .ok files ∧
        ((∀ f ∈ files, ¬ FileOverflows parse top root c f) →
          ∃ t, (check parse top git here root c paths none).result = .ok t) ∧
        ((∃ f ∈ files, FileOverflows parse top root c f) →
          (check parse top git here root c paths none).result =
            .error (.unreadable .overflow))) ∧
    ∀ (cs : List Char) (key : Node), key.OnBoundaries cs →
      (¬ Key.Overflows (.ofChars cs) key → ∃ name, Key.name (.ofChars cs) key = .ok name) ∧
      (Key.Overflows (.ofChars cs) key → Key.name (.ofChars cs) key = .error .overflow) := by
  refine ⟨fun hlong => ?_, fun hshort => ?_, fun cs key hkey => ?_⟩
  · obtain ⟨q, hq⟩ := Discovery.exists_discover_eq_tooLong hpaths hlong
    exact ⟨q, by simp only [check, hq]⟩
  · obtain ⟨files, hfiles⟩ : ∃ files, Discovery.discover top here paths = .ok files :=
      ⟨_, Discovery.discover_eq_ok_iff.mpr ⟨fun path hpath =>
        ⟨(hpaths path hpath).1, (hpaths path hpath).2, hshort path hpath⟩, rfl⟩⟩
    have hrun : OverflowsIff (∃ f ∈ files, FileOverflows parse top root c f)
        (checkFiles parse top root c {} files).2 := overflowsIff_checkFiles hparse files {}
    refine ⟨files, hfiles, fun h => ?_, fun h => ?_⟩
    · obtain ⟨t, ht⟩ := hrun.reads (by simpa using h)
      exact ⟨t, by rw [result_check_of_discover hfiles, ht]; rfl⟩
    · rw [result_check_of_discover hfiles, hrun.fails h]
      rfl
  · have hname := Key.overflowsIff_name hkey
    exact ⟨hname.reads, hname.fails⟩

def overflowingTree : FileTree :=
  .folder
    [(Text.ofString "a.js", .file (Utf8.encode Findings.overflowingSource)),
     (Text.ofString "b.js", .file (Utf8.encode Findings.nestedSource)),
     (Text.ofString "c.js", .file [0x66, 0xff])]

def readablePaths : List Text := ["b.js", "c.js"].map Text.ofString

def overflowingPaths : List Text := ["b.js", "a.js"].map Text.ofString

/-- Folders in one another whose paths get too long. -/
def deepPlace : Place := List.replicate 20 (List.replicate 250 (.scalar 'a'))

def deepTree : FileTree := deepPlace.foldr (fun name t => .folder [(name, t)]) (.folder [])

theorem check_returns_unless_overflow_samples :
    (∃ t, (check Syntax.parse overflowingTree silentGit [] [] {} readablePaths none).result =
      .ok t) ∧
    (check Syntax.parse overflowingTree silentGit [] [] {} overflowingPaths none).result =
      .error (.unreadable .overflow) ∧
    ∃ q, (check Syntax.parse deepTree silentGit [] [] {} [[Path.dot]] none).result =
      .error (.discovery (.tooLong q)) := by
  refine ⟨?_, ?_, ?_⟩
  · have hpaths : ∀ path ∈ readablePaths, Discovery.IsPresent overflowingTree [] path := by
      decide +kernel
    have hshort : ∀ path ∈ readablePaths,
        ∀ q ∈ Discovery.askedAt overflowingTree ((Path.ofText path).resolve []),
          ¬ q.isTooLong := by decide +kernel
    have hfiles : ∀ files ∈ (Discovery.discover overflowingTree [] readablePaths).toOption,
        ∀ f ∈ files, ¬ FileOverflows Syntax.parse overflowingTree [] {} f := by decide +kernel
    obtain ⟨files, hdiscover, hreturns, -⟩ :=
      (check_returns_unless_overflow Syntax.keepsBoundaries_parse hpaths).2.1 hshort
    exact hreturns (hfiles files (by rw [hdiscover]; rfl))
  · have hpaths : ∀ path ∈ overflowingPaths, Discovery.IsPresent overflowingTree [] path := by
      decide +kernel
    have hshort : ∀ path ∈ overflowingPaths,
        ∀ q ∈ Discovery.askedAt overflowingTree ((Path.ofText path).resolve []),
          ¬ q.isTooLong := by decide +kernel
    have hfiles : ∀ files ∈ (Discovery.discover overflowingTree [] overflowingPaths).toOption,
        ∃ f ∈ files, FileOverflows Syntax.parse overflowingTree [] {} f := by decide +kernel
    obtain ⟨files, hdiscover, -, hoverflows⟩ :=
      (check_returns_unless_overflow Syntax.keepsBoundaries_parse hpaths).2.1 hshort
    exact hoverflows (hfiles files (by rw [hdiscover]; rfl))
  · have hpaths : ∀ path ∈ [[Path.dot]], Discovery.IsPresent deepTree [] path := by
      decide +kernel
    have hasked : ∃ q ∈ Discovery.askedAt deepTree ((Path.ofText [Path.dot]).resolve []),
        q.isTooLong := by decide +kernel
    exact (check_returns_unless_overflow Syntax.keepsBoundaries_parse hpaths).1
      ⟨_, List.mem_singleton_self _, hasked⟩

end ParamLint.Project

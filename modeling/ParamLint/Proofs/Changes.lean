import ParamLint.Git.Changes
import ParamLint.Proofs.Naming

/-!
# Lists of changed files

Git ends every name of a list with a line feed. The list is cut at three more characters that git
prints as they are: a name that holds one of them comes apart, and its file is not found. All other
names give their files, and nothing else is found.
-/
namespace ParamLint

namespace Lines

def lineFeed : CodePoint := .scalar '\n'

def carriageReturn : CodePoint := .scalar '\r'

/-- The lines of a text that are not empty. -/
def pieces (t : Text) : List Text := (split t).filter (· ≠ [])

theorem splitFrom_cons {p : CodePoint} (hp : p ≠ carriageReturn) (line rest : Text) :
    splitFrom line (p :: rest) =
      if isBreak p then line.reverse :: splitFrom [] rest else splitFrom (p :: line) rest := by
  rw [splitFrom]
  intro rest' hreturn
  exact absurd hreturn hp

/-- A line feed ends the last line before it, and nothing of that line goes into the next one. -/
theorem filter_splitFrom_append {t : Text} (ht : carriageReturn ∉ t) (line rest : Text) :
    (splitFrom line (t ++ lineFeed :: rest)).filter (· ≠ []) =
      (splitFrom line t).filter (· ≠ []) ++ pieces rest := by
  induction t generalizing line with
  | nil =>
    have hbreak : isBreak lineFeed := by decide
    have hfeed : lineFeed ≠ carriageReturn := by decide
    rw [List.nil_append, splitFrom_cons hfeed, if_pos hbreak, splitFrom, pieces, split]
    cases line with
    | nil => simp
    | cons p line => simp
  | cons p t ih =>
    have hp : p ≠ carriageReturn := fun h => ht (h ▸ List.mem_cons_self)
    have htail : carriageReturn ∉ t := fun h => ht (List.mem_cons_of_mem p h)
    rw [List.cons_append, splitFrom_cons hp, splitFrom_cons hp]
    by_cases hbreak : isBreak p
    · rw [if_pos hbreak, if_pos hbreak, List.filter_cons, List.filter_cons, ih htail]
      split <;> rfl
    · rw [if_neg hbreak, if_neg hbreak, ih htail]

theorem splitFrom_of_no_break {t : Text} (ht : ∀ p ∈ t, ¬ isBreak p) (line : Text) :
    splitFrom line t = if line.reverse ++ t = [] then [] else [line.reverse ++ t] := by
  induction t generalizing line with
  | nil => cases line <;> simp [splitFrom]
  | cons p t ih =>
    have hbreak : ¬ isBreak p := ht p List.mem_cons_self
    have hp : p ≠ carriageReturn := by
      rintro rfl
      exact hbreak (by decide)
    rw [splitFrom_cons hp, if_neg hbreak, ih fun q hq => ht q (List.mem_cons_of_mem p hq)]
    simp

theorem pieces_of_no_break {t : Text} (hne : t ≠ []) (ht : ∀ p ∈ t, ¬ isBreak p) :
    pieces t = [t] := by
  rw [pieces, split, splitFrom_of_no_break ht]
  simp [hne]

theorem not_isBreak_of_mem_splitFrom {line t piece : Text} (hline : ∀ p ∈ line, ¬ isBreak p)
    (h : piece ∈ splitFrom line t) : ∀ p ∈ piece, ¬ isBreak p := by
  fun_induction splitFrom line t with
  | case1 line hempty => simp at h
  | case2 line hempty =>
    rw [List.mem_singleton] at h
    subst piece
    simpa using hline
  | case3 line rest ih =>
    rcases List.mem_cons.mp h with rfl | hrest
    · simpa using hline
    · exact ih (by simp) hrest
  | case4 line p rest _ hbreak ih =>
    rcases List.mem_cons.mp h with rfl | hrest
    · simpa using hline
    · exact ih (by simp) hrest
  | case5 line p rest _ hbreak ih =>
    refine ih ?_ h
    intro q hq
    rcases List.mem_cons.mp hq with rfl | hq
    · exact hbreak
    · exact hline q hq

theorem not_isBreak_of_mem_pieces {t piece : Text} (h : piece ∈ pieces t) :
    ∀ p ∈ piece, ¬ isBreak p :=
  not_isBreak_of_mem_splitFrom (by simp) (List.mem_filter.mp h).1

end Lines

namespace Place

def under (top : Place) (name : Text) : Place := top ++ (Path.segments name).filter (· ≠ [])

theorem foldl_step_of_no_parent {names : List Text} (h : parentName ∉ names) (p : Place) :
    names.foldl step p = p ++ names := by
  induction names generalizing p with
  | nil => simp
  | cons name names ih =>
    have hname : name ≠ parentName := fun heq => h (heq ▸ List.mem_cons_self)
    have hnames : parentName ∉ names := fun hmem => h (List.mem_cons_of_mem name hmem)
    rw [List.foldl_cons, ih hnames, step, if_neg hname, List.append_assoc, List.singleton_append]

/-- A place that keeps a part of the way to another one and adds some of the names behind it. -/
def LeadsTo (p : Place) (names : List Text) (q : Place) : Prop :=
  ∃ kept added, kept <+: p ∧ q = kept ++ added ∧ added ⊆ names

theorem LeadsTo.step {p q : Place} {names : List Text} (h : LeadsTo p names q) {name : Text}
    (hname : name ∈ names) : LeadsTo p names (q.step name) := by
  obtain ⟨kept, added, hkept, rfl, hadded⟩ := h
  rw [Place.step]
  by_cases hparent : name = parentName
  · rw [if_pos hparent]
    rcases List.eq_nil_or_concat added with rfl | ⟨added, last, rfl⟩
    · have hdrop : kept.dropLast <+: kept := List.dropLast_prefix kept
      refine ⟨kept.dropLast, [], hdrop.trans hkept, ?_, hadded⟩
      rw [List.append_nil, List.append_nil]
    · refine ⟨kept, added, hkept, ?_, fun x hx => hadded (by simp [hx])⟩
      rw [List.concat_eq_append, ← List.append_assoc, List.dropLast_concat]
  · rw [if_neg hparent]
    refine ⟨kept, added ++ [name], hkept, List.append_assoc kept added [name], ?_⟩
    intro x hx
    rcases List.mem_append.mp hx with hx | hx
    · exact hadded hx
    · rw [List.mem_singleton] at hx
      exact hx ▸ hname

theorem LeadsTo.foldl {p q : Place} {names : List Text} (h : LeadsTo p names q) {l : List Text}
    (hl : l ⊆ names) : LeadsTo p names (l.foldl Place.step q) := by
  induction l generalizing q with
  | nil => exact h
  | cons name l ih =>
    rw [List.foldl_cons]
    apply ih
    · exact h.step (hl List.mem_cons_self)
    · exact fun x hx => hl (List.mem_cons_of_mem name hx)

theorem LeadsTo.subset {p : Place} {names below : List Text} (h : LeadsTo p names (p ++ below)) :
    below ⊆ names := by
  obtain ⟨kept, added, ⟨rest, rfl⟩, heq, hadded⟩ := h
  rw [List.append_assoc] at heq
  have hrest : rest ++ below = added := List.append_cancel_left heq
  intro x hx
  exact hadded (hrest ▸ List.mem_append_right rest hx)

theorem leadsTo_resolve (top : Place) (t : Text) :
    LeadsTo top (Path.segments t) ((Path.ofText t).resolve top) := by
  have hparts : (Path.ofText t).parts ⊆ Path.segments t := fun x hx => (List.mem_filter.mp hx).1
  rw [Path.resolve]
  split
  · exact LeadsTo.foldl ⟨top, [], List.prefix_rfl, by simp, by simp⟩ hparts
  · exact LeadsTo.foldl ⟨[], [], List.nil_prefix, rfl, by simp⟩ hparts

end Place

namespace Git

/-- The character is printed as it is when names are not quoted. -/
def isPlain (p : CodePoint) : Bool :=
  0x20 ≤ p.toNat && p.toNat ≠ 0x7f && p ≠ .scalar '"' && p ≠ .scalar '\\'

def lineSeparators : List CodePoint := [.scalar '\u0085', .scalar '\u2028', .scalar '\u2029']

/-- The name of a file as git prints it, relative to the folder of the repository. -/
structure IsFileName (name : Text) : Prop where
  nonempty : name ≠ []
  relative : name.head? ≠ some Path.slash
  plain : ∀ p ∈ name, isPlain p
  steps : ∀ part ∈ Path.segments name, part ≠ [Path.dot] ∧ part ≠ Place.parentName

instance (name : Text) : Decidable (IsFileName name) :=
  decidable_of_iff (name ≠ [] ∧ name.head? ≠ some Path.slash ∧ (∀ p ∈ name, isPlain p) ∧
      ∀ part ∈ Path.segments name, part ≠ [Path.dot] ∧ part ≠ Place.parentName)
    ⟨fun ⟨nonempty, relative, plain, steps⟩ => ⟨nonempty, relative, plain, steps⟩,
      fun h => ⟨h.nonempty, h.relative, h.plain, h.steps⟩⟩

def listing (names : List Text) : Text := names.flatMap (· ++ [Lines.lineFeed])

theorem isBreak_iff_of_isPlain {p : CodePoint} (hp : isPlain p) :
    Lines.isBreak p ↔ p ∈ lineSeparators := by
  cases p with
  | surrogate d => simp [Lines.isBreak, lineSeparators]
  | scalar c =>
    have hlow : 0x20 ≤ c.toNat := by
      simp only [isPlain, CodePoint.toNat, Bool.and_eq_true] at hp
      exact of_decide_eq_true hp.1.1.1
    have hne : ∀ d : Char, d.toNat < 0x20 → c ≠ d := by
      rintro d hd rfl
      omega
    simp [Lines.isBreak, lineSeparators, hne]

theorem pieces_listing {names : List Text} (h : ∀ name ∈ names, IsFileName name) :
    Lines.pieces (listing names) = names.flatMap Lines.pieces := by
  induction names with
  | nil => rfl
  | cons name names ih =>
    have hreturn : Lines.carriageReturn ∉ name := by
      intro hmem
      have hplain := (h name List.mem_cons_self).plain _ hmem
      simp [isPlain, Lines.carriageReturn, CodePoint.toNat] at hplain
    have hrest := ih fun other hother => h other (List.mem_cons_of_mem name hother)
    rw [listing, List.flatMap_cons, List.append_assoc, List.singleton_append, ← listing,
      List.flatMap_cons, ← hrest]
    exact Lines.filter_splitFrom_append hreturn [] (listing names)

/-- A name without a dividing character leads from the top to the file it names. -/
theorem IsFileName.resolve_eq {name : Text} (h : IsFileName name) (top : Place) :
    (Path.ofText name).resolve top = top.under name := by
  have hslashes : (Path.ofText name).slashes = 0 := by
    cases hname : name with
    | nil => exact absurd hname h.nonempty
    | cons p rest =>
      have hp : p ≠ Path.slash := by simpa [hname] using h.relative
      simp [Path.ofText, Path.leadingSlashes, hp]
  have hparts : (Path.ofText name).parts = (Path.segments name).filter (· ≠ []) := by
    apply List.filter_congr
    intro part hpart
    simp [(h.steps part hpart).1]
  have hparent : Place.parentName ∉ (Path.segments name).filter (· ≠ []) := by
    intro hmem
    exact (h.steps _ (List.mem_filter.mp hmem).1).2 rfl
  rw [Path.resolve, hslashes, hparts, if_pos rfl, Place.foldl_step_of_no_parent hparent,
    Place.under]

/-- A name that is cut is no place that its pieces, or those of other names, lead to. -/
theorem under_ne_resolve_of_cut {name : Text} {p : CodePoint} (hp : p ∈ name)
    (hbreak : Lines.isBreak p) (top : Place) {t piece : Text} (hpiece : piece ∈ Lines.pieces t) :
    top.under name ≠ (Path.ofText piece).resolve top := by
  intro heq
  have hslash : p ≠ Path.slash := by
    rintro rfl
    exact absurd hbreak (by decide)
  obtain ⟨part, hpart, hpp⟩ := Path.exists_mem_segments hp hslash
  have hbelow : part ∈ (Path.segments name).filter (· ≠ []) := by
    rw [List.mem_filter]
    refine ⟨hpart, ?_⟩
    simpa using List.ne_nil_of_mem hpp
  have hleads := Place.leadsTo_resolve top piece
  rw [← heq, Place.under] at hleads
  have hsegment : part ∈ Path.segments piece := hleads.subset hbelow
  exact Lines.not_isBreak_of_mem_pieces hpiece p (Path.mem_of_mem_segments hsegment hpp) hbreak

theorem mem_places_listing {names : List Text} (h : ∀ name ∈ names, IsFileName name)
    (top place : Place) :
    place ∈ places top (listing names) ↔
      ∃ name ∈ names, ∃ piece ∈ Lines.pieces name, place = (Path.ofText piece).resolve top := by
  have hplaces : places top (listing names) =
      (names.flatMap Lines.pieces).map fun piece => (Path.ofText piece).resolve top := by
    rw [← pieces_listing h]
    rfl
  rw [hplaces]
  simp only [List.mem_map, List.mem_flatMap]
  constructor
  · rintro ⟨piece, ⟨name, hname, hpiece⟩, rfl⟩
    exact ⟨name, hname, piece, hpiece, rfl⟩
  · rintro ⟨name, hname, piece, hpiece, rfl⟩
    exact ⟨piece, ⟨name, hname, hpiece⟩, rfl⟩

theorem IsFileName.pieces_eq {name : Text} (h : IsFileName name)
    (hwhole : ∀ p ∈ name, p ∉ lineSeparators) : Lines.pieces name = [name] := by
  apply Lines.pieces_of_no_break h.nonempty
  intro p hp
  rw [isBreak_iff_of_isPlain (h.plain p hp)]
  exact hwhole p hp

def callIn (top : Place) (arguments : List Text) : Call :=
  ⟨words ["-c", "core.quotepath=off"] ++ arguments, top⟩

theorem run_bind_of_ok {α β : Type} {x : Asking α} {a : α} {t t' : Transcript}
    (h : x.run.run t = (.ok a, t')) (f : α → Asking β) :
    (x >>= f).run.run t = (f a).run.run t' := by
  simp only [ExceptT.run_bind, StateT.run_bind, h]
  rfl

theorem exists_run (git : Program) (top : Place) (arguments : List Text) (t : Transcript) :
    ∃ t', (run git top arguments).run.run t = (.ok (git (callIn top arguments)), t') :=
  ⟨_, rfl⟩

theorem exists_runChecked {git : Program} {top : Place} {arguments : List Text}
    (h : (git (callIn top arguments)).code = 0) (t : Transcript) :
    ∃ t', (runChecked git top arguments).run.run t =
      (.ok (git (callIn top arguments)).output, t') := by
  obtain ⟨t', hrun⟩ := exists_run git top arguments t
  refine ⟨t', ?_⟩
  rw [runChecked, run_bind_of_ok hrun, if_pos h]
  rfl

/-! The four questions that git is asked -/

def topCall (here : Place) (path : Text) : Call :=
  ⟨words ["rev-parse", "--show-toplevel"], (Path.ofText path).resolve here⟩

def topOf (git : Program) (here : Place) (path : Text) : Place :=
  (Path.ofText (git (topCall here path)).output.trim).resolve here

def verifyCall (top : Place) (revision : Text) : Call :=
  callIn top (words ["rev-parse", "--verify", "--quiet"] ++
    [revision ++ Text.ofString "^\x7bcommit\x7d"])

def changedCall (top : Place) (revision : Text) : Call :=
  callIn top (words ["diff", "--name-only", "--diff-filter=ACMR"] ++ [revision] ++ words ["--"])

def newCall (top : Place) : Call :=
  callIn top (words ["ls-files", "--others", "--exclude-standard"])

/-- Git answers every question without an error. -/
structure Succeeds (git : Program) (here : Place) (path revision : Text) : Prop where
  top : (git (topCall here path)).code = 0
  known : (git (verifyCall (topOf git here path) revision)).code = 0
  changed : (git (changedCall (topOf git here path) revision)).code = 0
  new : (git (newCall (topOf git here path))).code = 0

namespace Succeeds

variable {git : Program} {here : Place} {path revision : Text}

theorem exists_topLevel (h : Succeeds git here path revision) (t : Transcript) :
    ∃ t', (topLevel git here path).run.run t = (.ok (topOf git here path), t') := by
  have hask : ∃ t', (ask git (topCall here path)).run.run t =
      (.ok (git (topCall here path)), t') := ⟨_, rfl⟩
  obtain ⟨t', hask⟩ := hask
  have hcode := h.top
  rw [topCall] at hask hcode
  refine ⟨t', ?_⟩
  rw [topLevel, run_bind_of_ok hask, if_pos hcode]
  rfl

theorem exists_verify (h : Succeeds git here path revision) (t : Transcript) :
    ∃ t', (verify git (topOf git here path) revision).run.run t = (.ok (), t') := by
  obtain ⟨t', hrun⟩ := exists_run git (topOf git here path)
    (words ["rev-parse", "--verify", "--quiet"] ++
      [revision ++ Text.ofString "^\x7bcommit\x7d"]) t
  have hcode := h.known
  rw [verifyCall] at hcode
  refine ⟨t', ?_⟩
  rw [verify, run_bind_of_ok hrun, if_pos hcode]
  rfl

/-- What git lists is what is found, line by line. -/
theorem changedSince_eq (h : Succeeds git here path revision) :
    ((changedSince git here path revision).run.run {}).1 =
      .ok (places (topOf git here path) (git (changedCall (topOf git here path) revision)).output ++
        places (topOf git here path) (git (newCall (topOf git here path))).output) := by
  obtain ⟨t₁, htop⟩ := h.exists_topLevel {}
  obtain ⟨t₂, hverify⟩ := h.exists_verify t₁
  obtain ⟨t₃, hchanged⟩ := exists_runChecked h.changed t₂
  obtain ⟨t₄, hnew⟩ := exists_runChecked h.new t₃
  rw [changedSince, run_bind_of_ok htop, run_bind_of_ok hverify, run_bind_of_ok hchanged,
    run_bind_of_ok hnew]
  rfl

end Succeeds

/-- Git finds the repository at `top` and the revision in it, and answers with lists of names which
files changed and which are new. -/
structure Answers (git : Program) (here : Place) (path revision : Text) (top : Place)
    (changed new : List Text) : Prop where
  atTop : ∃ out err, git (topCall here path) = ⟨0, out, err⟩ ∧
    (Path.ofText out.trim).resolve here = top
  known : (git (verifyCall top revision)).code = 0
  listsChanged : ∃ err, git (changedCall top revision) = ⟨0, listing changed, err⟩
  listsNew : ∃ err, git (newCall top) = ⟨0, listing new, err⟩

section Answers

variable {git : Program} {here top : Place} {path revision : Text} {changed new : List Text}

theorem Answers.topOf_eq (h : Answers git here path revision top changed new) :
    topOf git here path = top := by
  obtain ⟨out, err, hreply, htop⟩ := h.atTop
  rw [topOf, hreply, htop]

theorem Answers.succeeds (h : Answers git here path revision top changed new) :
    Succeeds git here path revision := by
  obtain ⟨out, err, hreply, -⟩ := h.atTop
  obtain ⟨_, hchanged⟩ := h.listsChanged
  obtain ⟨_, hnew⟩ := h.listsNew
  constructor
  · rw [hreply]
  · rw [h.topOf_eq]
    exact h.known
  · rw [h.topOf_eq, hchanged]
  · rw [h.topOf_eq, hnew]

theorem Answers.changedSince_eq (h : Answers git here path revision top changed new) :
    ((changedSince git here path revision).run.run {}).1 =
      .ok (places top (listing changed) ++ places top (listing new)) := by
  obtain ⟨_, hchanged⟩ := h.listsChanged
  obtain ⟨_, hnew⟩ := h.listsNew
  rw [h.succeeds.changedSince_eq, h.topOf_eq, hchanged, hnew]

/-- The files found are those that the pieces of the listed names lead to. They are the files that
the names name exactly if no name holds a character that ends a line. -/
theorem changedSince_finds_uncut_names (hgit : Answers git here path revision top changed new)
    (hnames : ∀ name ∈ changed ++ new, IsFileName name) :
    ∃ found, ((changedSince git here path revision).run.run {}).1 = .ok found ∧
      (∀ place, place ∈ found ↔ ∃ name ∈ changed ++ new, ∃ piece ∈ Lines.pieces name,
        place = (Path.ofText piece).resolve top) ∧
      ((∀ place, place ∈ found ↔ ∃ name ∈ changed ++ new, place = top.under name) ↔
        ∀ name ∈ changed ++ new, ∀ p ∈ name, p ∉ lineSeparators) := by
  have hfound : ∀ place, place ∈ places top (listing changed) ++ places top (listing new) ↔
      ∃ name ∈ changed ++ new, ∃ piece ∈ Lines.pieces name,
        place = (Path.ofText piece).resolve top := by
    intro place
    rw [List.mem_append,
      mem_places_listing fun name hname => hnames name (List.mem_append_left new hname),
      mem_places_listing fun name hname => hnames name (List.mem_append_right changed hname)]
    simp only [List.mem_append, or_and_right, exists_or]
  refine ⟨_, hgit.changedSince_eq, hfound, ?_, ?_⟩
  · intro hall name hname p hp hseparator
    -- a name with a separator would have to be led to by a piece, and pieces hold none
    obtain ⟨_, -, piece, hpiece, hplace⟩ :=
      (hfound (top.under name)).mp ((hall (top.under name)).mpr ⟨name, hname, rfl⟩)
    have hbreak := (isBreak_iff_of_isPlain ((hnames name hname).plain p hp)).mpr hseparator
    exact under_ne_resolve_of_cut hp hbreak top hpiece hplace
  · intro hwhole place
    rw [hfound]
    have hsame : ∀ name ∈ changed ++ new, (∃ piece ∈ Lines.pieces name,
        place = (Path.ofText piece).resolve top) ↔ place = top.under name := by
      intro name hname
      rw [(hnames name hname).pieces_eq (hwhole name hname), ← (hnames name hname).resolve_eq]
      simp
    constructor
    · rintro ⟨name, hname, hpiece⟩
      exact ⟨name, hname, (hsame name hname).mp hpiece⟩
    · rintro ⟨name, hname, hplace⟩
      exact ⟨name, hname, (hsame name hname).mpr hplace⟩

end Answers

def sampleProgram (changed new : List Text) : Program := fun call =>
  if Text.ofString "diff" ∈ call.arguments then ⟨0, listing changed, []⟩
  else if Text.ofString "ls-files" ∈ call.arguments then ⟨0, listing new, []⟩
  else ⟨0, Text.ofString "/repo\n", []⟩

def sampleTop : Place := [Text.ofString "repo"]

/-- Two names that hold no separator, and one that does. -/
def wholeNames : List Text := ["src/größe.js", "b c.ts"].map Text.ofString

def cutName : Text := Text.ofString "a\u2028b.js"

theorem changedSince_finds_sample_names :
    (∃ found, ((changedSince (sampleProgram wholeNames []) [] (Text.ofString "/repo")
        (Text.ofString "HEAD")).run.run {}).1 = .ok found ∧
      ∀ place, place ∈ found ↔ ∃ name ∈ wholeNames, place = sampleTop.under name) ∧
    ∃ found, ((changedSince (sampleProgram wholeNames [cutName]) [] (Text.ofString "/repo")
        (Text.ofString "HEAD")).run.run {}).1 = .ok found ∧
      ¬ ∀ place, place ∈ found ↔
        ∃ name ∈ wholeNames ++ [cutName], place = sampleTop.under name := by
  have hanswers : ∀ new, Answers (sampleProgram wholeNames new) [] (Text.ofString "/repo")
      (Text.ofString "HEAD") sampleTop wholeNames new := by
    intro new
    refine ⟨⟨_, _, rfl, by decide +kernel⟩, rfl, ⟨_, rfl⟩, ⟨_, rfl⟩⟩
  constructor
  · obtain ⟨found, hresult, -, hiff⟩ :=
      changedSince_finds_uncut_names (hanswers []) (by decide +kernel)
    exact ⟨found, hresult, by simpa using hiff.mpr (by decide +kernel)⟩
  · obtain ⟨found, hresult, -, hiff⟩ :=
      changedSince_finds_uncut_names (hanswers [cutName]) (by decide +kernel)
    exact ⟨found, hresult, fun h => absurd (hiff.mp h) (by decide +kernel)⟩

end Git

end ParamLint

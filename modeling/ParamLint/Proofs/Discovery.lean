import ParamLint.Proofs.Naming
import ParamLint.Proofs.Pointwise
import ParamLint.Run.Discovery

/-!
# Discovered files

Discovery succeeds exactly if every argument can be named and opened: there is something at its
place, and the file system refuses nothing that it is asked for there. The files then depend on the
places that the arguments name alone, on no order and no repetition of them but for the order of the
files. In a file tree whose folders name each entry once, every file that is discovered can be read.
-/
namespace ParamLint

namespace FileTree

def find? : FileTree → Place → Option FileTree
  | t, [] => some t
  | file _, _ :: _ => none
  | folder entries, name :: rest =>
    match entries.lookup name with
    | some t => find? t rest
    | none => none

/-- No folder has two entries of one name. -/
inductive HasDistinctNames : FileTree → Prop
  | file (content : List UInt8) : HasDistinctNames (.file content)
  | folder {entries : List (Text × FileTree)} (distinct : (entries.map Prod.fst).Nodup)
      (below : ∀ e ∈ entries, HasDistinctNames e.2) : HasDistinctNames (.folder entries)

theorem find?_folder_cons (entries : List (Text × FileTree)) (name : Text) (rest : Place) :
    (folder entries).find? (name :: rest) = (entries.lookup name).bind (·.find? rest) := by
  rw [find?]
  cases entries.lookup name <;> rfl

theorem find?_append (top : FileTree) (p names : Place) :
    top.find? (p ++ names) = (top.find? p).bind (·.find? names) := by
  induction p generalizing top with
  | nil => simp [find?]
  | cons name rest ih =>
    cases top with
    | file content => simp [find?]
    | folder entries =>
      rw [List.cons_append, find?_folder_cons, find?_folder_cons, Option.bind_assoc]
      congr
      funext t
      exact ih t

theorem find?_distinct {top t : FileTree} (htop : top.HasDistinctNames) {p : Place}
    (hfind : top.find? p = some t) : t.HasDistinctNames := by
  induction p generalizing top with
  | nil =>
    simp only [find?, Option.some.injEq] at hfind
    subst t
    exact htop
  | cons name rest ih =>
    cases htop with
    | file content => simp [find?] at hfind
    | folder hdistinct hbelow =>
      rw [find?_folder_cons] at hfind
      obtain ⟨sub, hsub, hrest⟩ := Option.bind_eq_some_iff.mp hfind
      exact ih (hbelow _ (mem_of_lookup hsub)) hrest

/-- What has something below it is a folder. -/
theorem exists_folder_of_find? {top t : FileTree} {p names : Place} (hnames : names ≠ [])
    (h : top.find? (p ++ names) = some t) : ∃ entries, top.find? p = some (folder entries) := by
  rw [find?_append] at h
  obtain ⟨sub, hsub, hbelow⟩ := Option.bind_eq_some_iff.mp h
  cases sub with
  | file content =>
    cases names with
    | nil => exact absurd rfl hnames
    | cons name rest => simp [find?] at hbelow
  | folder entries => exact ⟨entries, hsub⟩

/-! Asking the file system -/

/-- A name that is too long would have to be looked for in a folder. -/
def MeetsLongName (t : FileTree) (p : Place) : Prop :=
  ∃ folders name rest, p = folders ++ name :: rest ∧
    (∃ entries, t.find? folders = some (.folder entries)) ∧ Path.nameLimit < Path.size name

/-- The file system refuses to look for the place: its path is too long, or a name on the way is. -/
def Refuses (top : FileTree) (p : Place) : Prop :=
  Path.pathLimit < Path.size p.toText ∨ top.MeetsLongName p

theorem not_meetsLongName_file (content : List UInt8) (p : Place) :
    ¬ (file content).MeetsLongName p := by
  rintro ⟨folders, name, rest, -, ⟨entries, hfolder⟩, -⟩
  cases folders with
  | nil => simp [find?] at hfolder
  | cons first folders => simp [find?] at hfolder

theorem meetsLongName_folder_cons {entries : List (Text × FileTree)} {name : Text} {rest : Place} :
    (folder entries).MeetsLongName (name :: rest) ↔
      Path.nameLimit < Path.size name ∨
        ∃ t, entries.lookup name = some t ∧ t.MeetsLongName rest := by
  constructor
  · rintro ⟨folders, name', rest', hp, ⟨entries', hfolder⟩, hlong⟩
    cases folders with
    | nil =>
      cases hp
      exact .inl hlong
    | cons first folders =>
      cases hp
      rw [find?_folder_cons] at hfolder
      obtain ⟨t, ht, hfolder⟩ := Option.bind_eq_some_iff.mp hfolder
      exact .inr ⟨t, ht, folders, name', rest', rfl, ⟨entries', hfolder⟩, hlong⟩
  · rintro (hlong | ⟨t, ht, folders, name', rest', rfl, ⟨entries', hfolder⟩, hlong⟩)
    · exact ⟨[], name, rest, rfl, ⟨entries, by simp [find?]⟩, hlong⟩
    · refine ⟨name :: folders, name', rest', rfl, ⟨entries', ?_⟩, hlong⟩
      rw [find?_folder_cons, ht]
      exact hfolder

theorem walk_eq_ok_iff {t s : FileTree} {p : Place} :
    t.walk p = .ok s ↔ t.find? p = some s ∧ ∀ name ∈ p, Path.size name ≤ Path.nameLimit := by
  induction p generalizing t with
  | nil => simp [walk, find?]
  | cons name rest ih =>
    cases t with
    | file content => simp [walk, find?]
    | folder entries =>
      rw [walk, find?_folder_cons, List.forall_mem_cons]
      by_cases hlong : Path.nameLimit < Path.size name
      · rw [if_pos hlong]
        exact iff_of_false (by simp) fun h => absurd h.2.1 (Nat.not_le.mpr hlong)
      · rw [if_neg hlong]
        cases entries.lookup name with
        | none => simp
        | some sub => simp [ih, Nat.not_lt.mp hlong]

theorem walk_eq_tooLong_iff {t : FileTree} {p : Place} :
    t.walk p = .error .tooLong ↔ t.MeetsLongName p := by
  induction p generalizing t with
  | nil => simp [walk, MeetsLongName]
  | cons name rest ih =>
    cases t with
    | file content => simp [walk, not_meetsLongName_file]
    | folder entries =>
      rw [walk, meetsLongName_folder_cons]
      by_cases hlong : Path.nameLimit < Path.size name
      · simp [hlong]
      · rw [if_neg hlong]
        cases entries.lookup name with
        | none => simp [hlong]
        | some t => simp [hlong, ih]

theorem isTooLong_iff {p : Place} :
    p.isTooLong ↔ Path.pathLimit < Path.size p.toText ∨
      ∃ name ∈ p, Path.nameLimit < Path.size name := by
  simp [Place.isTooLong]

theorem status_eq_ok_iff {top t : FileTree} {p : Place} :
    top.status p = .ok t ↔ top.find? p = some t ∧ ¬ p.isTooLong := by
  rw [status, isTooLong_iff]
  by_cases hlong : Path.pathLimit < Path.size p.toText
  · simp [hlong]
  · rw [if_neg hlong, walk_eq_ok_iff]
    simp [hlong]

theorem status_eq_tooLong_iff {top : FileTree} {p : Place} :
    top.status p = .error .tooLong ↔ top.Refuses p := by
  rw [status, Refuses]
  by_cases hlong : Path.pathLimit < Path.size p.toText
  · simp [hlong]
  · rw [if_neg hlong, walk_eq_tooLong_iff]
    simp [hlong]

/-- Where there is something, all names were looked for in folders. -/
theorem refuses_iff_of_find? {top t : FileTree} {p : Place} (h : top.find? p = some t) :
    top.Refuses p ↔ p.isTooLong := by
  rw [isTooLong_iff, Refuses]
  refine or_congr_right ⟨?_, ?_⟩
  · rintro ⟨folders, name, rest, rfl, -, hlong⟩
    exact ⟨name, by simp, hlong⟩
  · rintro ⟨name, hname, hlong⟩
    obtain ⟨folders, rest, rfl⟩ := List.append_of_mem hname
    exact ⟨folders, name, rest, rfl, exists_folder_of_find? (List.cons_ne_nil name rest) h, hlong⟩

theorem read_of_find? {top : FileTree} {p : Place} {content : List UInt8}
    (hfind : top.find? p = some (.file content)) (hshort : ¬ p.isTooLong) :
    top.read p = .ok content := by
  rw [read, status_eq_ok_iff.mpr ⟨hfind, hshort⟩]
  rfl

/-! Inside a folder -/

theorem mem_insideAll_iff {entries : List (Text × FileTree)} {names : Place} {s : FileTree} :
    (names, s) ∈ insideAll entries ↔
      ∃ name t rest, (name, t) ∈ entries ∧ names = name :: rest ∧
        (rest = [] ∧ s = t ∨ (rest, s) ∈ t.inside) := by
  induction entries with
  | nil => simp [insideAll]
  | cons e entries ih =>
    obtain ⟨name, t⟩ := e
    rw [insideAll, List.mem_append, List.mem_cons, ih, List.mem_map]
    constructor
    · rintro ((h | ⟨⟨rest, s'⟩, hrest, h⟩) | ⟨name', t', rest, hmem, hrest⟩)
      · cases h
        exact ⟨name, _, [], List.mem_cons_self, rfl, .inl ⟨rfl, rfl⟩⟩
      · cases h
        exact ⟨name, t, rest, List.mem_cons_self, rfl, .inr hrest⟩
      · exact ⟨name', t', rest, List.mem_cons_of_mem _ hmem, hrest⟩
    · rintro ⟨name', t', rest, hmem, rfl, hrest⟩
      rcases List.mem_cons.mp hmem with heq | hmem
      · cases heq
        rcases hrest with ⟨rfl, rfl⟩ | hrest
        · exact .inl (.inl rfl)
        · exact .inl (.inr ⟨(rest, s), hrest, rfl⟩)
      · exact .inr ⟨name', t', rest, hmem, rfl, hrest⟩

/-- What is inside a tree is what it has at some place below it. -/
theorem mem_inside_iff {t s : FileTree} (ht : t.HasDistinctNames) {names : Place} :
    (names, s) ∈ t.inside ↔ names ≠ [] ∧ t.find? names = some s := by
  induction names generalizing t with
  | nil =>
    cases ht with
    | file content => simp [inside]
    | folder _ _ => simp [inside, mem_insideAll_iff]
  | cons name rest ih =>
    cases ht with
    | file content => simp [inside, find?]
    | folder hdistinct hbelow =>
      rw [inside, mem_insideAll_iff, find?_folder_cons]
      constructor
      · rintro ⟨name', t', rest', hmem, hnames, hrest⟩
        obtain ⟨rfl, rfl⟩ := List.cons.inj hnames
        refine ⟨List.cons_ne_nil _ _, ?_⟩
        rw [(lookup_eq_some_iff_mem hdistinct).mpr hmem]
        rcases hrest with ⟨rfl, rfl⟩ | hrest
        · rfl
        · exact ((ih (hbelow _ hmem)).mp hrest).2
      · rintro ⟨-, h⟩
        obtain ⟨t', ht', hrest⟩ := Option.bind_eq_some_iff.mp h
        have hmem := mem_of_lookup ht'
        refine ⟨name, t', rest, hmem, rfl, ?_⟩
        by_cases hnil : rest = []
        · subst hnil
          exact .inl ⟨rfl, (Option.some.inj hrest).symm⟩
        · exact .inr ((ih (hbelow _ hmem)).mpr ⟨hnil, hrest⟩)

theorem mem_insideAll_iff_of_find? {top s : FileTree} (htop : top.HasDistinctNames) {p : Place}
    {entries : List (Text × FileTree)} (hfind : top.find? p = some (folder entries))
    {names : Place} :
    (names, s) ∈ insideAll entries ↔ names ≠ [] ∧ top.find? (p ++ names) = some s := by
  have hinside : (names, s) ∈ (folder entries).inside ↔
      names ≠ [] ∧ (folder entries).find? names = some s :=
    mem_inside_iff (find?_distinct htop hfind)
  rw [inside] at hinside
  rw [hinside, find?_append, hfind]
  rfl

end FileTree

namespace Discovery

theorem mem_folders_iff {inside : List (Place × FileTree)} {names : Place} :
    names ∈ folders inside ↔ ∃ entries, (names, .folder entries) ∈ inside := by
  simp only [folders, List.mem_map, List.mem_filter]
  constructor
  · rintro ⟨⟨names', t⟩, ⟨hmem, hfolder⟩, rfl⟩
    cases t with
    | file content => cases hfolder
    | folder entries => exact ⟨entries, hmem⟩
  · rintro ⟨entries, hmem⟩
    exact ⟨_, ⟨hmem, rfl⟩, rfl⟩

theorem mem_sources_iff {inside : List (Place × FileTree)} {names : Place} :
    names ∈ sources inside ↔
      (∃ content, (names, .file content) ∈ inside) ∧ isSupported (names.getLast?.getD []) := by
  simp only [sources, List.mem_mergeSort, List.mem_map, List.mem_filter, Bool.and_eq_true]
  constructor
  · rintro ⟨⟨names', t⟩, ⟨hmem, hfile, hsupported⟩, rfl⟩
    cases t with
    | file content => exact ⟨⟨content, hmem⟩, hsupported⟩
    | folder entries => cases hfile
  · rintro ⟨⟨content, hmem⟩, hsupported⟩
    exact ⟨_, ⟨hmem, rfl, hsupported⟩, rfl⟩

/-- The files at a place and below it, none if there is nothing. -/
def filesAt (top : FileTree) (p : Place) : List Place := ((top.find? p).map (filesOf p)).getD []

/-- What the file system is asked for to tell the files at a place. -/
def askedAt (top : FileTree) (p : Place) : List Place :=
  p :: ((top.find? p).map (asked p)).getD []

/-- There is something at the place, and nothing is refused to tell the files there. -/
def Opens (top : FileTree) (p : Place) : Prop :=
  (top.find? p).isSome ∧ ∀ q ∈ askedAt top p, ¬ q.isTooLong

instance (top : FileTree) (p : Place) : Decidable (Opens top p) :=
  inferInstanceAs (Decidable (_ ∧ _))

theorem mem_filesAt_iff {top : FileTree} {p file : Place} :
    file ∈ filesAt top p ↔
      (∃ content, top.find? p = some (.file content) ∧ isSupported (p.getLast?.getD []) ∧
        file = p) ∨
      ∃ entries names, top.find? p = some (.folder entries) ∧
        names ∈ sources (FileTree.insideAll entries) ∧ ¬ names.dropLast.any isSkipped ∧
        file = p ++ names := by
  unfold filesAt
  cases top.find? p with
  | none => simp
  | some t =>
    cases t with
    | file content => by_cases hname : isSupported (p.getLast?.getD []) <;> simp [filesOf, hname]
    | folder entries =>
      simp only [Option.map_some, Option.getD_some, filesOf, List.mem_map, List.mem_filter]
      constructor
      · rintro ⟨names, ⟨hsource, htaken⟩, rfl⟩
        exact .inr ⟨entries, names, rfl, hsource, by simpa using htaken, rfl⟩
      · rintro (⟨_, hfile, -⟩ | ⟨_, names, hfolder, hsource, htaken, rfl⟩)
        · cases hfile
        · cases hfolder
          exact ⟨names, ⟨hsource, by simpa using htaken⟩, rfl⟩

theorem mem_askedAt_of_mem_filesAt {top : FileTree} {p file : Place} (h : file ∈ filesAt top p) :
    file ∈ askedAt top p := by
  rcases mem_filesAt_iff.mp h with ⟨_, -, -, rfl⟩ | ⟨entries, names, hfind, hsource, -, rfl⟩
  · exact List.mem_cons_self
  · refine List.mem_cons_of_mem _ ?_
    rw [hfind]
    exact List.mem_map_of_mem (List.mem_append_right _ hsource)

theorem exists_find?_of_mem_filesAt {top : FileTree} (htop : top.HasDistinctNames)
    {p file : Place} (h : file ∈ filesAt top p) :
    ∃ content, top.find? file = some (.file content) := by
  rcases mem_filesAt_iff.mp h with
    ⟨content, hfind, -, rfl⟩ | ⟨entries, names, hfind, hsource, -, rfl⟩
  · exact ⟨content, hfind⟩
  · obtain ⟨⟨content, hmem⟩, -⟩ := mem_sources_iff.mp hsource
    exact ⟨content, ((FileTree.mem_insideAll_iff_of_find? htop hfind).mp hmem).2⟩

/-- A place is reached from another one if no folder between them is skipped. -/
def Reaches (p file : Place) : Prop := ∃ names, file = p ++ names ∧ ¬ names.dropLast.any isSkipped

theorem supported_of_mem_filesAt {top : FileTree} {p file : Place} (h : file ∈ filesAt top p) :
    isSupported (file.getLast?.getD []) ∧ Reaches p file := by
  rcases mem_filesAt_iff.mp h with ⟨_, -, hname, rfl⟩ | ⟨entries, names, -, hsource, htaken, rfl⟩
  · exact ⟨hname, [], by simp, by simp⟩
  · obtain ⟨-, hsupported⟩ := mem_sources_iff.mp hsource
    refine ⟨?_, names, rfl, htaken⟩
    rcases List.eq_nil_or_concat names with rfl | ⟨folders, name, rfl⟩
    · exact absurd hsupported (by decide)
    · simpa [← List.append_assoc] using hsupported

/-! Arguments -/

theorem candidates_of_refuses {top : FileTree} {p : Place} (h : top.Refuses p) :
    candidates top p = .error (.tooLong p) := by
  rw [candidates, FileTree.status_eq_tooLong_iff.mpr h]

theorem candidates_of_find?_eq_none {top : FileTree} {p : Place} (hnone : top.find? p = none)
    (h : ¬ top.Refuses p) : candidates top p = .error (.missing p) := by
  unfold candidates
  cases hstatus : top.status p with
  | ok t =>
    rw [FileTree.status_eq_ok_iff, hnone] at hstatus
    cases hstatus.1
  | error e =>
    cases e with
    | tooLong => exact absurd (FileTree.status_eq_tooLong_iff.mp hstatus) h
    | missing | notFolder | isFolder => rfl

theorem candidates_of_opens {top : FileTree} {p : Place} (h : Opens top p) :
    candidates top p = .ok (filesAt top p) := by
  obtain ⟨hthere, hopen⟩ := h
  obtain ⟨t, ht⟩ := Option.isSome_iff_exists.mp hthere
  rw [askedAt, ht, List.forall_mem_cons] at hopen
  have hasked : (asked p t).find? Place.isTooLong = none := List.find?_eq_none.mpr hopen.2
  rw [candidates, FileTree.status_eq_ok_iff.mpr ⟨ht, hopen.1⟩]
  dsimp only
  rw [hasked, filesAt, ht]
  rfl

/-- Where there is something, only a refusal keeps the files from being told. -/
theorem exists_candidates_eq_tooLong {top : FileTree} {p : Place} (hthere : (top.find? p).isSome)
    (h : ¬ Opens top p) : ∃ q, candidates top p = .error (.tooLong q) := by
  obtain ⟨t, ht⟩ := Option.isSome_iff_exists.mp hthere
  by_cases hlong : p.isTooLong
  · exact ⟨p, candidates_of_refuses ((FileTree.refuses_iff_of_find? ht).mpr hlong)⟩
  · rw [candidates, FileTree.status_eq_ok_iff.mpr ⟨ht, hlong⟩]
    dsimp only
    cases hasked : (asked p t).find? Place.isTooLong with
    | some q => exact ⟨q, rfl⟩
    | none =>
      refine absurd ⟨hthere, ?_⟩ h
      rw [askedAt, ht]
      exact List.forall_mem_cons.mpr ⟨hlong, List.find?_eq_none.mp hasked⟩

theorem candidates_eq_ok_iff {top : FileTree} {p : Place} {files : List Place} :
    candidates top p = .ok files ↔ Opens top p ∧ files = filesAt top p := by
  by_cases hopens : Opens top p
  · rw [candidates_of_opens hopens]
    simp [hopens, eq_comm]
  · refine iff_of_false ?_ fun h => hopens h.1
    cases hfind : top.find? p with
    | some t =>
      obtain ⟨q, hq⟩ := exists_candidates_eq_tooLong (by rw [hfind]; rfl) hopens
      simp [hq]
    | none =>
      by_cases hrefuses : top.Refuses p
      · simp [candidates_of_refuses hrefuses]
      · simp [candidates_of_find?_eq_none hfind hrefuses]

/-- The argument can be named, and there is something at its place. -/
def IsPresent (top : FileTree) (here : Place) (path : Text) : Prop :=
  Path.IsNamable path ∧ (top.find? ((Path.ofText path).resolve here)).isSome

instance (top : FileTree) (here : Place) (path : Text) : Decidable (IsPresent top here path) :=
  inferInstanceAs (Decidable (_ ∧ _))

def namedPlaces (here : Place) (paths : List Text) : List Place :=
  paths.map fun path => (Path.ofText path).resolve here

theorem found_of_isNamable {path : Text} (h : Path.IsNamable path) (top : FileTree)
    (here : Place) : found top here path = candidates top ((Path.ofText path).resolve here) := by
  simp only [found, Path.resolveFault?_ofText_eq_none_iff.mpr h]

theorem found_eq_ok_iff {top : FileTree} {here : Place} {path : Text} {files : List Place} :
    found top here path = .ok files ↔
      (Path.IsNamable path ∧ Opens top ((Path.ofText path).resolve here)) ∧
        files = filesAt top ((Path.ofText path).resolve here) := by
  rw [← Path.resolveFault?_ofText_eq_none_iff]
  unfold found
  dsimp only
  cases (Path.ofText path).resolveFault? with
  | some fault => simp
  | none => simp [candidates_eq_ok_iff]

/-- Discovery succeeds exactly if every argument can be named and opened, and gives the files at the
places that are named without repetitions. -/
theorem discover_eq_ok_iff {top : FileTree} {here : Place} {paths : List Text}
    {files : List Place} :
    discover top here paths = .ok files ↔
      (∀ path ∈ paths, Path.IsNamable path ∧ Opens top ((Path.ofText path).resolve here)) ∧
        files = ((namedPlaces here paths).flatMap (filesAt top)).eraseDups := by
  have hlists : ∀ lists, paths.mapM (found top here) = .ok lists ↔
      (∀ path ∈ paths, Path.IsNamable path ∧ Opens top ((Path.ofText path).resolve here)) ∧
        lists = (namedPlaces here paths).map (filesAt top) := by
    intro lists
    rw [mapM_eq_ok_iff]
    induction paths generalizing lists with
    | nil => simp [namedPlaces]
    | cons path paths ih =>
      rw [List.forall₂_cons_left_iff]
      simp only [ih]
      simp only [found_eq_ok_iff, namedPlaces, List.map_cons, List.forall_mem_cons]
      constructor
      · rintro ⟨_, _, ⟨hpath, rfl⟩, ⟨hpaths, rfl⟩, rfl⟩
        exact ⟨⟨hpath, hpaths⟩, rfl⟩
      · rintro ⟨⟨hpath, hpaths⟩, rfl⟩
        exact ⟨_, _, ⟨hpath, rfl⟩, ⟨hpaths, rfl⟩, rfl⟩
  rw [discover, map_eq_ok_iff]
  constructor
  · rintro ⟨lists, h, rfl⟩
    obtain ⟨hpaths, rfl⟩ := (hlists lists).mp h
    exact ⟨hpaths, rfl⟩
  · rintro ⟨hpaths, rfl⟩
    exact ⟨_, (hlists _).mpr ⟨hpaths, rfl⟩, rfl⟩

/-- Among arguments that exist, only a refusal keeps discovery from succeeding. -/
theorem exists_discover_eq_tooLong {top : FileTree} {here : Place} {paths : List Text}
    (hpaths : ∀ path ∈ paths, IsPresent top here path)
    (hlong : ∃ path ∈ paths, ∃ q ∈ askedAt top ((Path.ofText path).resolve here), q.isTooLong) :
    ∃ q, discover top here paths = .error (.tooLong q) := by
  cases hresult : discover top here paths with
  | ok files =>
    obtain ⟨path, hpath, q, hq, hlong⟩ := hlong
    exact absurd hlong (((discover_eq_ok_iff.mp hresult).1 path hpath).2.2 q hq)
  | error e =>
    rw [discover, map_eq_error_iff, mapM_eq_error_iff] at hresult
    obtain ⟨before, path, after, rfl, -, hpath⟩ := hresult
    obtain ⟨hnamable, hthere⟩ := hpaths path (by simp)
    rw [found_of_isNamable hnamable] at hpath
    by_cases hopens : Opens top ((Path.ofText path).resolve here)
    · rw [candidates_of_opens hopens] at hpath
      cases hpath
    · obtain ⟨q, hq⟩ := exists_candidates_eq_tooLong hthere hopens
      exact ⟨q, hpath ▸ hq⟩

theorem mem_discover_iff {top : FileTree} {here : Place} {paths : List Text} {files : List Place}
    (h : discover top here paths = .ok files) {file : Place} :
    file ∈ files ↔ ∃ p ∈ namedPlaces here paths, file ∈ filesAt top p := by
  rw [(discover_eq_ok_iff.mp h).2, List.mem_eraseDups, List.mem_flatMap]

theorem opens_of_mem_namedPlaces {top : FileTree} {here : Place} {paths : List Text}
    {files : List Place} (h : discover top here paths = .ok files) :
    ∀ p ∈ namedPlaces here paths, Opens top p :=
  List.forall_mem_map.mpr fun path hpath => ((discover_eq_ok_iff.mp h).1 path hpath).2

theorem not_isTooLong_of_mem_discover {top : FileTree} {here : Place} {paths : List Text}
    {files : List Place} (h : discover top here paths = .ok files) {file : Place}
    (hfile : file ∈ files) : ¬ file.isTooLong := by
  obtain ⟨p, hp, hmem⟩ := (mem_discover_iff h).mp hfile
  exact (opens_of_mem_namedPlaces h p hp).2 file (mem_askedAt_of_mem_filesAt hmem)

theorem exists_read_of_mem_discover {top : FileTree} (htop : top.HasDistinctNames) {here : Place}
    {paths : List Text} {files : List Place} (h : discover top here paths = .ok files)
    {file : Place} (hfile : file ∈ files) : ∃ bytes, top.read file = .ok bytes := by
  obtain ⟨p, -, hmem⟩ := (mem_discover_iff h).mp hfile
  obtain ⟨content, hfind⟩ := exists_find?_of_mem_filesAt htop hmem
  exact ⟨content, FileTree.read_of_find? hfind (not_isTooLong_of_mem_discover h hfile)⟩

theorem nodup_discover {top : FileTree} {here : Place} {paths : List Text} {files : List Place}
    (h : discover top here paths = .ok files) : files.Nodup := by
  rw [(discover_eq_ok_iff.mp h).2]
  exact nodup_eraseDups _

/-- Arguments that name the same places stand for the same files. -/
theorem exists_perm_discover {top : FileTree} {here : Place} {paths paths' : List Text}
    (hnamable : ∀ path ∈ paths', Path.IsNamable path)
    (hsame : ∀ p, p ∈ namedPlaces here paths ↔ p ∈ namedPlaces here paths') {files : List Place}
    (h : discover top here paths = .ok files) :
    ∃ files', discover top here paths' = .ok files' ∧ files'.Perm files := by
  have hopens : ∀ p ∈ namedPlaces here paths', Opens top p := fun p hp =>
    opens_of_mem_namedPlaces h p ((hsame p).mpr hp)
  obtain ⟨files', hfiles'⟩ : ∃ files', discover top here paths' = .ok files' :=
    ⟨_, discover_eq_ok_iff.mpr
      ⟨fun path hpath => ⟨hnamable path hpath, hopens _ (List.mem_map_of_mem hpath)⟩, rfl⟩⟩
  refine ⟨files', hfiles', ?_⟩
  rw [List.perm_ext_iff_of_nodup (nodup_discover hfiles') (nodup_discover h)]
  intro file
  simp only [mem_discover_iff h, mem_discover_iff hfiles', hsame]

end Discovery

end ParamLint

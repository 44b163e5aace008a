import Mathlib.Data.List.Induction
import Mathlib.Data.List.Lex
import ParamLint.Proofs.Changes
import ParamLint.Proofs.Discovery

/-!
# What discovery finds, in which order

Discovery fails at the first argument that leads nowhere, or for which the file system refuses what
it is asked for. Otherwise it finds the source files that are arguments or lie below one with no
hidden or generated folder in between, each once: first by the argument that contributes it, then by
the names that lead to it. Given what it found, it finds the same again.
-/
namespace ParamLint

/-! Order by code point -/

theorem isStrictTotalOrder_lex {α : Type} (r : α → α → Prop) [IsStrictTotalOrder α r] :
    IsStrictTotalOrder (List α) (List.Lex r) :=
  { isStrictWeakOrder_of_isOrderConnected with }

namespace Text

def Precedes : Text → Text → Prop := List.Lex fun p q : CodePoint => p.toNat < q.toNat

instance : IsStrictTotalOrder CodePoint fun p q => p.toNat < q.toNat where
  trichotomous _ _ hpq hqp :=
    CodePoint.toNat_injective (Nat.le_antisymm (Nat.not_lt.mp hqp) (Nat.not_lt.mp hpq))
  irrefl p := Nat.lt_irrefl p.toNat
  trans _ _ _ := Nat.lt_trans

instance : IsStrictTotalOrder Text Precedes := isStrictTotalOrder_lex _

theorem before_iff {s t : Text} : before s t ↔ s = t ∨ Precedes s t := by
  fun_induction before s t with
  | case1 t =>
    cases t with
    | nil => simp
    | cons q t => exact ⟨fun _ => .inr .nil, fun _ => rfl⟩
  | case2 p s =>
    constructor
    · intro h
      cases h
    · rintro (h | h) <;> cases h
  | case3 p s q t ih =>
    rw [Bool.or_eq_true, Bool.and_eq_true, decide_eq_true_eq, beq_iff_eq, ih]
    constructor
    · rintro (h | ⟨rfl, rfl | h⟩)
      · exact .inr (.rel h)
      · exact .inl rfl
      · exact .inr (.cons h)
    · rintro (h | h)
      · cases h
        exact .inr ⟨rfl, .inl rfl⟩
      · cases h with
        | rel h => exact .inl h
        | cons h => exact .inr ⟨rfl, .inr h⟩

end Text

namespace Place

def Precedes : Place → Place → Prop := List.Lex Text.Precedes

instance : IsStrictTotalOrder Place Precedes := isStrictTotalOrder_lex _

theorem before_iff {p q : Place} : before p q ↔ p = q ∨ Precedes p q := by
  fun_induction before p q with
  | case1 q =>
    cases q with
    | nil => simp
    | cons t q => exact ⟨fun _ => .inr .nil, fun _ => rfl⟩
  | case2 s p =>
    constructor
    · intro h
      cases h
    · rintro (h | h) <;> cases h
  | case3 s p t q ih =>
    rw [Bool.or_eq_true, Bool.and_eq_true, Bool.and_eq_true, decide_eq_true_eq, decide_eq_true_eq,
      ih, Text.before_iff]
    constructor
    · rintro (⟨rfl, rfl | h⟩ | ⟨hne, h⟩)
      · exact .inl rfl
      · exact .inr (.cons h)
      · exact .inr (.rel (h.resolve_left hne))
    · rintro (h | h)
      · cases h
        exact .inl ⟨rfl, .inl rfl⟩
      · cases h with
        | rel h => exact .inr ⟨fun heq => irrefl_of Text.Precedes t (heq ▸ h), .inr h⟩
        | cons h => exact .inl ⟨rfl, .inr h⟩

theorem before_trans (p q r : Place) (h : before p q) (h' : before q r) : before p r := by
  rw [before_iff] at h h' ⊢
  rcases h with rfl | h
  · exact h'
  · rcases h' with rfl | h'
    · exact .inr h
    · exact .inr (trans_of Precedes h h')

theorem before_total (p q : Place) : (before p q || before q p) = true := by
  rw [Bool.or_eq_true, before_iff, before_iff]
  rcases trichotomous_of Precedes p q with h | h | h
  · exact .inl (.inr h)
  · exact .inl (.inl h)
  · exact .inr (.inr h)

end Place

/-! File systems -/

/-- A name that an entry of a folder can have. -/
structure Path.IsName (name : Text) : Prop where
  nonempty : name ≠ []
  slash : Path.slash ∉ name
  dot : name ≠ [Path.dot]
  parent : name ≠ Place.parentName
  namable : Path.IsNamable name

instance (name : Text) : Decidable (Path.IsName name) :=
  decidable_of_iff
    (name ≠ [] ∧ Path.slash ∉ name ∧ name ≠ [Path.dot] ∧ name ≠ Place.parentName ∧
      Path.IsNamable name)
    ⟨fun h => ⟨h.1, h.2.1, h.2.2.1, h.2.2.2.1, h.2.2.2.2⟩,
      fun h => ⟨h.nonempty, h.slash, h.dot, h.parent, h.namable⟩⟩

namespace FileTree

inductive HasProperNames : FileTree → Prop
  | file (content : List UInt8) : HasProperNames (.file content)
  | folder {entries : List (Text × FileTree)} (proper : ∀ e ∈ entries, Path.IsName e.1)
      (below : ∀ e ∈ entries, HasProperNames e.2) : HasProperNames (.folder entries)

structure IsFileSystem (t : FileTree) : Prop where
  distinct : t.HasDistinctNames
  proper : t.HasProperNames

theorem isName_of_find? {top t : FileTree} (htop : top.HasProperNames) {p : Place}
    (h : top.find? p = some t) : ∀ name ∈ p, Path.IsName name := by
  induction p generalizing top with
  | nil => simp
  | cons name rest ih =>
    cases htop with
    | file content => simp [find?] at h
    | folder hproper hbelow =>
      rw [find?_folder_cons] at h
      obtain ⟨sub, hsub, hrest⟩ := Option.bind_eq_some_iff.mp h
      have hmem := mem_of_lookup hsub
      exact List.forall_mem_cons.mpr ⟨hproper _ hmem, ih (hbelow _ hmem) hrest⟩

end FileTree

/-! Names of sources -/

namespace Path

def sourceEndings : List Text :=
  ["js", "jsx", "mjs", "cjs", "ts", "mts", "cts", "tsx"].map Text.ofString

theorem suffixOf_of_dot {stem ending : Text} (hstem : stem ≠ []) (hending : ending ≠ [])
    (hdot : dot ∉ ending) : suffixOf (stem ++ dot :: ending) = dot :: ending := by
  have htake : (stem ++ dot :: ending).reverse.takeWhile (· ≠ dot) = ending.reverse := by
    have hall : ∀ p ∈ ending.reverse, decide (p ≠ dot) = true := by
      intro p hp
      rw [decide_eq_true_eq]
      rintro rfl
      exact hdot (List.mem_reverse.mp hp)
    rw [List.reverse_append, List.reverse_cons, List.append_assoc,
      List.takeWhile_append_of_pos hall]
    simp
  have hlength : 0 < stem.length := List.length_pos_iff.mpr hstem
  unfold suffixOf
  rw [htake, List.reverse_reverse]
  simp [hending]
  omega

/-- A suffix is what a name ends with from a point on that is not its first character. -/
theorem exists_of_suffixOf {name : Text} (h : suffixOf name ≠ []) :
    ∃ stem ending, name = stem ++ dot :: ending ∧ stem ≠ [] ∧ suffixOf name = dot :: ending := by
  unfold suffixOf at h ⊢
  have hsplit := List.takeWhile_append_dropWhile (p := (· ≠ dot)) (l := name.reverse)
  have hhead := List.head?_dropWhile_not (· ≠ dot) name.reverse
  generalize name.reverse.takeWhile (· ≠ dot) = ending at h hsplit ⊢
  generalize name.reverse.dropWhile (· ≠ dot) = stem at hsplit hhead
  have hname : name = stem.reverse ++ ending.reverse := by
    rw [← List.reverse_append, hsplit, List.reverse_reverse]
  by_cases hlong : ending.reverse ≠ [] ∧ ending.reverse.length + 1 < name.length
  · cases stem with
    | nil =>
      have hlength := congrArg List.length hname
      rw [List.length_append, List.reverse_nil, List.length_nil] at hlength
      omega
    | cons p stem =>
      have hp : p = dot := by simpa using hhead
      subst hp
      refine ⟨stem.reverse, ending.reverse, by simpa using hname, ?_, if_pos hlong⟩
      rintro hstem
      rw [hname, List.reverse_cons, hstem] at hlong
      simp at hlong
  · exact absurd (if_neg hlong) h

theorem isSome_dialectOf?_iff {ending : Text} :
    (dialectOf? (dot :: ending)).isSome ↔ toLower ending ∈ sourceEndings := by
  have hdialects : dialects.map (fun d => Text.ofString d.1) = sourceEndings.map (dot :: ·) := by
    decide +kernel
  have hlower : toLower (dot :: ending) = dot :: toLower ending := rfl
  rw [dialectOf?, Option.isSome_map, List.find?_isSome, hlower]
  calc (∃ d ∈ dialects, decide (Text.ofString d.1 = dot :: toLower ending) = true)
    _ ↔ dot :: toLower ending ∈ dialects.map (fun d => Text.ofString d.1) := by simp
    _ ↔ toLower ending ∈ sourceEndings := by
      rw [hdialects]
      simp

theorem mem_toLower {t : Text} (h : dot ∈ t) : dot ∈ toLower t := List.mem_map.mpr ⟨dot, h, rfl⟩

end Path

namespace Discovery

/-- The name ends like `.js` or `.TSX`, after at least one character. -/
def HasSourceSuffix (name : Text) : Prop :=
  ∃ stem ending, name = stem ++ Path.dot :: ending ∧ stem ≠ [] ∧
    Path.toLower ending ∈ Path.sourceEndings

theorem isSupported_iff {name : Text} : isSupported name ↔ HasSourceSuffix name := by
  constructor
  · intro h
    have hsuffix : Path.suffixOf name ≠ [] := by
      intro hnone
      rw [isSupported, hnone] at h
      revert h
      decide +kernel
    obtain ⟨stem, ending, hname, hstem, hending⟩ := Path.exists_of_suffixOf hsuffix
    rw [isSupported, hending, Path.isSome_dialectOf?_iff] at h
    exact ⟨stem, ending, hname, hstem, h⟩
  · rintro ⟨stem, ending, rfl, hstem, hlower⟩
    have hplain : ∀ e ∈ Path.sourceEndings, e ≠ [] ∧ Path.dot ∉ e := by decide +kernel
    obtain ⟨hne, hdot⟩ := hplain _ hlower
    have hending : ending ≠ [] := by
      rintro rfl
      exact hne rfl
    rw [isSupported, Path.suffixOf_of_dot hstem hending (fun h => hdot (Path.mem_toLower h)),
      Path.isSome_dialectOf?_iff]
    exact hlower

/-- A folder on the way to a file that is looked into. -/
def IsEntered (folder : Text) : Prop := folder.head? ≠ some Path.dot ∧ folder ∉ generatedFolders

theorem isSkipped_iff {folder : Text} (hfolder : Path.IsName folder) :
    isSkipped folder ↔ ¬ IsEntered folder := by
  have hdot := hfolder.dot
  have hparent := hfolder.parent
  simp only [isSkipped, IsEntered, Bool.or_eq_true, Bool.and_eq_true, decide_eq_true_eq]
  tauto

structure IsSource (top : FileTree) (file : Place) : Prop where
  isFile : ∃ content, top.find? file = some (.file content)
  suffix : ∃ name, file.getLast? = some name ∧ HasSourceSuffix name

/-- An argument stands for a source file: it is the file, or a folder above it from which the file is
reached through folders that are looked into. -/
def Contributes (top : FileTree) (p file : Place) : Prop :=
  IsSource top file ∧
    (file = p ∨ ∃ folders name, file = p ++ (folders ++ [name]) ∧ ∀ f ∈ folders, IsEntered f)

theorem not_any_isSkipped_iff {folders : Place} (hnames : ∀ f ∈ folders, Path.IsName f) :
    ¬ folders.any isSkipped ↔ ∀ f ∈ folders, IsEntered f := by
  rw [Bool.not_eq_true, List.any_eq_false]
  refine forall₂_congr fun f hf => ?_
  rw [isSkipped_iff (hnames f hf), not_not]

theorem isSupported_getLast_iff {p : Place} :
    isSupported (p.getLast?.getD []) ↔ ∃ name, p.getLast? = some name ∧ HasSourceSuffix name := by
  cases p.getLast? with
  | none =>
    have hnone : isSupported [] = false := by decide +kernel
    simp [hnone]
  | some name => simp [isSupported_iff]

theorem mem_sources_iff_of_find? {top : FileTree} (htop : top.HasDistinctNames) {p : Place}
    {entries : List (Text × FileTree)} (hfind : top.find? p = some (.folder entries))
    {names : Place} :
    names ∈ sources (FileTree.insideAll entries) ↔ names ≠ [] ∧ IsSource top (p ++ names) := by
  rw [mem_sources_iff, isSupported_getLast_iff]
  simp only [FileTree.mem_insideAll_iff_of_find? htop hfind]
  constructor
  · rintro ⟨⟨content, hne, hfile⟩, hsuffix⟩
    exact ⟨hne, ⟨content, hfile⟩, by rwa [List.getLast?_append_of_ne_nil p hne]⟩
  · rintro ⟨hne, ⟨content, hfile⟩, hsuffix⟩
    exact ⟨⟨content, hne, hfile⟩, by rwa [List.getLast?_append_of_ne_nil p hne] at hsuffix⟩

theorem mem_filesAt_iff_contributes {top : FileTree} (htop : top.IsFileSystem) {p file : Place} :
    file ∈ filesAt top p ↔ Contributes top p file := by
  have hnames {q : Place} (h : IsSource top q) : ∀ name ∈ q, Path.IsName name := by
    obtain ⟨content, hfile⟩ := h.isFile
    exact FileTree.isName_of_find? htop.proper hfile
  rw [mem_filesAt_iff]
  constructor
  · rintro (⟨content, hfile, hsuffix, rfl⟩ | ⟨entries, names, hfolder, hsource, htaken, rfl⟩)
    · exact ⟨⟨⟨content, hfile⟩, isSupported_getLast_iff.mp hsuffix⟩, .inl rfl⟩
    · obtain ⟨hne, hsource⟩ := (mem_sources_iff_of_find? htop.distinct hfolder).mp hsource
      obtain ⟨folders, name, rfl⟩ := (List.eq_nil_or_concat' names).resolve_left hne
      rw [List.dropLast_concat,
        not_any_isSkipped_iff fun f hf => hnames hsource f (by simp [hf])] at htaken
      exact ⟨hsource, .inr ⟨folders, name, rfl, htaken⟩⟩
  · rintro ⟨hsource, rfl | ⟨folders, name, rfl, hfolders⟩⟩
    · obtain ⟨content, hfile⟩ := hsource.isFile
      exact .inl ⟨content, hfile, isSupported_getLast_iff.mpr hsource.suffix, rfl⟩
    · obtain ⟨content, hfile⟩ := hsource.isFile
      have hne : folders ++ [name] ≠ [] := by simp
      obtain ⟨entries, hentries⟩ := FileTree.exists_folder_of_find? hne hfile
      refine .inr ⟨entries, folders ++ [name], hentries,
        (mem_sources_iff_of_find? htop.distinct hentries).mpr ⟨hne, hsource⟩, ?_, rfl⟩
      rw [List.dropLast_concat, not_any_isSkipped_iff fun f hf => hnames hsource f (by simp [hf])]
      exact hfolders

/-! Order -/

theorem pairwise_filesAt (top : FileTree) (p : Place) :
    (filesAt top p).Pairwise fun a b => a = b ∨ Place.Precedes a b := by
  unfold filesAt
  cases top.find? p with
  | none => exact .nil
  | some t =>
    rw [Option.map_some, Option.getD_some]
    cases t with
    | file content => by_cases hname : isSupported (p.getLast?.getD []) <;> simp [filesOf, hname]
    | folder entries =>
      rw [filesOf, List.pairwise_map]
      have hsorted : (sources (FileTree.insideAll entries)).Pairwise (Place.before · ·) :=
        List.pairwise_mergeSort Place.before_trans Place.before_total _
      refine (hsorted.filter _).imp ?_
      intro a b hab
      rcases Place.before_iff.mp hab with rfl | hlt
      · exact .inl rfl
      · exact .inr (hlt.append_left _ p)

/-- One file comes before another if it is contributed by an earlier argument, or by the same one and
its names come first. Only the first argument that contributes a file counts. -/
def ComesBefore (top : FileTree) (places : List Place) (a b : Place) : Prop :=
  ∃ earlier p later, places = earlier ++ p :: later ∧
    (∀ q ∈ earlier, ¬ Contributes top q a ∧ ¬ Contributes top q b) ∧
    Contributes top p a ∧ (Contributes top p b → Place.Precedes a b)

theorem ComesBefore.append {top : FileTree} {places : List Place} {a b : Place}
    (h : ComesBefore top places a b) (more : List Place) : ComesBefore top (places ++ more) a b := by
  obtain ⟨earlier, p, later, rfl, hearlier, ha, hb⟩ := h
  exact ⟨earlier, p, later ++ more, by simp, hearlier, ha, hb⟩

theorem comesBefore_of_not_contributes {top : FileTree} {places : List Place} {a b : Place}
    (ha : ∃ p ∈ places, Contributes top p a) (hb : ∀ p ∈ places, ¬ Contributes top p b) :
    ComesBefore top places a b := by
  induction places with
  | nil => simp at ha
  | cons p places ih =>
    obtain ⟨hbp, hbplaces⟩ := List.forall_mem_cons.mp hb
    by_cases hap : Contributes top p a
    · exact ⟨[], p, places, rfl, by simp, hap, fun h => absurd h hbp⟩
    · have haplaces : ∃ q ∈ places, Contributes top q a := by simpa [hap] using ha
      obtain ⟨earlier, q, later, rfl, hearlier, hrest⟩ := ih haplaces hbplaces
      exact ⟨p :: earlier, q, later, rfl, List.forall_mem_cons.mpr ⟨⟨hap, hbp⟩, hearlier⟩, hrest⟩

theorem contributes_of_mem_flatMap {top : FileTree} (htop : top.IsFileSystem) {places : List Place}
    {file : Place} :
    file ∈ places.flatMap (filesAt top) ↔ ∃ p ∈ places, Contributes top p file := by
  simp only [List.mem_flatMap, mem_filesAt_iff_contributes htop]

theorem pairwise_comesBefore {top : FileTree} (htop : top.IsFileSystem) (places : List Place) :
    (places.flatMap (filesAt top)).eraseDups.Pairwise (ComesBefore top places) := by
  -- one argument more adds files after the others, and only such as no argument before contributes
  induction places using List.reverseRecOn with
  | nil => exact .nil
  | append_singleton places p ih =>
    rw [List.flatMap_append, List.flatMap_singleton, List.eraseDups_append, List.pairwise_append]
    generalize hadded : (filesAt top p).removeAll (places.flatMap (filesAt top)) = added
    have hsublist : added.eraseDups.Sublist (filesAt top p) :=
      (eraseDups_sublist added).trans (hadded ▸ List.filter_sublist)
    have hnew : ∀ b ∈ added.eraseDups, ∀ q ∈ places, ¬ Contributes top q b := by
      intro b hb q hq hcontributes
      have hmem : b ∈ places.flatMap (filesAt top) :=
        (contributes_of_mem_flatMap htop).mpr ⟨q, hq, hcontributes⟩
      rw [List.mem_eraseDups, ← hadded, List.removeAll, List.mem_filter] at hb
      simp [hmem] at hb
    refine ⟨ih.imp fun h => h.append [p], ?_, ?_⟩
    · have hstrict := ((pairwise_filesAt top p).sublist hsublist).and (nodup_eraseDups added)
      refine hstrict.imp_of_mem fun {a b} ha hb hab => ?_
      refine ⟨places, p, [], rfl, fun q hq => ⟨hnew a ha q hq, hnew b hb q hq⟩, ?_, fun _ => ?_⟩
      · exact (mem_filesAt_iff_contributes htop).mp (hsublist.subset ha)
      · exact hab.1.resolve_left hab.2
    · intro a ha b hb
      have ha' := (contributes_of_mem_flatMap htop).mp (List.mem_eraseDups.mp ha)
      exact (comesBefore_of_not_contributes ha' (hnew b hb)).append [p]

end Discovery

/-! Places written out -/

namespace Place

theorem parts_toText {p : Place} (h : ∀ name ∈ p, Path.IsName name) :
    (Path.ofText p.toText).parts = p := by
  rw [Path.ofText, toText, Path.segments, if_pos rfl]
  cases p with
  | nil => rfl
  | cons name rest =>
    rw [Path.segments_join (List.cons_ne_nil name rest) fun s hs => (h s hs).slash]
    have hkept : ∀ s ∈ name :: rest, (s ≠ [] && s ≠ [Path.dot]) = true := by
      intro s hs
      simp [(h s hs).nonempty, (h s hs).dot]
    exact List.filter_eq_self.mpr hkept

theorem leadingSlashes_toText {p : Place} (h : ∀ name ∈ p, Path.IsName name) :
    Path.leadingSlashes p.toText = 1 := by
  cases p with
  | nil => rfl
  | cons name rest =>
    have hname := h name List.mem_cons_self
    cases name with
    | nil => exact absurd rfl hname.nonempty
    | cons c name =>
      have hc : c ≠ Path.slash := fun heq => hname.slash (heq ▸ List.mem_cons_self)
      obtain ⟨more, hmore⟩ : ∃ more, Text.join [Path.slash] ((c :: name) :: rest) = c :: more := by
        cases rest with
        | nil => exact ⟨_, List.intercalate_singleton⟩
        | cons next rest => exact ⟨_, List.intercalate_cons_cons⟩
      simp [Path.leadingSlashes, toText, hmore, hc]

theorem isNamable_toText {p : Place} (h : ∀ name ∈ p, Path.IsNamable name) :
    Path.IsNamable p.toText := by
  refine List.forall_mem_cons.mpr ⟨by decide, ?_⟩
  exact Path.isNamable_join_iff.mpr h

theorem resolve_toText {p : Place} (h : ∀ name ∈ p, Path.IsName name) (here : Place) :
    (Path.ofText p.toText).resolve here = p := by
  have hparent : parentName ∉ p := fun hmem => (h _ hmem).parent rfl
  have hslashes : (Path.ofText p.toText).slashes = 1 := leadingSlashes_toText h
  rw [Path.resolve, parts_toText h, hslashes, if_neg Nat.one_ne_zero,
    foldl_step_of_no_parent hparent, List.nil_append]

end Place

namespace Discovery

/-! Failures -/

/-- Discovery raises this as an error of the argument. -/
def Failure.IsReported : Failure → Prop
  | unnamable _ | missing _ => True
  | tooLong _ => False

/-- To tell the files at a place, the file system is asked for the place itself, and for the folders
and the source files below it. -/
def Asks (top : FileTree) (p q : Place) : Prop :=
  q = p ∨ ∃ names, names ≠ [] ∧ q = p ++ names ∧
    ((∃ entries, top.find? q = some (.folder entries)) ∨ IsSource top q)

/-- The argument can be named, but the file system refuses something that it is asked for to tell
its files. -/
def IsRefused (top : FileTree) (here : Place) (path : Text) : Prop :=
  Path.IsNamable path ∧ ∃ q, Asks top ((Path.ofText path).resolve here) q ∧ top.Refuses q

theorem Asks.eq_of_find?_eq_none {top : FileTree} {p q : Place} (h : Asks top p q)
    (hnone : top.find? p = none) : q = p := by
  rcases h with rfl | ⟨names, hne, rfl, ⟨entries, hfind⟩ | ⟨⟨content, hfind⟩, -⟩⟩
  · rfl
  · obtain ⟨_, hp⟩ := FileTree.exists_folder_of_find? hne hfind
    simp [hnone] at hp
  · obtain ⟨_, hp⟩ := FileTree.exists_folder_of_find? hne hfind
    simp [hnone] at hp

theorem Asks.exists_find? {top t : FileTree} {p q : Place} (h : Asks top p q)
    (ht : top.find? p = some t) : ∃ s, top.find? q = some s := by
  rcases h with rfl | ⟨names, -, rfl, ⟨entries, hfind⟩ | ⟨⟨content, hfind⟩, -⟩⟩
  · exact ⟨t, ht⟩
  · exact ⟨_, hfind⟩
  · exact ⟨_, hfind⟩

theorem mem_askedAt_iff {top : FileTree} (htop : top.HasDistinctNames) {p q : Place} :
    q ∈ askedAt top p ↔ Asks top p q := by
  rw [askedAt, List.mem_cons, Asks]
  refine or_congr_right ?_
  cases hfind : top.find? p with
  | none =>
    refine iff_of_false (by simp) ?_
    rintro ⟨names, hne, rfl, hthere⟩
    have hasks : Asks top p (p ++ names) := .inr ⟨names, hne, rfl, hthere⟩
    exact hne (List.append_right_eq_self.mp (hasks.eq_of_find?_eq_none hfind))
  | some t =>
    cases t with
    | file content =>
      refine iff_of_false (by simp [asked]) ?_
      rintro ⟨names, hne, rfl, hthere⟩
      have hasks : Asks top p (p ++ names) := .inr ⟨names, hne, rfl, hthere⟩
      obtain ⟨s, hs⟩ := hasks.exists_find? hfind
      obtain ⟨entries, hentries⟩ := FileTree.exists_folder_of_find? hne hs
      rw [hfind] at hentries
      cases hentries
    | folder entries =>
      simp only [Option.map_some, Option.getD_some, asked, List.mem_map, List.mem_append,
        mem_folders_iff, mem_sources_iff_of_find? htop hfind,
        FileTree.mem_insideAll_iff_of_find? htop hfind]
      constructor
      · rintro ⟨names, ⟨entries', hne, hfolder⟩ | ⟨hne, hsource⟩, rfl⟩
        · exact ⟨names, hne, rfl, .inl ⟨entries', hfolder⟩⟩
        · exact ⟨names, hne, rfl, .inr hsource⟩
      · rintro ⟨names, hne, rfl, ⟨entries', hfolder⟩ | hsource⟩
        · exact ⟨names, .inl ⟨entries', hne, hfolder⟩, rfl⟩
        · exact ⟨names, .inr ⟨hne, hsource⟩, rfl⟩

theorem opens_iff {top : FileTree} (htop : top.HasDistinctNames) {p : Place} :
    Opens top p ↔ (top.find? p).isSome ∧ ∀ q, Asks top p q → ¬ top.Refuses q := by
  refine and_congr_right fun hsome => ?_
  obtain ⟨t, ht⟩ := Option.isSome_iff_exists.mp hsome
  refine forall_congr' fun q => ?_
  rw [mem_askedAt_iff htop]
  refine imp_congr_right fun hasks => ?_
  obtain ⟨s, hs⟩ := hasks.exists_find? ht
  rw [FileTree.refuses_iff_of_find? hs]

theorem opens_of_find? {top : FileTree} (htop : top.HasDistinctNames)
    (hshort : ∀ e ∈ top.inside, ¬ e.1.isTooLong) {p : Place} (hp : (top.find? p).isSome) :
    Opens top p := by
  refine (opens_iff htop).mpr ⟨hp, fun q hasks hrefuses => ?_⟩
  obtain ⟨t, ht⟩ := Option.isSome_iff_exists.mp hp
  obtain ⟨s, hs⟩ := hasks.exists_find? ht
  rw [FileTree.refuses_iff_of_find? hs] at hrefuses
  by_cases hq : q = []
  · subst hq
    exact absurd hrefuses (by decide)
  · exact hshort (q, s) ((FileTree.mem_inside_iff htop).mpr ⟨hq, hs⟩) hrefuses

/-- One argument: its files can be told, or it leads nowhere, or the file system refuses. -/
theorem found_cases {top : FileTree} (htop : top.HasDistinctNames) (here : Place) (path : Text) :
    ((∃ files, found top here path = .ok files) ∧ IsPresent top here path ∧
      ¬ IsRefused top here path) ∨
    ((∃ e : Failure, e.IsReported ∧ found top here path = .error e) ∧
      ¬ IsPresent top here path ∧ ¬ IsRefused top here path) ∨
    ((∃ q, found top here path = .error (.tooLong q)) ∧ IsRefused top here path) := by
  by_cases hnamable : Path.IsNamable path
  · rw [found_of_isNamable hnamable, IsPresent, IsRefused]
    generalize (Path.ofText path).resolve here = p
    cases hfind : top.find? p with
    | none =>
      by_cases hrefuses : top.Refuses p
      · exact .inr (.inr ⟨⟨p, candidates_of_refuses hrefuses⟩, hnamable, p, .inl rfl, hrefuses⟩)
      · have hmissing := candidates_of_find?_eq_none hfind hrefuses
        refine .inr (.inl ⟨⟨.missing p, trivial, hmissing⟩, by simp, ?_⟩)
        rintro ⟨-, q, hasks, hq⟩
        exact hrefuses (hasks.eq_of_find?_eq_none hfind ▸ hq)
    | some t =>
      by_cases hopens : Opens top p
      · refine .inl ⟨⟨_, candidates_of_opens hopens⟩, ⟨hnamable, rfl⟩, ?_⟩
        rintro ⟨-, q, hasks, hrefuses⟩
        exact ((opens_iff htop).mp hopens).2 q hasks hrefuses
      · have hthere : (top.find? p).isSome := by rw [hfind]; rfl
        have hrefused : ∃ q, Asks top p q ∧ top.Refuses q := by
          by_contra hnone
          refine hopens ((opens_iff htop).mpr ⟨hthere, fun q hasks hrefuses => ?_⟩)
          exact hnone ⟨q, hasks, hrefuses⟩
        exact .inr (.inr ⟨exists_candidates_eq_tooLong hthere hopens, hnamable, hrefused⟩)
  · have hfault := mt Path.resolveFault?_ofText_eq_none_iff.mp hnamable
    obtain ⟨fault, hfault⟩ := Option.ne_none_iff_exists'.mp hfault
    refine .inr (.inl ⟨⟨.unnamable fault, trivial, ?_⟩, fun h => hnamable h.1,
      fun h => hnamable h.1⟩)
    simp only [found, hfault]

theorem exists_found_iff {top : FileTree} (htop : top.HasDistinctNames) {here : Place}
    {path : Text} :
    (∃ files, found top here path = .ok files) ↔
      IsPresent top here path ∧ ¬ IsRefused top here path := by
  rcases found_cases htop here path with ⟨hok, h⟩ | ⟨⟨e, -, he⟩, h⟩ | ⟨⟨q, hq⟩, h⟩
  · exact iff_of_true hok h
  · exact iff_of_false (by simp [he]) fun h' => h.1 h'.1
  · exact iff_of_false (by simp [hq]) fun h' => h'.2 h

theorem found_reports_iff {top : FileTree} (htop : top.HasDistinctNames) {here : Place}
    {path : Text} :
    (∃ e : Failure, e.IsReported ∧ found top here path = .error e) ↔
      ¬ IsPresent top here path ∧ ¬ IsRefused top here path := by
  rcases found_cases htop here path with ⟨⟨files, hfiles⟩, h⟩ | ⟨he, h⟩ | ⟨⟨q, hq⟩, h⟩
  · exact iff_of_false (by simp [hfiles]) fun h' => h'.1 h.1
  · exact iff_of_true he h
  · exact iff_of_false (by simp [hq, Failure.IsReported]) fun h' => h'.2 h

theorem found_tooLong_iff {top : FileTree} (htop : top.HasDistinctNames) {here : Place}
    {path : Text} :
    (∃ q, found top here path = .error (.tooLong q)) ↔ IsRefused top here path := by
  rcases found_cases htop here path with ⟨⟨files, hfiles⟩, h⟩ | ⟨⟨e, hreported, he⟩, h⟩ | ⟨hq, h⟩
  · exact iff_of_false (by simp [hfiles]) h.2
  · refine iff_of_false ?_ h.2
    rintro ⟨q, hq⟩
    rw [he, Except.error.injEq] at hq
    subst hq
    exact hreported
  · exact iff_of_true hq h

/-- Discovery fails as the first argument does whose files cannot be told. -/
theorem discover_eq_error_iff {top : FileTree} (htop : top.HasDistinctNames) {here : Place}
    {paths : List Text} {e : Failure} :
    discover top here paths = .error e ↔
      ∃ before path after, paths = before ++ path :: after ∧
        (∀ other ∈ before, IsPresent top here other ∧ ¬ IsRefused top here other) ∧
        found top here path = .error e := by
  simp only [discover, map_eq_error_iff, mapM_eq_error_iff, exists_found_iff htop]

theorem exists_discover_iff {top : FileTree} (htop : top.HasDistinctNames) {here : Place}
    {paths : List Text} :
    (∃ files, discover top here paths = .ok files) ↔
      ∀ path ∈ paths, IsPresent top here path ∧ ¬ IsRefused top here path := by
  simp only [discover_eq_ok_iff, ← exists_found_iff htop, found_eq_ok_iff, exists_and_left,
    exists_eq, and_true]

/-! Discovering again -/

theorem filesAt_of_isSource {top : FileTree} {file : Place} (h : IsSource top file) :
    filesAt top file = [file] := by
  obtain ⟨content, hfile⟩ := h.isFile
  rw [filesAt, hfile, Option.map_some, Option.getD_some, filesOf,
    if_pos (isSupported_getLast_iff.mpr h.suffix)]

theorem opens_of_isSource {top : FileTree} {file : Place} (h : IsSource top file)
    (hshort : ¬ file.isTooLong) : Opens top file := by
  obtain ⟨content, hfile⟩ := h.isFile
  rw [Opens, askedAt, hfile]
  exact ⟨rfl, List.forall_mem_singleton.mpr hshort⟩

theorem discover_toText {top : FileTree} (htop : top.HasProperNames) {files : List Place}
    (hnodup : files.Nodup) (hfiles : ∀ file ∈ files, IsSource top file)
    (hshort : ∀ file ∈ files, ¬ file.isTooLong) (here : Place) :
    discover top here (files.map Place.toText) = .ok files := by
  have hnames : ∀ file ∈ files, ∀ name ∈ file, Path.IsName name := by
    intro file hfile
    obtain ⟨content, hfind⟩ := (hfiles file hfile).isFile
    exact FileTree.isName_of_find? htop hfind
  have hplaces : namedPlaces here (files.map Place.toText) = files := by
    rw [namedPlaces, List.map_map]
    refine (List.map_congr_left fun file hfile => ?_).trans (List.map_id files)
    exact Place.resolve_toText (hnames file hfile) here
  have hflat : files.flatMap (filesAt top) = files := by
    calc files.flatMap (filesAt top)
      _ = files.flatMap ([·]) := List.flatMap_congr fun f hf => filesAt_of_isSource (hfiles f hf)
      _ = files := List.flatMap_singleton' files
  rw [discover_eq_ok_iff, hplaces, hflat]
  refine ⟨List.forall_mem_map.mpr fun file hfile => ⟨?_, ?_⟩, (eraseDups_of_nodup hnodup).symm⟩
  · exact Place.isNamable_toText fun name hname => (hnames file hfile name hname).namable
  · rw [Place.resolve_toText (hnames file hfile)]
    exact opens_of_isSource (hfiles file hfile) (hshort file hfile)

/-- Discovery reports an argument that leads nowhere, unless the file system refuses what it is
asked for, for this argument or one before it; then it breaks off with the refusal. If all arguments
exist and nothing is refused, it finds exactly the files that they stand for, each once, by the first
argument that contributes them and then by their names, and discovers what it found again
unchanged. -/
theorem discover_finds_contributed_unless_refused {top : FileTree} (htop : top.IsFileSystem)
    (here : Place) (paths : List Text) :
    ((∃ e : Failure, e.IsReported ∧ discover top here paths = .error e) ↔
      ∃ before path after, paths = before ++ path :: after ∧
        (∀ other ∈ before, IsPresent top here other ∧ ¬ IsRefused top here other) ∧
        ¬ IsPresent top here path ∧ ¬ IsRefused top here path) ∧
    ((∃ q, discover top here paths = .error (.tooLong q)) ↔
      ∃ before path after, paths = before ++ path :: after ∧
        (∀ other ∈ before, IsPresent top here other ∧ ¬ IsRefused top here other) ∧
        IsRefused top here path) ∧
    ((∃ files, discover top here paths = .ok files) ↔
      ∀ path ∈ paths, IsPresent top here path ∧ ¬ IsRefused top here path) ∧
    ∀ files, discover top here paths = .ok files →
      files.Nodup ∧
      files.Pairwise (ComesBefore top (namedPlaces here paths)) ∧
      (∀ file, file ∈ files ↔ ∃ p ∈ namedPlaces here paths, Contributes top p file) ∧
      ∀ here', discover top here' (files.map Place.toText) = .ok files := by
  refine ⟨?_, ?_, exists_discover_iff htop.distinct, fun files h => ?_⟩
  · simp only [discover_eq_error_iff htop.distinct, ← found_reports_iff htop.distinct]
    constructor
    · rintro ⟨e, he, before, path, after, hpaths, hbefore, hpath⟩
      exact ⟨before, path, after, hpaths, hbefore, e, he, hpath⟩
    · rintro ⟨before, path, after, hpaths, hbefore, e, he, hpath⟩
      exact ⟨e, he, before, path, after, hpaths, hbefore, hpath⟩
  · simp only [discover_eq_error_iff htop.distinct, ← found_tooLong_iff htop.distinct]
    constructor
    · rintro ⟨q, before, path, after, hpaths, hbefore, hpath⟩
      exact ⟨before, path, after, hpaths, hbefore, q, hpath⟩
    · rintro ⟨before, path, after, hpaths, hbefore, q, hpath⟩
      exact ⟨q, before, path, after, hpaths, hbefore, hpath⟩
  · obtain ⟨-, hfiles⟩ := discover_eq_ok_iff.mp h
    have hmem : ∀ file, file ∈ files ↔ ∃ p ∈ namedPlaces here paths, Contributes top p file := by
      intro file
      rw [hfiles, List.mem_eraseDups, contributes_of_mem_flatMap htop]
    refine ⟨nodup_discover h, hfiles ▸ pairwise_comesBefore htop _, hmem, ?_⟩
    refine discover_toText htop.proper (nodup_discover h) (fun file hfile => ?_)
      fun file hfile => not_isTooLong_of_mem_discover h hfile
    obtain ⟨p, -, hsource, -⟩ := (hmem file).mp hfile
    exact hsource

def builtTree : FileTree :=
  .folder [(Text.ofString "dist", .folder [(Text.ofString "out.js", .file [])]),
    (Text.ofString "A.JS", .file [])]

theorem isFileSystem_builtTree : builtTree.IsFileSystem where
  distinct := .folder (by decide +kernel) <| List.forall_mem_cons.mpr
    ⟨.folder (by decide +kernel) (List.forall_mem_singleton.mpr (.file [])),
      List.forall_mem_singleton.mpr (.file [])⟩
  proper := .folder (by decide +kernel) <| List.forall_mem_cons.mpr
    ⟨.folder (by decide +kernel) (List.forall_mem_singleton.mpr (.file [])),
      List.forall_mem_singleton.mpr (.file [])⟩

def builtFile : Place := ["dist", "out.js"].map Text.ofString

theorem contributes_builtFile : Contributes builtTree builtFile builtFile := by
  refine ⟨⟨⟨[], by rfl⟩, Text.ofString "out.js", by decide +kernel, ?_⟩, .inl rfl⟩
  exact ⟨Text.ofString "out", Text.ofString "js", by decide +kernel, by decide +kernel,
    by decide +kernel⟩

theorem not_contributes_top : ¬ Contributes builtTree [] builtFile := by
  rintro ⟨-, h | ⟨folders, name, h, hfolders⟩⟩
  · exact absurd h (by decide +kernel)
  · have hinit : folders = [Text.ofString "dist"] := by
      have hdrop := congrArg List.dropLast h
      rw [List.nil_append, List.dropLast_concat] at hdrop
      exact hdrop.symm
    subst hinit
    have hgenerated : Text.ofString "dist" ∈ generatedFolders := by decide +kernel
    exact (hfolders _ (List.mem_singleton_self _)).2 hgenerated

theorem exists_discover_builtTree {paths : List Text}
    (h : ∀ path ∈ paths, IsPresent builtTree [] path) :
    ∃ files, discover builtTree [] paths = .ok files := by
  have hshort : ∀ e ∈ builtTree.inside, ¬ e.1.isTooLong := by decide +kernel
  refine ⟨_, discover_eq_ok_iff.mpr ⟨fun path hpath => ⟨(h path hpath).1, ?_⟩, rfl⟩⟩
  exact opens_of_find? isFileSystem_builtTree.distinct hshort (h path hpath).2

def longName : Text := List.replicate (Path.nameLimit + 1) (.scalar 'a')

theorem isRefused_longName : IsRefused builtTree [] longName := by
  have hplace : (Path.ofText longName).resolve [] = [longName] := by decide +kernel
  refine ⟨by decide +kernel, [longName], .inl hplace.symm, .inr ?_⟩
  exact ⟨[], longName, [], rfl, ⟨_, rfl⟩, by decide +kernel⟩

/-- A generated file is found if it is named, once, and not from above. A name that is too long is
refused, and not reported as one that leads nowhere. -/
theorem discover_finds_builtFile_only_named :
    builtTree.IsFileSystem ∧
    (∃ files, discover builtTree [] ([".", "dist/out.js", "dist"].map Text.ofString) = .ok files ∧
      files.Nodup ∧ builtFile ∈ files ∧
      discover builtTree [] (files.map Place.toText) = .ok files) ∧
    (∃ files, discover builtTree [] ([".", "."].map Text.ofString) = .ok files ∧
      builtFile ∉ files) ∧
    ∃ q, discover builtTree [] [longName] = .error (.tooLong q) := by
  refine ⟨isFileSystem_builtTree, ?_, ?_, ?_⟩
  · obtain ⟨files, hfiles⟩ : ∃ files, discover builtTree []
        ([".", "dist/out.js", "dist"].map Text.ofString) = .ok files :=
      exists_discover_builtTree (by decide +kernel)
    obtain ⟨hnodup, -, hmem, hagain⟩ :=
      (discover_finds_contributed_unless_refused isFileSystem_builtTree [] _).2.2.2 files hfiles
    exact ⟨files, hfiles, hnodup,
      (hmem _).mpr ⟨builtFile, by decide +kernel, contributes_builtFile⟩, hagain []⟩
  · obtain ⟨files, hfiles⟩ : ∃ files, discover builtTree []
        ([".", "."].map Text.ofString) = .ok files :=
      exists_discover_builtTree (by decide +kernel)
    refine ⟨files, hfiles, fun h => ?_⟩
    obtain ⟨-, -, hmem, -⟩ :=
      (discover_finds_contributed_unless_refused isFileSystem_builtTree [] _).2.2.2 files hfiles
    obtain ⟨p, hp, hcontributes⟩ := (hmem _).mp h
    have htop : p = [] := by
      have hall : ∀ p ∈ namedPlaces [] ([".", "."].map Text.ofString), p = [] := by decide +kernel
      exact hall p hp
    exact not_contributes_top (htop ▸ hcontributes)
  · refine (discover_finds_contributed_unless_refused isFileSystem_builtTree [] _).2.1.mpr ?_
    exact ⟨[], longName, [], rfl, by simp, isRefused_longName⟩

end Discovery

end ParamLint

import ParamLint.Proofs.DiscoveryOrder
import ParamLint.Proofs.Run

/-!
# The dialect of a discovered file

A file is discovered by the suffix of its name, and read in the dialect of the path under which it
is reported, where backslashes are slashes. The two agree unless nothing stands between a backslash
and the suffix, or the file is the root itself. Then the path has no suffix, and the file is read as
JavaScript, whatever it holds.
-/
namespace ParamLint

namespace Path

/-! The last part of a path -/

/-- A text is a name, or ends in one after a slash. -/
def EndsIn (t name : Text) : Prop := t = name ∨ ∃ front, t = front ++ slash :: name

theorem EndsIn.trans {t s name : Text} (h : EndsIn t s) (h' : EndsIn s name) : EndsIn t name := by
  rcases h with rfl | ⟨front, rfl⟩
  · exact h'
  · rcases h' with rfl | ⟨middle, rfl⟩
    · exact .inr ⟨front, rfl⟩
    · exact .inr ⟨front ++ slash :: middle, by simp⟩

theorem segments_ne_nil (t : Text) : segments t ≠ [] := by
  rw [segments_eq_splitOn]
  exact List.splitOnP_ne_nil _ t

theorem segments_of_not_mem {name : Text} (h : slash ∉ name) : segments name = [name] := by
  have hjoin := segments_join (List.cons_ne_nil name []) (List.forall_mem_singleton.mpr h)
  rwa [Text.join, List.intercalate_singleton] at hjoin

theorem segments_append_slash (front t : Text) :
    segments (front ++ slash :: t) = segments front ++ segments t := by
  induction front with
  | nil => simp [segments]
  | cons p front ih =>
    rw [List.cons_append, segments, segments, ih]
    by_cases hp : p = slash
    · rw [if_pos hp, if_pos hp, List.cons_append]
    · rw [if_neg hp, if_neg hp]
      cases hfront : segments front with
      | nil => exact absurd hfront (segments_ne_nil front)
      | cons s more => rfl

theorem EndsIn.suffix_ofText {t name : Text} (h : EndsIn t name) (hslash : slash ∉ name)
    (hne : name ≠ []) (hdot : name ≠ [dot]) : (ofText t).suffix = suffixOf name := by
  have hlast : (ofText t).parts.getLast? = some name := by
    have hname : (segments name).filter (fun s => s ≠ [] && s ≠ [dot]) = [name] := by
      rw [segments_of_not_mem hslash]
      simp [hne, hdot]
    rcases h with rfl | ⟨front, rfl⟩
    · simp only [ofText, hname, List.getLast?_singleton]
    · simp only [ofText, segments_append_slash, List.filter_append, hname, List.getLast?_concat]
  rw [suffix, hlast, Option.getD_some]

/-! What normalizing does to it -/

theorem withSlashes_append (s t : Text) : withSlashes (s ++ t) = withSlashes s ++ withSlashes t :=
  List.map_append

theorem withSlashes_of_not_mem {t : Text} (h : .scalar '\\' ∉ t) : withSlashes t = t := by
  have hkept : ∀ p ∈ t, (if p = .scalar '\\' then slash else p) = p := by
    intro p hp
    rw [if_neg]
    rintro rfl
    exact h hp
  exact (List.map_congr_left hkept).trans (List.map_id t)

theorem EndsIn.withSlashes {t name : Text} (h : EndsIn t name) :
    EndsIn (withSlashes t) (withSlashes name) := by
  rcases h with rfl | ⟨front, rfl⟩
  · exact .inl rfl
  · exact .inr ⟨Path.withSlashes front, withSlashes_append front (slash :: name)⟩

/-- Points in front are left out one by one, up to the last name at most. -/
theorem EndsIn.withoutDots {t name : Text} (h : EndsIn t name) (hslash : slash ∉ name) :
    EndsIn (Path.withoutDots t) name := by
  fun_induction Path.withoutDots t with
  | case1 rest ih =>
    apply ih
    rcases h with heq | ⟨front, heq⟩
    · have hmem : slash ∈ name := heq ▸ by simp [slash]
      exact absurd hmem hslash
    · rcases front with _ | ⟨p, _ | ⟨q, front⟩⟩
      · cases heq
      · cases heq
        exact .inl rfl
      · cases heq
        exact .inr ⟨front, rfl⟩
  | case2 t hfront => exact h

theorem EndsIn.normalize {t name last : Text} (h : EndsIn t name)
    (hlast : EndsIn (Path.withSlashes name) last) (hslash : slash ∉ last) :
    EndsIn (normalize t) last :=
  (h.withSlashes.trans hlast).withoutDots hslash

/-! Names with a suffix -/

/-- Nothing stands between a backslash and the suffix. -/
def HidesSuffix (name : Text) : Prop := .scalar '\\' :: suffixOf name <:+ name

instance (name : Text) : Decidable (HidesSuffix name) :=
  inferInstanceAs (Decidable (_ <:+ _))

theorem exists_last_of_mem {p : CodePoint} {t : Text} (h : p ∈ t) :
    ∃ front rest, t = front ++ p :: rest ∧ p ∉ rest := by
  obtain ⟨rest, front, hreverse, hrest⟩ := List.eq_append_cons_of_mem (List.mem_reverse.mpr h)
  refine ⟨front.reverse, rest.reverse, ?_, fun hmem => hrest (List.mem_reverse.mp hmem)⟩
  rw [← List.reverse_reverse t, hreverse]
  simp

theorem hidesSuffix_iff {stem ending : Text}
    (h : suffixOf (stem ++ dot :: ending) = dot :: ending) :
    HidesSuffix (stem ++ dot :: ending) ↔ stem.getLast? = some (.scalar '\\') := by
  rw [HidesSuffix, h, ← List.singleton_append, List.suffix_append_self_iff,
    List.singleton_suffix_iff_getLast?_eq_some]

/-- With slashes for backslashes, a name ends in its suffix with what stands between that and the
last backslash. -/
theorem exists_endsIn_withSlashes {stem ending : Text} (hstem : stem ≠ []) (hslash : slash ∉ stem)
    (hending : .scalar '\\' ∉ ending) :
    ∃ rest, EndsIn (withSlashes (stem ++ dot :: ending)) (rest ++ dot :: ending) ∧ slash ∉ rest ∧
      (rest = [] ↔ stem.getLast? = some (.scalar '\\')) := by
  have hplain : ∀ rest, .scalar '\\' ∉ rest →
      withSlashes (rest ++ dot :: ending) = rest ++ dot :: ending := by
    intro rest hrest
    apply withSlashes_of_not_mem
    simp [hrest, hending, dot]
  by_cases hmem : .scalar '\\' ∈ stem
  · obtain ⟨front, rest, rfl, hrest⟩ := exists_last_of_mem hmem
    refine ⟨rest, .inr ⟨withSlashes front, ?_⟩, fun h => hslash (by simp [h]), ?_⟩
    · calc withSlashes ((front ++ .scalar '\\' :: rest) ++ dot :: ending)
        _ = withSlashes front ++ slash :: withSlashes (rest ++ dot :: ending) := by
          simp [withSlashes]
        _ = withSlashes front ++ slash :: (rest ++ dot :: ending) := by rw [hplain rest hrest]
    · constructor
      · rintro rfl
        exact List.getLast?_concat
      · intro hlast
        rcases List.eq_nil_or_concat' rest with rfl | ⟨init, p, rfl⟩
        · rfl
        · rw [← List.cons_append, ← List.append_assoc, List.getLast?_concat] at hlast
          cases hlast
          simp at hrest
  · refine ⟨stem, .inl (hplain stem hmem), hslash, fun h => absurd h hstem, fun hlast => ?_⟩
    exact absurd (List.mem_of_getLast? hlast) hmem

theorem suffixOf_dot_cons {ending : Text} (hdot : dot ∉ ending) :
    suffixOf (dot :: ending) = [] := by
  by_contra h
  obtain ⟨stem, ending', hname, hstem, -⟩ := exists_of_suffixOf h
  obtain ⟨p, stem, rfl⟩ := List.exists_cons_of_ne_nil hstem
  obtain ⟨-, rfl⟩ := List.cons.inj hname
  simp at hdot

/-- The suffix of a path that ends in a name is that of the name, or none if the name hides it. -/
theorem suffix_normalize {t stem ending : Text} (h : EndsIn t (stem ++ dot :: ending))
    (hstem : stem ≠ []) (hslash : slash ∉ stem) (hending : ending ≠ [])
    (hplain : slash ∉ ending ∧ .scalar '\\' ∉ ending ∧ dot ∉ ending) :
    (ofText (normalize t)).suffix =
      if HidesSuffix (stem ++ dot :: ending) then [] else dot :: ending := by
  obtain ⟨hslash', hbackslash, hdot⟩ := hplain
  obtain ⟨rest, hends, hrest, hempty⟩ := exists_endsIn_withSlashes hstem hslash hbackslash
  have hlast : slash ∉ rest ++ dot :: ending := by
    have hne : slash ≠ dot := by decide
    simp [hrest, hslash', hne]
  have hname : rest ++ dot :: ending ≠ [dot] := by
    intro heq
    have hlength := congrArg List.length heq
    have := List.length_pos_iff.mpr hending
    simp at hlength
    omega
  have hhides := hidesSuffix_iff (suffixOf_of_dot hstem hending hdot)
  rw [(h.normalize hends hlast).suffix_ofText hlast (by simp) hname]
  split
  case isTrue hhidden =>
    rw [hempty.mpr (hhides.mp hhidden), List.nil_append, suffixOf_dot_cons hdot]
  case isFalse hshown =>
    exact suffixOf_of_dot (fun hnone => hshown (hhides.mpr (hempty.mp hnone))) hending hdot

theorem plain_of_sourceEnding {ending : Text} (h : toLower ending ∈ sourceEndings) :
    ending ≠ [] ∧ slash ∉ ending ∧ .scalar '\\' ∉ ending ∧ dot ∉ ending := by
  have hplain : ∀ e ∈ sourceEndings,
      e ≠ [] ∧ slash ∉ e ∧ .scalar '\\' ∉ e ∧ dot ∉ e := by decide +kernel
  obtain ⟨hne, hslash, hbackslash, hdot⟩ := hplain _ h
  refine ⟨?_, fun hmem => hslash ?_, fun hmem => hbackslash ?_, fun hmem => hdot ?_⟩
  · rintro rfl
    exact hne rfl
  · exact List.mem_map.mpr ⟨_, hmem, rfl⟩
  · exact List.mem_map.mpr ⟨_, hmem, rfl⟩
  · exact List.mem_map.mpr ⟨_, hmem, rfl⟩

/-! The path under which a file is reported -/

theorem endsIn_join {names : List Text} {name : Text} (h : names.getLast? = some name) :
    EndsIn (Text.join [slash] names) name := by
  obtain ⟨folders, rfl⟩ := List.getLast?_eq_some_iff.mp h
  clear h
  induction folders with
  | nil => exact .inl List.intercalate_singleton
  | cons folder folders ih =>
    refine .trans (.inr ⟨folder, ?_⟩) ih
    cases folders <;> simp [Text.join, List.intercalate_cons_cons]

end Path

namespace Project

theorem displayPath_self (file : Place) : displayPath file file = [Path.dot] := by
  simp [displayPath, Place.below?, Path.toText]

theorem endsIn_displayPath {root file : Place} (hroot : root ≠ file) {name : Text}
    (hname : file.getLast? = some name) : Path.EndsIn (displayPath root file) name := by
  unfold displayPath Place.below?
  by_cases hbelow : root.isPrefixOf file
  · obtain ⟨names, rfl⟩ := List.isPrefixOf_iff_prefix.mp hbelow
    have hnames : names ≠ [] := by
      rintro rfl
      simp at hroot
    rw [List.getLast?_append_of_ne_nil _ hnames] at hname
    simp only [hbelow, if_true, List.drop_left, Path.toText, hnames, and_false, if_false]
    exact Path.endsIn_join hname
  · simp only [hbelow]
    exact .trans (.inr ⟨[], rfl⟩) (Path.endsIn_join hname)

theorem dialect_displayPath (root : Place) {file : Place} {name : Text}
    (hname : file.getLast? = some name) (hslash : Path.slash ∉ name)
    (hsource : Discovery.HasSourceSuffix name) :
    Path.dialect (Path.normalize (displayPath root file)) =
      if root = file ∨ Path.HidesSuffix name then .javascript
      else (Path.dialectOf? (Path.suffixOf name)).getD .javascript := by
  by_cases hroot : root = file
  · subst hroot
    rw [if_pos (.inl rfl), displayPath_self]
    decide +kernel
  · obtain ⟨stem, ending, rfl, hstem, hlower⟩ := hsource
    obtain ⟨hending, hplain⟩ := Path.plain_of_sourceEnding hlower
    rw [List.mem_append, not_or] at hslash
    rw [Path.dialect, Path.suffix_normalize (endsIn_displayPath hroot hname) hstem hslash.1 hending
      hplain]
    by_cases hhides : Path.HidesSuffix (stem ++ Path.dot :: ending)
    · rw [if_pos hhides, if_pos (.inr hhides)]
      decide +kernel
    · rw [if_neg hhides, if_neg (not_or.mpr ⟨hroot, hhides⟩),
        Path.suffixOf_of_dot hstem hending hplain.2.2]

theorem tree?_eq_none_iff_readText {parse : Parser} {top : FileTree} {root file : Place} :
    tree? parse top root file = none ↔ ∀ cs, readText top file = .ok cs →
      parse (Path.dialect (Path.normalize (displayPath root file))) cs = none := by
  unfold tree?
  cases readText top file with
  | error reason => simp
  | ok cs => simp

theorem checkFile_eq_skipped_iff {parse : Parser} {top : FileTree} {root file : Place}
    {c : Configuration} (h : ¬ isExempt root c file) :
    (checkFile parse top root c file).2 = .ok (.skipped (displayPath root file)) ↔
      tree? parse top root file = none := by
  refine ⟨fun hskipped => ?_, checkFile_of_no_tree h⟩
  cases htree : tree? parse top root file with
  | none => rfl
  | some found =>
    rcases checkFile_of_tree h htree with ⟨ds, -, hchecked⟩ | ⟨e, -, hfailed⟩
    · rw [hskipped] at hchecked
      cases hchecked
    · rw [hskipped] at hfailed
      cases hfailed

/-- A discovered file has a suffix with a dialect of its own. It is read in this one unless it is
the root or its name hides the suffix; then it is read as JavaScript, and skipped if it has no tree
as such. -/
theorem dialect_of_discovered {top : FileTree} (htop : top.IsFileSystem) {here : Place}
    {paths : List Text} {files : List Place} (h : Discovery.discover top here paths = .ok files)
    {file : Place} (hfile : file ∈ files) (root : Place) :
    ∃ name own used, file.getLast? = some name ∧
      Path.dialectOf? (Path.suffixOf name) = some own ∧
      Path.dialect (Path.normalize (displayPath root file)) = used ∧
      (used = own ↔ own = .javascript ∨ root ≠ file ∧ ¬ Path.HidesSuffix name) ∧
      (used ≠ own → used = .javascript) ∧
      ∀ parse c, ¬ isExempt root c file →
        ((checkFile parse top root c file).2 = .ok (.skipped (displayPath root file)) ↔
          ∀ cs, readText top file = .ok cs → parse used cs = none) := by
  obtain ⟨p, -, hcontributes⟩ := (Discovery.contributes_of_mem_flatMap htop).mp
    (List.mem_eraseDups.mp ((Discovery.discover_eq_ok_iff.mp h).2 ▸ hfile))
  obtain ⟨⟨content, hfind⟩, name, hname, hsource⟩ := hcontributes.1
  have hslash : Path.slash ∉ name :=
    (FileTree.isName_of_find? htop.proper hfind name (List.mem_of_getLast? hname)).slash
  obtain ⟨own, hown⟩ := Option.isSome_iff_exists.mp (Discovery.isSupported_iff.mpr hsource)
  have hused := dialect_displayPath root hname hslash hsource
  rw [hown, Option.getD_some] at hused
  refine ⟨name, own, _, hname, hown, rfl, ?_, ?_, fun parse c hexempt => ?_⟩
  · rw [hused]
    split
    case isTrue hlost => grind
    case isFalse hkept => grind
  · rw [hused]
    split
    case isTrue hlost => exact fun _ => rfl
    case isFalse hkept => exact fun hne => absurd rfl hne
  · rw [checkFile_eq_skipped_iff hexempt, tree?_eq_none_iff_readText]

/-- A file whose suffix follows a backslash, and one with a plain name. -/
def hiddenTree : FileTree :=
  .folder [(Text.ofString "a\\.ts", .file []), (Text.ofString "b.ts", .file [])]

theorem isFileSystem_hiddenTree : hiddenTree.IsFileSystem where
  distinct := .folder (by decide +kernel) <| List.forall_mem_cons.mpr
    ⟨.file [], List.forall_mem_singleton.mpr (.file [])⟩
  proper := .folder (by decide +kernel) <| List.forall_mem_cons.mpr
    ⟨.file [], List.forall_mem_singleton.mpr (.file [])⟩

def hiddenFile : Place := [Text.ofString "a\\.ts"]

def shownFile : Place := [Text.ofString "b.ts"]

theorem dialect_of_discovered_hiddenFile :
    hiddenTree.IsFileSystem ∧
    (∃ files, Discovery.discover hiddenTree [] (["a\\.ts", "b.ts"].map Text.ofString) = .ok files ∧
      hiddenFile ∈ files ∧ shownFile ∈ files) ∧
    Path.dialectOf? (Path.suffixOf (Text.ofString "a\\.ts")) = some .typescript ∧
    Path.dialect (Path.normalize (displayPath [] hiddenFile)) = .javascript ∧
    Path.dialect (Path.normalize (displayPath [] shownFile)) = .typescript ∧
    Path.dialect (Path.normalize (displayPath shownFile shownFile)) = .javascript := by
  have hfound : ∃ files ∈ (Discovery.discover hiddenTree []
      (["a\\.ts", "b.ts"].map Text.ofString)).toOption,
      hiddenFile ∈ files ∧ shownFile ∈ files := by decide +kernel
  obtain ⟨files, hfiles, hhidden, hshown⟩ := hfound
  have hfiles := eq_ok_of_toOption hfiles
  have hsuffix : ∀ name ∈ hiddenFile ++ shownFile,
      Path.dialectOf? (Path.suffixOf name) = some .typescript := by decide +kernel
  refine ⟨isFileSystem_hiddenTree, ⟨files, hfiles, hhidden, hshown⟩, by decide +kernel, ?_, ?_, ?_⟩
  · obtain ⟨name, own, used, hname, hown, hused, hsame, hother, -⟩ :=
      dialect_of_discovered isFileSystem_hiddenTree hfiles hhidden []
    cases hname
    rw [hsuffix _ (by simp [hiddenFile])] at hown
    cases hown
    rw [hused]
    refine hother fun heq => ?_
    have hkept : ¬ (Dialect.typescript = .javascript ∨
        ([] : Place) ≠ hiddenFile ∧ ¬ Path.HidesSuffix (Text.ofString "a\\.ts")) := by
      decide +kernel
    exact hkept (hsame.mp heq)
  · obtain ⟨name, own, used, hname, hown, hused, hsame, -⟩ :=
      dialect_of_discovered isFileSystem_hiddenTree hfiles hshown []
    cases hname
    rw [hsuffix _ (by simp [shownFile])] at hown
    cases hown
    rw [hused, hsame]
    decide +kernel
  · obtain ⟨name, own, used, hname, hown, hused, hsame, hother, -⟩ :=
      dialect_of_discovered isFileSystem_hiddenTree hfiles hshown shownFile
    cases hname
    rw [hsuffix _ (by simp [shownFile])] at hown
    cases hown
    rw [hused]
    refine hother fun heq => ?_
    rcases hsame.mp heq with hdialect | ⟨hroot, -⟩
    · cases hdialect
    · exact hroot rfl

end Project

end ParamLint

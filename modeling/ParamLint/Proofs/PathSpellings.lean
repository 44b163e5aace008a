import Mathlib.Logic.Relation
import ParamLint.Proofs.Globs
import ParamLint.Proofs.OwnDialect

/-!
# Spellings of a path

A path may be written with backslashes for slashes, and with any number of `./` in front. The normal
form forgets this and nothing else: two texts have one normal form exactly if they are spellings of
one path. So a pattern without wildcards stands for one path, in each of its spellings, and whether
a file is looked at depends neither on the spelling of its path nor on that of the patterns.
-/
namespace ParamLint

namespace Path

/-- A path or pattern written anew: any of its slashes as backslashes, or any number of `./` and
`.\` in front. -/
inductive Respells : Text → Text → Prop
  | backslashes {t u : Text}
      (h : List.Forall₂ (fun p q => q = p ∨ p = slash ∧ q = .scalar '\\') t u) : Respells t u
  | points {marks : List Text} (h : ∀ m ∈ marks, m = [dot, slash] ∨ m = [dot, .scalar '\\'])
      (t : Text) : Respells t (marks.flatten ++ t)

/-- Two spellings of one path: writing anew, and back, leads from one to the other. -/
def Respelled : Text → Text → Prop := Relation.EqvGen Respells

theorem Respelled.refl (t : Text) : Respelled t t := Relation.EqvGen.refl t

theorem Respells.respelled {t u : Text} (h : Respells t u) : Respelled t u :=
  Relation.EqvGen.rel t u h

/-! Spellings of one path have one normal form -/

theorem withSlashes_eq_of_forall₂ {t u : Text}
    (h : List.Forall₂ (fun p q => q = p ∨ p = slash ∧ q = .scalar '\\') t u) :
    withSlashes u = withSlashes t := by
  induction h with
  | nil => rfl
  | cons hp _ ih =>
    rw [withSlashes, List.map_cons, withSlashes, List.map_cons]
    refine congrArg₂ List.cons ?_ ih
    rcases hp with rfl | ⟨rfl, rfl⟩
    · rfl
    · rfl

theorem normalize_append_of_point {m : Text} (h : m = [dot, slash] ∨ m = [dot, .scalar '\\'])
    (t : Text) : normalize (m ++ t) = normalize t := by
  rw [normalize, withSlashes_append]
  rcases h with rfl | rfl
  · rfl
  · rfl

theorem normalize_append_of_points {marks : List Text}
    (h : ∀ m ∈ marks, m = [dot, slash] ∨ m = [dot, .scalar '\\']) (t : Text) :
    normalize (marks.flatten ++ t) = normalize t := by
  induction marks with
  | nil => rfl
  | cons m marks ih =>
    rw [List.forall_mem_cons] at h
    rw [List.flatten_cons, List.append_assoc, normalize_append_of_point h.1, ih h.2]

theorem Respells.normalize_eq {t u : Text} (h : Respells t u) : normalize t = normalize u := by
  cases h with
  | backslashes h => rw [normalize, normalize, withSlashes_eq_of_forall₂ h]
  | points h t => exact (normalize_append_of_points h t).symm

/-! The normal form is a spelling -/

theorem exists_points (t : Text) :
    ∃ marks : List Text, (∀ m ∈ marks, m = [dot, slash]) ∧ t = marks.flatten ++ withoutDots t := by
  fun_induction withoutDots t with
  | case1 rest ih =>
    obtain ⟨marks, hmarks, hrest⟩ := ih
    refine ⟨[dot, slash] :: marks, List.forall_mem_cons.mpr ⟨rfl, hmarks⟩, ?_⟩
    rw [List.flatten_cons, List.append_assoc, ← hrest]
    rfl
  | case2 t hfront => exact ⟨[], List.forall_mem_nil _, rfl⟩

theorem respells_withSlashes (t : Text) : Respells (withSlashes t) t := by
  refine .backslashes (List.forall₂_map_left_iff.mpr (List.forall₂_same.mpr fun p _ => ?_))
  by_cases hp : p = .scalar '\\'
  · exact .inr ⟨if_pos hp, hp⟩
  · exact .inl (if_neg hp).symm

theorem respells_normalize (t : Text) : Respells (normalize t) (withSlashes t) := by
  obtain ⟨marks, hmarks, hpoints⟩ := exists_points (withSlashes t)
  have hrespells := Respells.points (fun m hm => .inl (hmarks m hm)) (normalize t)
  rwa [normalize, ← hpoints] at hrespells

/-- Points in front and then backslashes lead from the normal form to every spelling. -/
theorem respelled_normalize (t : Text) : Respelled t (normalize t) :=
  ((respells_normalize t).respelled.trans _ _ _ (respells_withSlashes t).respelled).symm _ _

theorem respelled_iff {t u : Text} : Respelled t u ↔ normalize t = normalize u := by
  constructor
  · intro h
    have hsame : Equivalence fun t u => normalize t = normalize u :=
      ⟨fun _ => rfl, Eq.symm, Eq.trans⟩
    exact hsame.eqvGen_iff.mp (Relation.EqvGen.mono (fun _ _ h => h.normalize_eq) _ _ h)
  · intro h
    have hu := respelled_normalize u
    rw [← h] at hu
    exact (respelled_normalize t).trans _ _ _ (hu.symm _ _)

/-! Parts -/

theorem segments_injective {t u : Text} (h : segments t = segments u) : t = u := by
  rw [← join_segments t, h, join_segments u]

theorem mem_of_mem_normalize {t : Text} {p : CodePoint} (hp : p ∈ normalize t) :
    p = slash ∨ p ∈ t := by
  obtain ⟨marks, -, hpoints⟩ := exists_points (withSlashes t)
  have hmem : p ∈ withSlashes t := by
    rw [hpoints]
    exact List.mem_append_right _ hp
  obtain ⟨q, hq, rfl⟩ := List.mem_map.mp hmem
  split_ifs
  · exact .inl rfl
  · exact .inr hq

end Path

/-! Patterns without wildcards -/

theorem Wildcard.covers_items_iff {α : Type} [DecidableEq α] {l items : List α} :
    covers (l.map fun a => .one fun b => decide (b = a)) items ↔ items = l := by
  induction l generalizing items with
  | nil => rw [List.map_nil, covers_nil, List.isEmpty_iff]
  | cons a l ih =>
    rw [List.map_cons, covers_one_iff]
    constructor
    · rintro ⟨b, more, rfl, hb, hmore⟩
      rw [of_decide_eq_true hb, ih.mp hmore]
    · rintro rfl
      exact ⟨a, l, rfl, decide_eq_true rfl, ih.mpr rfl⟩

namespace Glob

/-- A text without the marks of wildcards. -/
def IsLiteral (t : Text) : Prop :=
  ∀ p ∈ t, p ≠ .scalar '*' ∧ p ≠ .scalar '?' ∧ p ≠ .scalar '['

instance (t : Text) : Decidable (IsLiteral t) := inferInstanceAs (Decidable (∀ p ∈ t, _))

variable {pattern part path : Text}

theorem IsLiteral.normalize (h : IsLiteral pattern) : IsLiteral (Path.normalize pattern) := by
  intro p hp
  rcases Path.mem_of_mem_normalize hp with rfl | hp
  · decide
  · exact h p hp

theorem IsLiteral.of_mem_segments (h : IsLiteral pattern) (hpart : part ∈ Path.segments pattern) :
    IsLiteral part :=
  fun p hp => h p (Path.mem_of_mem_segments hpart hp)

theorem IsLiteral.ne_anyParts (h : IsLiteral part) : part ≠ anyParts := by
  rintro rfl
  exact (h (.scalar '*') (by decide)).1 rfl

theorem partPattern_of_isLiteral (h : IsLiteral part) :
    partPattern part.length part = part.map fun p => .one fun q => decide (q = p) := by
  induction part with
  | nil => rfl
  | cons p part ih =>
    obtain ⟨⟨hrun, hone, hset⟩, hrest⟩ := List.forall_mem_cons.mp h
    rw [List.length_cons, partPattern, if_neg hrun, if_neg hone, if_neg hset, ih hrest,
      List.map_cons]

theorem matchesPart_of_isLiteral (h : IsLiteral part) :
    matchesPart part = fun s => decide (s = part) := by
  funext s
  rw [matchesPart, partPattern_of_isLiteral h, Bool.eq_iff_iff, Wildcard.covers_items_iff,
    decide_eq_true_iff]

theorem pathPattern_of_isLiteral (h : IsLiteral pattern) :
    pathPattern pattern =
      (Path.segments (Path.normalize pattern)).map fun part => .one fun s => decide (s = part) := by
  refine List.map_congr_left fun part hpart => ?_
  have hliteral := h.normalize.of_mem_segments hpart
  rw [if_neg hliteral.ne_anyParts, matchesPart_of_isLiteral hliteral]

theorem isMatch_iff_of_isLiteral (h : IsLiteral pattern) :
    isMatch path pattern ↔ Path.normalize path = Path.normalize pattern := by
  rw [isMatch, pathPattern_of_isLiteral h, Wildcard.covers_items_iff]
  exact ⟨Path.segments_injective, congrArg Path.segments⟩

end Glob

/-! Answers about files -/

section Answers

variable {path path' pattern pattern' : Text}

theorem Path.isTestFile_of_respelled (h : Respelled path path') :
    isTestFile path' = isTestFile path := by
  rw [isTestFile, isTestFile, respelled_iff.mp h]

theorem Glob.isMatch_of_respelled (hpath : Path.Respelled path path')
    (hpattern : Path.Respelled pattern pattern') :
    isMatch path' pattern' = isMatch path pattern := by
  rw [isMatch, isMatch, pathPattern, pathPattern, Path.respelled_iff.mp hpath,
    Path.respelled_iff.mp hpattern]

theorem Configuration.exemptsFile_of_respelled {c : Configuration} {patterns : List Text}
    (hpath : Path.Respelled path path')
    (hpatterns : List.Forall₂ Path.Respelled c.filePatterns patterns) :
    exemptsFile { c with filePatterns := patterns } path' = c.exemptsFile path := by
  have hanswers : patterns.map (Glob.isMatch path') = c.filePatterns.map (Glob.isMatch path) :=
    map_eq_map_of_forall₂ hpatterns fun _ _ h => Glob.isMatch_of_respelled hpath h
  have hany : patterns.any (Glob.isMatch path') = c.filePatterns.any (Glob.isMatch path) := by
    simpa only [List.any_map, Function.id_comp] using congrArg (List.any · id) hanswers
  rw [exemptsFile, exemptsFile, Path.isTestFile_of_respelled hpath, hany]

end Answers

namespace FileContext

theorem enter_eq (c : Configuration) (path : Text) :
    enter c path = ⟨Path.normalize path, c.exemptsFile path⟩ := by
  rw [enter, ← Configuration.exemptsFile_of_respelled (Path.respelled_normalize path)
    (List.forall₂_same.mpr fun pattern _ => Path.Respelled.refl pattern)]

/-- A pattern without wildcards stands for the spellings of one path, and the normal form is a
spelling. No answer about a file depends on the spelling of its path or of a pattern. -/
theorem decides_up_to_spelling (c : Configuration) (path pattern : Text) :
    (Glob.IsLiteral pattern →
      (Glob.isMatch path pattern ↔ Path.normalize path = Path.normalize pattern)) ∧
    (∀ t, Path.Respelled t (Path.normalize t)) ∧
    ∀ path', Path.Respelled path path' →
      Path.isTestFile path' = Path.isTestFile path ∧
      (∀ pattern', Path.Respelled pattern pattern' →
        Glob.isMatch path' pattern' = Glob.isMatch path pattern) ∧
      ∀ patterns, List.Forall₂ Path.Respelled c.filePatterns patterns →
        Configuration.exemptsFile { c with filePatterns := patterns } path' =
          c.exemptsFile path ∧
        enter { c with filePatterns := patterns } path' =
          ⟨Path.normalize path, c.exemptsFile path⟩ := by
  refine ⟨Glob.isMatch_iff_of_isLiteral, Path.respelled_normalize, fun path' hpath => ?_⟩
  refine ⟨Path.isTestFile_of_respelled hpath, fun pattern' => Glob.isMatch_of_respelled hpath, ?_⟩
  intro patterns hpatterns
  have hexempt := Configuration.exemptsFile_of_respelled hpath hpatterns
  rw [enter_eq, hexempt, Path.respelled_iff.mp hpath]
  exact ⟨rfl, rfl⟩

/-- A path with a bracket, and a spelling of it with two kinds of points in front. -/
def bracketPath : Text := Text.ofString "src/legacy/a].js"

def bracketSpelling : Text := Text.ofString "./.\\src\\legacy/a].js"

theorem respelled_bracketPath : Path.Respelled bracketPath bracketSpelling := by
  have hpoints : Path.Respells bracketPath (Text.ofString "./.\\src/legacy/a].js") :=
    @Path.Respells.points [Text.ofString "./", Text.ofString ".\\"] (by decide) bracketPath
  have hbackslash : Path.Respells (Text.ofString "./.\\src/legacy/a].js") bracketSpelling :=
    .backslashes (by decide)
  exact hpoints.respelled.trans _ _ _ hbackslash.respelled

theorem decides_bracketPath_in_both_spellings :
    Glob.isMatch bracketPath bracketSpelling ∧
      enter { filePatterns := [Text.ofString "**\\legacy/*.js"] } bracketSpelling =
        ⟨bracketPath, true⟩ := by
  have hpattern :
      Path.Respells (Text.ofString "**/legacy/*.js") (Text.ofString "**\\legacy/*.js") :=
    .backslashes (by decide)
  obtain ⟨hliteral, -, hrespelled⟩ := decides_up_to_spelling
    { filePatterns := [Text.ofString "**/legacy/*.js"] } bracketPath bracketSpelling
  obtain ⟨-, -, hconfiguration⟩ := hrespelled bracketSpelling respelled_bracketPath
  refine ⟨(hliteral (by decide)).mpr (by decide), ?_⟩
  rw [(hconfiguration _ (.cons hpattern.respelled .nil)).2]
  decide +kernel

end FileContext

end ParamLint

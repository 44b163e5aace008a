import Mathlib.Data.List.TakeWhile
import ParamLint.Path.Encoding

/-!
# Paths that can be named

A text is its parts with slashes between them. The file system can be asked for a path exactly if
all its code points can be written and none is zero, and a path that is resolved name by name meets a
fault exactly if it cannot be asked for.
-/
namespace ParamLint

namespace Text

theorem mem_join_of_mem (separator : Text) {parts : List Text} {part : Text} {p : CodePoint}
    (hpart : part ∈ parts) (hp : p ∈ part) : p ∈ join separator parts := by
  unfold join
  induction parts with
  | nil => cases hpart
  | cons first rest ih =>
    cases rest with
    | nil =>
      rw [List.mem_singleton] at hpart
      rwa [List.intercalate_singleton, ← hpart]
    | cons second rest =>
      rw [List.intercalate_cons_cons]
      rcases List.mem_cons.mp hpart with rfl | hpart
      · simp [hp]
      · simp [ih hpart]

theorem mem_of_mem_join {separator : Text} {parts : List Text} {p : CodePoint}
    (h : p ∈ join separator parts) : p ∈ separator ∨ ∃ part ∈ parts, p ∈ part := by
  unfold join at h
  induction parts with
  | nil => simp [List.intercalate] at h
  | cons first rest ih =>
    cases rest with
    | nil =>
      rw [List.intercalate_singleton] at h
      exact .inr ⟨first, List.mem_singleton_self first, h⟩
    | cons second rest =>
      rw [List.intercalate_cons_cons, List.mem_append, List.mem_append] at h
      rcases h with (hfirst | hseparator) | hrest
      · exact .inr ⟨first, List.mem_cons_self, hfirst⟩
      · exact .inl hseparator
      · refine (ih hrest).imp_right ?_
        rintro ⟨part, hpart, hp⟩
        exact ⟨part, List.mem_cons_of_mem first hpart, hp⟩

end Text

namespace Path

theorem segments_eq_splitOn (t : Text) : segments t = t.splitOn slash := by
  induction t with
  | nil => rfl
  | cons p t ih =>
    rw [segments, ih, List.splitOn, List.splitOn, List.splitOnP_cons_eq_if_modifyHead]
    by_cases hp : p = slash
    · rw [if_pos hp, if_pos (beq_iff_eq.mpr hp)]
    · rw [if_neg hp, if_neg (mt beq_iff_eq.mp hp)]
      cases hmore : t.splitOnP (· == slash) with
      | nil => exact absurd hmore (List.splitOnP_ne_nil _ t)
      | cons s more => rfl

theorem segments_join {p : Place} (hne : p ≠ []) (h : ∀ name ∈ p, slash ∉ name) :
    segments (Text.join [slash] p) = p := by
  rw [segments_eq_splitOn, Text.join, List.splitOn_intercalate slash h hne]

theorem join_segments (t : Text) : Text.join [slash] (segments t) = t := by
  rw [segments_eq_splitOn]
  exact List.intercalate_splitOn slash

theorem mem_of_mem_segments {t s : Text} {p : CodePoint} (hs : s ∈ segments t) (hp : p ∈ s) :
    p ∈ t := by
  rw [← join_segments t]
  exact Text.mem_join_of_mem [slash] hs hp

theorem exists_mem_segments {t : Text} {p : CodePoint} (hp : p ∈ t) (hslash : p ≠ slash) :
    ∃ s ∈ segments t, p ∈ s := by
  rw [← join_segments t] at hp
  exact (Text.mem_of_mem_join hp).resolve_left fun h => hslash (List.mem_singleton.mp h)

/-! Faults -/

/-- The file system can be asked for a path of this text. -/
def IsNamable (t : Text) : Prop := ∀ q ∈ t, isEncodable q ∧ q ≠ .scalar '\x00'

instance (t : Text) : Decidable (IsNamable t) := inferInstanceAs (Decidable (∀ q ∈ t, _))

theorem isSurrogate_of_not_isEncodable {q : CodePoint} (h : ¬ isEncodable q) : q.isSurrogate := by
  cases q with
  | scalar c => exact absurd rfl h
  | surrogate d => rfl

theorem fault?_eq_none_iff {t : Text} : fault? t = none ↔ IsNamable t := by
  unfold fault?
  cases hrest : t.dropWhile isEncodable with
  | nil =>
    have hall : ∀ q ∈ t, isEncodable q := List.dropWhile_eq_nil_iff.mp hrest
    rw [List.takeWhile_nil]
    dsimp only
    rw [IsNamable]
    constructor
    · intro h q hq
      refine ⟨hall q hq, ?_⟩
      rintro rfl
      rw [if_pos (List.any_eq_true.mpr ⟨_, hq, by decide⟩)] at h
      cases h
    · intro h
      apply if_neg
      rw [List.any_eq_true]
      rintro ⟨q, hq, hzero⟩
      exact (h q hq).2 (of_decide_eq_true hzero)
  | cons q rest =>
    have hq : ¬ isEncodable q := by
      have hnot := List.head?_dropWhile_not isEncodable t
      rw [hrest] at hnot
      simpa using hnot
    have hmem : q ∈ t := by
      refine (List.dropWhile_sublist isEncodable).subset ?_
      rw [hrest]
      exact List.mem_cons_self
    rw [List.takeWhile_cons_of_pos (isSurrogate_of_not_isEncodable hq)]
    constructor
    · intro h
      cases h
    · intro h
      exact absurd (h q hmem).1 hq

theorem isNamable_parentName : IsNamable Place.parentName := by decide

theorem isNamable_join_iff {parts : List Text} :
    IsNamable (Text.join [slash] parts) ↔ ∀ part ∈ parts, IsNamable part := by
  constructor
  · intro h part hpart q hq
    exact h q (Text.mem_join_of_mem [slash] hpart hq)
  · intro h q hq
    rcases Text.mem_of_mem_join hq with hslash | ⟨part, hpart, hq⟩
    · rw [List.mem_singleton.mp hslash]
      decide
    · exact h part hpart q hq

theorem isNamable_toText_iff {p : Path} :
    IsNamable p.toText ↔ ∀ part ∈ p.parts, IsNamable part := by
  have hslashes : IsNamable (List.replicate p.slashes slash) := by
    intro q hq
    rw [List.eq_of_mem_replicate hq]
    decide
  unfold toText
  split
  case isTrue hempty =>
    rw [hempty.2]
    exact iff_of_true (by decide) (by simp)
  case isFalse =>
    rw [← isNamable_join_iff]
    exact List.forall_mem_append.trans (and_iff_right hslashes)

/-- The paths on a trail are made of the names before it and on it. -/
theorem mem_parts_of_mem_trail {p q : Path} {names : List Text} (hq : q ∈ trail p names)
    {name : Text} (hname : name ∈ q.parts) :
    name ∈ p.parts ∨ name ∈ names ∨ name = Place.parentName := by
  fun_induction trail p names with
  | case1 => cases hq
  | case2 p rest ih =>
    rcases ih hq with hback | hrest
    · have hparts : name ∈ p.parts ∨ name = Place.parentName := by
        unfold back at hback
        split at hback
        case isTrue => simpa using hback
        case isFalse => exact .inl ((List.dropLast_sublist _).subset hback)
      exact hparts.imp_right .inr
    · exact .inr (hrest.imp_left (List.mem_cons_of_mem _))
  | case3 p first rest hfirst next ih =>
    have hnext (hparts : name ∈ next.parts) :
        name ∈ p.parts ∨ name ∈ first :: rest ∨ name = Place.parentName := by
      rcases List.mem_append.mp hparts with hbefore | hfirst
      · exact .inl hbefore
      · exact .inr (.inl (List.mem_singleton.mp hfirst ▸ List.mem_cons_self))
    rcases List.mem_cons.mp hq with rfl | hq
    · exact hnext hname
    · rcases ih hq with hparts | hrest
      · exact hnext hparts
      · exact .inr (hrest.imp_left (List.mem_cons_of_mem _))

theorem exists_mem_trail (p : Path) {names : List Text} {name : Text} (hname : name ∈ names)
    (hforward : name ≠ Place.parentName) : ∃ q ∈ trail p names, name ∈ q.parts := by
  fun_induction trail p names with
  | case1 => cases hname
  | case2 p rest ih => exact ih ((List.mem_cons.mp hname).resolve_left hforward)
  | case3 p first rest hfirst next ih =>
    rcases List.mem_cons.mp hname with rfl | hname
    · exact ⟨next, List.mem_cons_self, List.mem_append_right _ (List.mem_singleton_self _)⟩
    · obtain ⟨q, hq, hparts⟩ := ih hname
      exact ⟨q, List.mem_cons_of_mem _ hq, hparts⟩

theorem resolveFault?_eq_none_iff {p : Path} :
    p.resolveFault? = none ↔ ∀ name ∈ p.parts, IsNamable name := by
  simp only [resolveFault?, List.findSome?_eq_none_iff, fault?_eq_none_iff, isNamable_toText_iff]
  constructor
  · intro h name hname
    by_cases hparent : name = Place.parentName
    · exact hparent ▸ isNamable_parentName
    · obtain ⟨q, hq, hparts⟩ := exists_mem_trail ⟨min p.slashes 1, []⟩ hname hparent
      exact h q hq name hparts
  · intro h q hq name hname
    rcases mem_parts_of_mem_trail hq hname with hnone | hname | rfl
    · cases hnone
    · exact h name hname
    · exact isNamable_parentName

/-- A path is resolved without a fault exactly if the file system can be asked for it. -/
theorem resolveFault?_ofText_eq_none_iff {t : Text} :
    (ofText t).resolveFault? = none ↔ IsNamable t := by
  rw [resolveFault?_eq_none_iff]
  constructor
  · intro h
    rw [← join_segments t, isNamable_join_iff]
    intro s hs
    by_cases hkept : (s ≠ [] && s ≠ [dot]) = true
    · exact h s (List.mem_filter.mpr ⟨hs, hkept⟩)
    · have hplain : s = [] ∨ s = [dot] := by
        by_contra hne
        rw [not_or] at hne
        exact hkept (by simp [hne])
      rcases hplain with rfl | rfl <;> decide
  · intro h name hname q hq
    exact h q (mem_of_mem_segments (List.mem_filter.mp hname).1 hq)

end Path

end ParamLint

import Mathlib.Data.List.Forall2
import Mathlib.Logic.Function.Basic
import ParamLint.Path.Glob

/-!
# Patterns by blocks

A pattern stands for a path exactly if the parts of the path can be cut into blocks, one for each
part of the pattern in order: any block for `**`, and a single part of the right form for any other.
The answers for all suffixes of a path agree with this, and so does a search by positions that keeps
the answers it has found.
-/
namespace ParamLint

namespace Wildcard

variable {α : Type}

/-! One item at a time -/

theorem orLater_cons (b : Bool) (answers : List Bool) :
    orLater (b :: answers) = (b || (orLater answers).headD false) :: orLater answers := by
  rw [orLater]
  split
  · rename_i hlater
    simp [hlater]
  · rename_i hlater
    simp [hlater]

theorem length_orLater (answers : List Bool) : (orLater answers).length = answers.length := by
  induction answers with
  | nil => rfl
  | cons b answers ih => rw [orLater_cons, List.length_cons, ih, List.length_cons]

theorem length_answers (pattern : List (Wildcard α)) (items : List α) :
    (answers pattern items).length = items.length + 1 := by
  induction pattern with
  | nil => simp [answers]
  | cons w rest ih =>
    cases w with
    | run => rw [answers, length_orLater, ih]
    | one fits => simp [answers, ih]

theorem answers_eq (pattern : List (Wildcard α)) (items : List α) :
    answers pattern items = covers pattern items :: (answers pattern items).tail := by
  cases h : answers pattern items with
  | nil =>
    have hlength := length_answers pattern items
    simp [h] at hlength
  | cons b more => simp [covers, h]

theorem tail_answers_nil (pattern : List (Wildcard α)) : (answers pattern []).tail = [] := by
  apply List.eq_nil_of_length_eq_zero
  rw [List.length_tail, length_answers]
  rfl

theorem tail_answers_cons (pattern : List (Wildcard α)) (item : α) (items : List α) :
    (answers pattern (item :: items)).tail = answers pattern items := by
  induction pattern with
  | nil => simp [answers]
  | cons w rest ih =>
    cases w with
    | run =>
      rw [answers, answers_eq rest (item :: items), ih, orLater_cons, List.tail_cons]
      rfl
    | one fits =>
      simp only [answers]
      rw [ih, answers_eq rest items]
      rfl

theorem covers_nil (items : List α) : covers [] items = items.isEmpty := by
  cases items with
  | nil => rfl
  | cons item items => rfl

@[simp] theorem covers_run_nil (rest : List (Wildcard α)) :
    covers (.run :: rest) [] = covers rest [] := by
  rw [covers, answers, answers_eq rest [], tail_answers_nil, orLater_cons]
  simp [orLater]

@[simp] theorem covers_run_cons (rest : List (Wildcard α)) (item : α) (items : List α) :
    covers (.run :: rest) (item :: items) =
      (covers rest (item :: items) || covers (.run :: rest) items) := by
  rw [covers, answers, answers_eq rest (item :: items), tail_answers_cons, orLater_cons]
  rfl

@[simp] theorem covers_one_nil (fits : α → Bool) (rest : List (Wildcard α)) :
    covers (.one fits :: rest) [] = false := rfl

@[simp] theorem covers_one_cons (fits : α → Bool) (rest : List (Wildcard α)) (item : α)
    (items : List α) :
    covers (.one fits :: rest) (item :: items) = (fits item && covers rest items) := by
  rw [covers, answers, tail_answers_cons, answers_eq rest items]
  rfl

/-! Blocks -/

theorem covers_run_iff {rest : List (Wildcard α)} {items : List α} :
    covers (.run :: rest) items ↔ ∃ k ≤ items.length, covers rest (items.drop k) := by
  induction items with
  | nil => simp
  | cons item items ih =>
    rw [covers_run_cons, Bool.or_eq_true, ih]
    constructor
    · rintro (hnone | ⟨k, hk, hrest⟩)
      · exact ⟨0, Nat.zero_le _, hnone⟩
      · exact ⟨k + 1, Nat.succ_le_succ hk, hrest⟩
    · rintro ⟨k, hk, hrest⟩
      cases k with
      | zero => exact .inl hrest
      | succ k => exact .inr ⟨k, Nat.le_of_succ_le_succ hk, hrest⟩

theorem covers_one_iff {fits : α → Bool} {rest : List (Wildcard α)} {items : List α} :
    covers (.one fits :: rest) items ↔
      ∃ item more, items = item :: more ∧ fits item ∧ covers rest more := by
  cases items with
  | nil => simp
  | cons item items => simp

/-- The blocks of items that an element of a pattern stands for. -/
def Fits : Wildcard α → List α → Prop
  | run, _ => True
  | one fits, block => ∃ item, block = [item] ∧ fits item

theorem covers_iff_blocks {pattern : List (Wildcard α)} {items : List α} :
    covers pattern items ↔
      ∃ blocks : List (List α), blocks.flatten = items ∧ List.Forall₂ Fits pattern blocks := by
  induction pattern generalizing items with
  | nil =>
    rw [covers_nil, List.isEmpty_iff]
    constructor
    · rintro rfl
      exact ⟨[], rfl, .nil⟩
    · rintro ⟨blocks, rfl, hblocks⟩
      cases hblocks
      rfl
  | cons w rest ih =>
    cases w with
    | run =>
      rw [covers_run_iff]
      constructor
      · rintro ⟨k, -, hrest⟩
        obtain ⟨blocks, hflatten, hblocks⟩ := ih.mp hrest
        refine ⟨items.take k :: blocks, ?_, .cons trivial hblocks⟩
        rw [List.flatten_cons, hflatten, List.take_append_drop]
      · rintro ⟨blocks, rfl, hblocks⟩
        cases hblocks with
        | @cons _ block _ blocks _ hblocks =>
          refine ⟨block.length, by simp, ?_⟩
          rw [List.flatten_cons, List.drop_left]
          exact ih.mpr ⟨blocks, rfl, hblocks⟩
    | one fits =>
      rw [covers_one_iff]
      constructor
      · rintro ⟨item, more, rfl, hitem, hrest⟩
        obtain ⟨blocks, rfl, hblocks⟩ := ih.mp hrest
        exact ⟨[item] :: blocks, rfl, .cons ⟨item, rfl, hitem⟩ hblocks⟩
      · rintro ⟨blocks, rfl, hblocks⟩
        cases hblocks with
        | @cons _ block _ blocks hblock hblocks =>
          obtain ⟨item, rfl, hitem⟩ := hblock
          exact ⟨item, blocks.flatten, rfl, hitem, ih.mpr ⟨blocks, rfl, hblocks⟩⟩

/-! A search by positions -/

/-- The answers found so far, by the position in the pattern and the position in the items. -/
abbrev Memo := Nat × Nat → Option Bool

def remembered (place : Nat × Nat) (find : StateM Memo Bool) : StateM Memo Bool := fun memo =>
  match memo place with
  | some answer => (answer, memo)
  | none =>
    let (answer, memo) := find memo
    (answer, Function.update memo place (some answer))

/-- Whether the pattern from position `p` on stands for the items from position `i` on. A run at the
end of the pattern takes all items that are left; any other is tried with every number of items, none
of them first. -/
def search (pattern : List (Wildcard α)) (items : List α) (p i : Nat) : StateM Memo Bool :=
  remembered (p, i) <|
    if h : p < pattern.length then
      match pattern[p] with
      | .run =>
        if p + 1 = pattern.length then return true
        else (List.range' i (items.length + 1 - i)).anyM fun j => search pattern items (p + 1) j
      | .one fits =>
        if hi : i < items.length then
          if fits items[i] then search pattern items (p + 1) (i + 1) else return false
        else return false
    else return decide (items.length ≤ i)
termination_by pattern.length - p

section Search

variable (pattern : List (Wildcard α)) (items : List α)

def Memo.Sound (memo : Memo) : Prop :=
  ∀ p i answer, memo (p, i) = some answer → answer = covers (pattern.drop p) (items.drop i)

/-- A search that from right answers finds `answer` and leaves right answers. -/
def Finds (find : StateM Memo Bool) (answer : Bool) : Prop :=
  ∀ memo : Memo, memo.Sound pattern items →
    (find memo).1 = answer ∧ (find memo).2.Sound pattern items

variable {pattern items}

theorem finds_pure (answer : Bool) : Finds pattern items (pure answer) answer :=
  fun _ hmemo => ⟨rfl, hmemo⟩

theorem finds_remembered {p i : Nat} {find : StateM Memo Bool}
    (h : Finds pattern items find (covers (pattern.drop p) (items.drop i))) :
    Finds pattern items (remembered (p, i) find) (covers (pattern.drop p) (items.drop i)) := by
  intro memo hmemo
  cases hplace : memo (p, i) with
  | some answer =>
    have hrun : remembered (p, i) find memo = (answer, memo) := by rw [remembered, hplace]
    rw [hrun]
    exact ⟨hmemo p i answer hplace, hmemo⟩
  | none =>
    obtain ⟨hanswer, hleft⟩ := h memo hmemo
    have hrun : remembered (p, i) find memo =
        ((find memo).1, Function.update (find memo).2 (p, i) (some (find memo).1)) := by
      rw [remembered, hplace]
      rfl
    rw [hrun]
    refine ⟨hanswer, ?_⟩
    intro q j answer hkept
    by_cases hsame : (q, j) = (p, i)
    · cases hsame
      change Function.update (find memo).2 (p, i) _ (p, i) = _ at hkept
      rw [Function.update_self, Option.some.injEq] at hkept
      rw [← hkept, hanswer]
    · change Function.update (find memo).2 (p, i) _ (q, j) = _ at hkept
      rw [Function.update_of_ne hsame] at hkept
      exact hleft q j answer hkept

theorem anyM_cons (find : Nat → StateM Memo Bool) (j : Nat) (places : List Nat) (memo : Memo) :
    (j :: places).anyM find memo =
      if (find j memo).1 then (true, (find j memo).2) else places.anyM find (find j memo).2 := by
  have hstep : (j :: places).anyM find memo =
      (match (find j memo).1 with
        | true => pure true
        | false => places.anyM find : StateM Memo Bool) (find j memo).2 := rfl
  rw [hstep]
  cases (find j memo).1 with
  | true => rfl
  | false => rfl

theorem finds_anyM {places : List Nat} {find : Nat → StateM Memo Bool} {answer : Nat → Bool}
    (h : ∀ j ∈ places, Finds pattern items (find j) (answer j)) :
    Finds pattern items (places.anyM find) (places.any answer) := by
  induction places with
  | nil => exact finds_pure false
  | cons j places ih =>
    intro memo hmemo
    obtain ⟨hanswer, hleft⟩ := h j List.mem_cons_self memo hmemo
    rw [anyM_cons, hanswer, List.any_cons]
    cases answer j with
    | true => exact ⟨rfl, hleft⟩
    | false => exact ih (fun k hk => h k (List.mem_cons_of_mem j hk)) _ hleft

/-- Trying a run with every number of items misses none of them. -/
theorem any_range'_eq_covers (rest : List (Wildcard α)) {i : Nat} (hi : i ≤ items.length) :
    (List.range' i (items.length + 1 - i)).any (fun j => covers rest (items.drop j)) =
      covers (.run :: rest) (items.drop i) := by
  rw [Bool.eq_iff_iff, List.any_eq_true, covers_run_iff]
  constructor
  · rintro ⟨j, hj, hrest⟩
    obtain ⟨hlow, hhigh⟩ := List.mem_range'_1.mp hj
    refine ⟨j - i, ?_, ?_⟩
    · rw [List.length_drop]
      omega
    · rw [List.drop_drop, Nat.add_sub_cancel' hlow]
      exact hrest
  · rintro ⟨k, hk, hrest⟩
    rw [List.length_drop] at hk
    rw [List.drop_drop] at hrest
    exact ⟨i + k, List.mem_range'_1.mpr ⟨by omega, by omega⟩, hrest⟩

/-- A run at the end of a pattern needs no trying. -/
theorem covers_last_run (items : List α) : covers [.run] items = true :=
  covers_run_iff.mpr ⟨items.length, Nat.le_refl _, by rw [List.drop_length, covers_nil]; rfl⟩

theorem finds_search {p i : Nat} (hi : i ≤ items.length) :
    Finds pattern items (search pattern items p i) (covers (pattern.drop p) (items.drop i)) := by
  -- every call stands one element further in the pattern, whatever has been kept so far
  induction hleft : pattern.length - p generalizing p i with
  | zero =>
    have hp : ¬ p < pattern.length := by omega
    rw [search]
    apply finds_remembered
    rw [dif_neg hp, List.drop_of_length_le (Nat.le_of_not_lt hp), covers_nil]
    have hanswer : decide (items.length ≤ i) = (items.drop i).isEmpty := by
      rw [Bool.eq_iff_iff, decide_eq_true_iff, List.isEmpty_iff, List.drop_eq_nil_iff]
    rw [hanswer]
    exact finds_pure _
  | succ left ih =>
    have hp : p < pattern.length := by omega
    have hnext : pattern.length - (p + 1) = left := by omega
    rw [search]
    apply finds_remembered
    rw [dif_pos hp, List.drop_eq_getElem_cons hp]
    cases pattern[p] with
    | run =>
      dsimp only
      split
      · rename_i hlast
        rw [List.drop_of_length_le (by omega), covers_last_run]
        exact finds_pure true
      · rw [← any_range'_eq_covers (pattern.drop (p + 1)) hi]
        refine finds_anyM fun j hj => ih ?_ hnext
        have hhigh := (List.mem_range'_1.mp hj).2
        omega
    | one fits =>
      dsimp only
      split
      · rename_i hitem
        rw [List.drop_eq_getElem_cons hitem, covers_one_cons]
        cases fits items[i] with
        | true => exact ih hitem hnext
        | false => exact finds_pure false
      · rename_i hitem
        rw [List.drop_of_length_le (Nat.le_of_not_lt hitem), covers_one_nil]
        exact finds_pure false

theorem search_eq_covers (pattern : List (Wildcard α)) (items : List α) :
    (search pattern items 0 0 fun _ => none).1 = covers pattern items :=
  (finds_search (Nat.zero_le _) (fun _ => none) fun _ _ _ h => by cases h).1

end Search

end Wildcard

namespace Glob

/-- A part of a pattern stands for a block of the parts of a path: `**` for every block, any other
for a single part of its form. -/
def StandsFor (part : Text) (block : List Text) : Prop :=
  part ≠ anyParts → ∃ s, block = [s] ∧ matchesPart part s

theorem fits_iff_standsFor (part : Text) (block : List Text) :
    Wildcard.Fits (if part = anyParts then .run else .one (matchesPart part)) block ↔
      StandsFor part block := by
  unfold StandsFor
  split
  · rename_i hany
    exact ⟨fun _ hpart => absurd hany hpart, fun _ => trivial⟩
  · rename_i hpart
    exact ⟨fun hfits _ => hfits, fun hstands => hstands hpart⟩

theorem forall₂_pathPattern_iff {pattern : Text} {blocks : List (List Text)} :
    List.Forall₂ Wildcard.Fits (pathPattern pattern) blocks ↔
      List.Forall₂ StandsFor (Path.segments (Path.normalize pattern)) blocks := by
  rw [pathPattern, List.forall₂_map_left_iff]
  simp only [fits_iff_standsFor]

/-- A path is of the form of a pattern exactly if its parts can be cut into blocks for which the
parts of the pattern stand in order, and this is what the search by positions finds. -/
theorem isMatch_iff_blocks (path pattern : Text) :
    (isMatch path pattern ↔
      ∃ blocks : List (List Text), blocks.flatten = Path.segments (Path.normalize path) ∧
        List.Forall₂ StandsFor (Path.segments (Path.normalize pattern)) blocks) ∧
    (Wildcard.search (pathPattern pattern) (Path.segments (Path.normalize path)) 0 0
      fun _ => none).1 = isMatch path pattern := by
  refine ⟨?_, Wildcard.search_eq_covers _ _⟩
  rw [isMatch, Wildcard.covers_iff_blocks]
  simp only [forall₂_pathPattern_iff]

end Glob

end ParamLint

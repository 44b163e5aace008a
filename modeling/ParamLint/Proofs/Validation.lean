import ParamLint.Proofs.Overrides
import ParamLint.Proofs.Spelling

/-!
# What is wrong with options

Options are accepted exactly if every key names a setting, no setting is given twice and every value
is of the kind of its setting. Accepted options extend the default configuration; all others are
refused with one problem for each value, item and key that is wrong, in a fixed order.
-/
namespace ParamLint

open Json

variable {raw : List (Text × Json)}

namespace Setting

/-- The options hold a value for the setting, under either of its names. -/
def Holds (raw : List (Text × Json)) (s : Setting) (v : Json) : Prop :=
  (s.camelKey, v) ∈ raw ∨ (s.snakeKey, v) ∈ raw

/-- The setting has its value from this key: the camel-case key comes first. -/
def GivenBy (raw : List (Text × Json)) (s : Setting) (key : Text) (v : Json) : Prop :=
  (key, v) ∈ raw ∧ (key = s.camelKey ∨ key = s.snakeKey ∧ s.camelKey ∉ keys raw)

theorem given?_eq_some_iff_givenBy (hkeys : (keys raw).Nodup) {s : Setting} {key : Text} {v : Json} :
    s.given? raw = some (key, v) ↔ s.GivenBy raw key v := by
  rw [given?_eq_some_iff, lookup_eq_some_iff_mem hkeys, lookup_eq_some_iff_mem hkeys]
  constructor
  · rintro (⟨rfl, hmem⟩ | ⟨rfl, hcamel, hmem⟩)
    · exact ⟨hmem, .inl rfl⟩
    · exact ⟨hmem, .inr ⟨rfl, hcamel⟩⟩
  · rintro ⟨hmem, rfl | ⟨rfl, hcamel⟩⟩
    · exact .inl ⟨rfl, hmem⟩
    · exact .inr ⟨rfl, hcamel, hmem⟩

theorem eq_of_key {s s' : Setting} {key : Text} (h : key = s.camelKey ∨ key = s.snakeKey)
    (h' : key = s'.camelKey ∨ key = s'.snakeKey) : s = s' := by
  rcases h with rfl | rfl <;> rcases h' with h' | h'
  · exact camelKey_inj.mp h'
  · exact absurd h' (camelKey_ne_snakeKey s s')
  · exact absurd h'.symm (camelKey_ne_snakeKey s' s)
  · exact snakeKey_inj.mp h'

theorem key_ne_nil {s : Setting} {key : Text} (h : key = s.camelKey ∨ key = s.snakeKey) :
    key ≠ [] := by
  rcases h with rfl | rfl <;> cases s <;> decide

end Setting

namespace Options

theorem all_isString_iff {items : List Json} :
    items.all isString ↔ ∃ names : List Text, items = names.map .string := by
  constructor
  · intro h
    induction items with
    | nil => exact ⟨[], rfl⟩
    | cons v items ih =>
      rw [List.all_cons, Bool.and_eq_true] at h
      obtain ⟨names, rfl⟩ := ih h.2
      cases v with
      | string t => exact ⟨t :: names, rfl⟩
      | _ => exact absurd h.1 (by simp [isString])
  · rintro ⟨names, rfl⟩
    simp [isString]

theorem strings_map (names : List Text) : strings (names.map .string) = names := by
  induction names with
  | nil => rfl
  | cons t names ih => exact congrArg (t :: ·) ih

theorem accepts_iff_of_isList {s : Setting} (hlist : s.isList) {v : Json} :
    s.accepts v ↔ ∃ names : List Text, v = .array (names.map .string) := by
  cases v with
  | array items =>
    simpa only [Setting.accepts, hlist, Bool.true_and, array.injEq] using all_isString_iff
  | _ => simp [Setting.accepts, hlist]

theorem accepts_iff_of_isFlag {s : Setting} (hflag : s.isList = false) {v : Json} :
    s.accepts v ↔ ∃ b, v = .bool b := by
  cases v with
  | bool b => simp [Setting.accepts, hflag]
  | _ => simp [Setting.accepts, hflag]

/-! What is accepted -/

/-- Every key is a name of a setting, no setting is given under both its names, and the values are
lists of strings for some settings and booleans for the others. -/
structure Valid (raw : List (Text × Json)) : Prop where
  known : ∀ key ∈ keys raw, ∃ s : Setting, key = s.camelKey ∨ key = s.snakeKey
  once : ∀ s : Setting, s.camelKey ∈ keys raw → s.snakeKey ∉ keys raw
  lists : ∀ s v, Setting.Holds raw s v → s.isList →
    ∃ names : List Text, v = .array (names.map .string)
  flags : ∀ s v, Setting.Holds raw s v → s.isList = false → ∃ b, v = .bool b

theorem Valid.accepts (h : Valid raw) {s : Setting} {v : Json} (hv : s.Holds raw v) :
    s.accepts v := by
  cases hlist : s.isList with
  | true => exact (accepts_iff_of_isList hlist).mpr (h.lists s v hv hlist)
  | false => exact (accepts_iff_of_isFlag hlist).mpr (h.flags s v hv hlist)

theorem holds_of_given? {s : Setting} {key : Text} {v : Json} (h : s.given? raw = some (key, v)) :
    s.Holds raw v := by
  obtain ⟨rfl | rfl, hv⟩ := key_of_given? h
  · exact .inl (mem_of_lookup hv)
  · exact .inr (mem_of_lookup hv)

theorem value?_of_holds (hkeys : (keys raw).Nodup)
    (honce : ∀ s : Setting, s.camelKey ∈ keys raw → s.snakeKey ∉ keys raw) {s : Setting} {v : Json}
    (h : s.Holds raw v) : s.value? raw = some v := by
  rw [Setting.value?_eq]
  rcases h with hmem | hmem
  · rw [(lookup_eq_some_iff_mem hkeys).mpr hmem]
    rfl
  · have hsnake : s.snakeKey ∈ keys raw := List.mem_map.mpr ⟨_, hmem, rfl⟩
    have hcamel : s.camelKey ∉ keys raw := fun hcamel => honce s hcamel hsnake
    rw [lookup_eq_none_iff_not_mem.mpr hcamel, (lookup_eq_some_iff_mem hkeys).mpr hmem]
    rfl

theorem problems_eq_nil_iff_valid (hkeys : (keys raw).Nodup) : problems raw = [] ↔ Valid raw := by
  constructor
  · intro hraw
    have honce : ∀ s : Setting, s.camelKey ∈ keys raw → s.snakeKey ∉ keys raw :=
      fun s hcamel hsnake => camelKey_not_mem hraw hsnake hcamel
    have haccepts : ∀ s v, Setting.Holds raw s v → s.accepts v :=
      fun s v hv => accepts_of_value? hraw (value?_of_holds hkeys honce hv)
    refine ⟨fun key hkey => ?_, honce, fun s v hv hlist => ?_, fun s v hv hflag => ?_⟩
    · obtain ⟨s, hs⟩ := mem_usedKeys_of_mem hraw hkey
      exact ⟨s, hs.imp id And.left⟩
    · exact (accepts_iff_of_isList hlist).mp (haccepts s v hv)
    · exact (accepts_iff_of_isFlag hflag).mp (haccepts s v hv)
  · intro h
    refine problems_eq_nil_iff.mpr ⟨fun s key v hgiven => h.accepts (holds_of_given? hgiven), ?_⟩
    intro key hkey
    refine mem_usedKeys_iff.mpr ⟨hkey, ?_⟩
    obtain ⟨s, rfl | rfl⟩ := h.known key hkey
    · exact ⟨s, .inl rfl⟩
    · exact ⟨s, .inr ⟨rfl, fun hcamel => h.once s hcamel hkey⟩⟩

/-! What accepted options stand for -/

/-- The options give the setting this list; without a value, or with null, it is empty. -/
def Lists (raw : List (Text × Json)) (s : Setting) (names : List Text) : Prop :=
  s.Holds raw (.array (names.map .string)) ∨ names = [] ∧ ∀ v, s.Holds raw v → v = .null

def Flags (raw : List (Text × Json)) (s : Setting) (old b : Bool) : Prop :=
  s.Holds raw (.bool b) ∨ b = old ∧ ∀ v, s.Holds raw v → v = .null

/-- The second configuration is the first one with options on top: names are added, patterns come
after those that are there, and flags are replaced. -/
structure Extends (base : Configuration) (raw : List (Text × Json)) (c : Configuration) : Prop where
  functionNames : ∃ names, Lists raw .functions names ∧
    ∀ t, t ∈ c.functionNames ↔ t ∈ base.functionNames ∨ t ∈ names
  methodNames : ∃ names, Lists raw .methods names ∧
    ∀ t, t ∈ c.methodNames ↔ t ∈ base.methodNames ∨ t ∈ names
  constructors : Flags raw .constructors base.constructors c.constructors
  singleParam : Flags raw .singleParam base.singleParam c.singleParam
  noParams : Flags raw .noParams base.noParams c.noParams
  testFiles : Flags raw .testFiles base.testFiles c.testFiles
  filePatterns : ∃ names, Lists raw .files names ∧ c.filePatterns = base.filePatterns ++ names

/-- Each setting has at most one value, and it is null or of its kind. -/
structure Typed (raw : List (Text × Json)) : Prop where
  value : ∀ s v, Setting.Holds raw s v → s.value? raw = some v
  accepts : ∀ s v, Setting.Holds raw s v → v = .null ∨ s.accepts v

theorem holds_of_value? {s : Setting} {v : Json} (h : s.value? raw = some v) : s.Holds raw v := by
  obtain ⟨e, he, rfl⟩ := Option.map_eq_some_iff.mp h
  exact holds_of_given? he

theorem Typed.value_cases (h : Typed raw) (s : Setting) :
    ((s.value? raw).getD .null = .null ∧ ∀ v, s.Holds raw v → v = .null) ∨
      ∃ v, s.value? raw = some v ∧ s.Holds raw v ∧ s.accepts v := by
  cases hvalue : s.value? raw with
  | none =>
    refine .inl ⟨rfl, fun v hv => ?_⟩
    rw [h.value s v hv] at hvalue
    cases hvalue
  | some v =>
    have hv := holds_of_value? hvalue
    rcases h.accepts s v hv with rfl | haccepts
    · refine .inl ⟨rfl, fun w hw => ?_⟩
      rw [h.value s w hw] at hvalue
      exact Option.some.inj hvalue
    · exact .inr ⟨v, rfl, hv, haccepts⟩

theorem Typed.lists_listOr (h : Typed raw) {s : Setting} (hlist : s.isList) :
    Lists raw s (listOr raw s) := by
  rw [listOr_eq]
  rcases h.value_cases s with ⟨hnull, habsent⟩ | ⟨v, hvalue, hv, haccepts⟩
  · refine .inr ⟨?_, habsent⟩
    cases hvalue : s.value? raw with
    | none => rfl
    | some w =>
      rw [hvalue] at hnull
      obtain rfl : w = .null := hnull
      rfl
  · obtain ⟨names, rfl⟩ := (accepts_iff_of_isList hlist).mp haccepts
    rw [hvalue]
    dsimp only
    rw [strings_map]
    exact .inl hv

theorem Typed.flags_flagOr (h : Typed raw) {s : Setting} (hflag : s.isList = false) (old : Bool) :
    Flags raw s old (flagOr raw s old) := by
  rw [flagOr_eq]
  rcases h.value_cases s with ⟨hnull, habsent⟩ | ⟨v, hvalue, hv, haccepts⟩
  · refine .inr ⟨?_, habsent⟩
    cases hvalue : s.value? raw with
    | none => rfl
    | some w =>
      rw [hvalue] at hnull
      obtain rfl : w = .null := hnull
      rfl
  · obtain ⟨b, rfl⟩ := (accepts_iff_of_isFlag hflag).mp haccepts
    rw [hvalue]
    exact .inl hv

theorem Typed.extends_extendedBy (h : Typed raw) (base : Configuration) :
    Extends base raw (base.extendedBy raw) where
  functionNames := ⟨_, h.lists_listOr rfl, fun _ => List.mem_append⟩
  methodNames := ⟨_, h.lists_listOr rfl, fun _ => List.mem_append⟩
  constructors := h.flags_flagOr rfl _
  singleParam := h.flags_flagOr rfl _
  noParams := h.flags_flagOr rfl _
  testFiles := h.flags_flagOr rfl _
  filePatterns := ⟨_, h.lists_listOr rfl, rfl⟩

theorem Valid.typed (h : Valid raw) (hkeys : (keys raw).Nodup) : Typed raw where
  value _ _ hv := value?_of_holds hkeys h.once hv
  accepts _ _ hv := .inr (h.accepts hv)

/-! What is refused -/

/-- All that can be wrong: the value of a list or of a flag, an item of a list, and a key that gives
no setting. -/
inductive Wrong (raw : List (Text × Json)) : OptionProblem → Prop
  | notList {s : Setting} {key : Text} {v : Json} (hlist : s.isList) (given : s.GivenBy raw key v)
      (wrong : ∀ items, v ≠ .array items) : Wrong raw (.notList key)
  | notString {s : Setting} {key : Text} {items : List Json} {index : Nat} {item : Json}
      (hlist : s.isList) (given : s.GivenBy raw key (.array items))
      (there : items[index]? = some item) (wrong : ∀ t, item ≠ .string t) :
      Wrong raw (.notString key index)
  | notBoolean {s : Setting} {key : Text} {v : Json} (hflag : s.isList = false)
      (given : s.GivenBy raw key v) (wrong : ∀ b, v ≠ .bool b) : Wrong raw (.notBoolean key)
  | unknownKey {key : Text} (there : key ∈ keys raw)
      (wrong : ∀ (s : Setting) (v : Json), ¬ s.GivenBy raw key v) : Wrong raw (.unknownKey key)

theorem mem_itemProblems_iff {key : Text} {start : Nat} {items : List Json} {q : OptionProblem} :
    q ∈ itemProblems key start items ↔
      ∃ index item, items[index]? = some item ∧ (∀ t, item ≠ .string t) ∧
        q = .notString key (start + index) := by
  induction items generalizing start with
  | nil => simp [itemProblems]
  | cons v items ih =>
    have hv : q ∈ (if isString v then [] else [OptionProblem.notString key start]) ↔
        (∀ t, v ≠ .string t) ∧ q = .notString key start := by
      cases v <;> simp [isString]
    rw [itemProblems, List.mem_append, hv, ih]
    constructor
    · rintro (⟨hwrong, rfl⟩ | ⟨index, item, hitem, hwrong, rfl⟩)
      · exact ⟨0, v, rfl, hwrong, rfl⟩
      · exact ⟨index + 1, item, hitem, hwrong, by rw [Nat.add_right_comm]; rfl⟩
    · rintro ⟨index, item, hitem, hwrong, rfl⟩
      cases index with
      | zero =>
        obtain rfl := Option.some.inj hitem
        exact .inl ⟨hwrong, rfl⟩
      | succ index => exact .inr ⟨index, item, hitem, hwrong, by rw [Nat.add_right_comm]; rfl⟩

theorem mem_valueProblems_iff {s : Setting} {key : Text} {v : Json} {q : OptionProblem} :
    q ∈ s.valueProblems key v ↔
      (s.isList ∧ (∀ items, v ≠ .array items) ∧ q = .notList key) ∨
      (s.isList ∧ ∃ items index item, v = .array items ∧ items[index]? = some item ∧
        (∀ t, item ≠ .string t) ∧ q = .notString key index) ∨
      (s.isList = false ∧ (∀ b, v ≠ .bool b) ∧ q = .notBoolean key) := by
  unfold Setting.valueProblems
  cases s.isList with
  | true => cases v <;> simp [listProblems, mem_itemProblems_iff]
  | false => cases v <;> simp [flagProblems]

theorem mem_problems_iff_wrong (hkeys : (keys raw).Nodup) {q : OptionProblem} :
    q ∈ problems raw ↔ Wrong raw q := by
  have hused : ∀ key, key ∈ usedKeys raw ↔ ∃ (s : Setting) (v : Json), s.GivenBy raw key v := by
    intro key
    simp only [← Setting.given?_eq_some_iff_givenBy hkeys]
    simp [usedKeys, Setting.mem_all]
  simp only [mem_problems_iff, hused, Setting.given?_eq_some_iff_givenBy hkeys,
    mem_valueProblems_iff]
  constructor
  · rintro (⟨s, key, v, hgiven, ⟨hlist, hwrong, rfl⟩ |
      ⟨hlist, items, index, item, rfl, hitem, hwrong, rfl⟩ | ⟨hflag, hwrong, rfl⟩⟩ |
      ⟨key, hkey, hunused, rfl⟩)
    · exact .notList hlist hgiven hwrong
    · exact .notString hlist hgiven hitem hwrong
    · exact .notBoolean hflag hgiven hwrong
    · exact .unknownKey hkey fun s v hgiven => hunused ⟨s, v, hgiven⟩
  · rintro (⟨hlist, hgiven, hwrong⟩ | ⟨hlist, hgiven, hitem, hwrong⟩ | ⟨hflag, hgiven, hwrong⟩ |
      ⟨hkey, hwrong⟩)
    · exact .inl ⟨_, _, _, hgiven, .inl ⟨hlist, hwrong, rfl⟩⟩
    · exact .inl ⟨_, _, _, hgiven, .inr (.inl ⟨hlist, _, _, _, rfl, hitem, hwrong, rfl⟩)⟩
    · exact .inl ⟨_, _, _, hgiven, .inr (.inr ⟨hflag, hwrong, rfl⟩)⟩
    · refine .inr ⟨_, hkey, ?_, rfl⟩
      rintro ⟨s, v, hgiven⟩
      exact hwrong s v hgiven

/-- The problem is about the value of the setting. -/
def Concerns (s : Setting) : OptionProblem → Prop
  | .notList key | .notString key _ | .notBoolean key => key = s.camelKey ∨ key = s.snakeKey
  | .unknownKey _ => False

/-- Values come in the order of the settings, items of one list by their index, and after them keys
in the order of the options. -/
inductive Precedes (raw : List (Text × Json)) : OptionProblem → OptionProblem → Prop
  | setting {s s' : Setting} {q q' : OptionProblem} (order : [s, s'].Sublist Setting.all)
      (first : Concerns s q) (second : Concerns s' q') : Precedes raw q q'
  | item {key : Text} {i j : Nat} (order : i < j) :
      Precedes raw (.notString key i) (.notString key j)
  | leftover {s : Setting} {q : OptionProblem} {key : Text} (first : Concerns s q) :
      Precedes raw q (.unknownKey key)
  | key {key key' : Text} (order : [key, key'].Sublist (keys raw)) :
      Precedes raw (.unknownKey key) (.unknownKey key')

theorem Precedes.ne (hkeys : (keys raw).Nodup) {q q' : OptionProblem} (h : Precedes raw q q') :
    q ≠ q' := by
  cases h with
  | setting order first second =>
    rintro rfl
    have hdistinct : Setting.all.Nodup := by decide
    refine List.pairwise_iff_forall_sublist.mp hdistinct order ?_
    cases q with
    | unknownKey key => exact first.elim
    | _ => exact Setting.eq_of_key first second
  | item order =>
    rintro ⟨⟩
    exact Nat.lt_irrefl _ order
  | leftover first =>
    rintro rfl
    exact first
  | key order =>
    rintro ⟨⟩
    exact List.pairwise_iff_forall_sublist.mp hkeys order rfl

theorem pairwise_itemProblems (raw : List (Text × Json)) (key : Text) (start : Nat)
    (items : List Json) : (itemProblems key start items).Pairwise (Precedes raw) := by
  induction items generalizing start with
  | nil => exact .nil
  | cons v items ih =>
    rw [itemProblems, List.pairwise_append]
    refine ⟨?_, ih (start + 1), ?_⟩
    · split
      · exact .nil
      · exact List.pairwise_singleton _ _
    · intro q hq q' hq'
      obtain ⟨index, item, -, -, rfl⟩ := mem_itemProblems_iff.mp hq'
      split at hq
      · cases hq
      · obtain rfl := List.mem_singleton.mp hq
        exact .item (by omega)

theorem pairwise_valueProblems (raw : List (Text × Json)) (s : Setting) (key : Text) (v : Json) :
    (s.valueProblems key v).Pairwise (Precedes raw) := by
  unfold Setting.valueProblems
  split
  · cases v with
    | array items => exact pairwise_itemProblems raw key 0 items
    | _ => exact List.pairwise_singleton _ _
  · cases v with
    | bool b => exact .nil
    | _ => exact List.pairwise_singleton _ _

theorem concerns_of_mem_problemsOf {s : Setting} {q : OptionProblem} (h : q ∈ problemsOf raw s) :
    Concerns s q := by
  rw [problemsOf_eq] at h
  cases hgiven : s.given? raw with
  | none => simp [hgiven] at h
  | some e =>
    rw [hgiven] at h
    obtain ⟨hkey, -⟩ := key_of_given? hgiven
    rcases mem_valueProblems h with ⟨-, rfl, -⟩ | ⟨-, _, _, -, rfl⟩ | ⟨-, rfl⟩ <;> exact hkey

theorem pairwise_problems (raw : List (Text × Json)) :
    (problems raw).Pairwise (Precedes raw) := by
  rw [problems, List.pairwise_append, List.pairwise_flatMap]
  refine ⟨⟨fun s _ => ?_, ?_⟩, ?_, ?_⟩
  · rw [problemsOf_eq]
    split
    · exact .nil
    · exact pairwise_valueProblems raw s _ _
  · refine List.pairwise_iff_forall_sublist.mpr fun horder q hq q' hq' => ?_
    exact .setting horder (concerns_of_mem_problemsOf hq) (concerns_of_mem_problemsOf hq')
  · rw [List.pairwise_map]
    refine List.pairwise_iff_forall_sublist.mpr fun horder => ?_
    exact .key (horder.trans List.filter_sublist)
  · intro q hq q' hq'
    obtain ⟨s, -, hq⟩ := List.mem_flatMap.mp hq
    obtain ⟨key, -, rfl⟩ := List.mem_map.mp hq'
    exact .leftover (concerns_of_mem_problemsOf hq)

/-! How it is said -/

/-- The line of a problem: the key that gives the value, with the index of an item, and what is
wrong. -/
def line : OptionProblem → Text
  | .notList key => key ++ Text.ofString ": Input should be a valid list"
  | .notString key index =>
    key ++ Text.ofString "." ++ Text.ofChars (Nat.toDigits 10 index) ++
      Text.ofString ": Input should be a valid string"
  | .notBoolean key => key ++ Text.ofString ": Input should be a valid boolean"
  | .unknownKey [] => Text.ofString "options: Extra inputs are not permitted"
  | .unknownKey key => key ++ Text.ofString ": Extra inputs are not permitted"

theorem message_of_concerns {s : Setting} {q : OptionProblem} (h : Concerns s q) :
    q.message = line q := by
  cases q with
  | notList key =>
    rw [OptionProblem.message, OptionProblem.location, if_neg (by simpa using Setting.key_ne_nil h)]
    rfl
  | notString key index =>
    have hindex : toString index = String.ofList (Nat.toDigits 10 index) := rfl
    have hlocation : Text.ofString s!".{index}" =
        Text.ofString "." ++ Text.ofChars (Nat.toDigits 10 index) := by
      simp only [hindex, Text.ofString, Text.ofChars, String.toList_append, String.toList_ofList,
        List.map_append]
      rfl
    rw [OptionProblem.message, OptionProblem.location, hlocation, ← List.append_assoc]
    rfl
  | notBoolean key =>
    rw [OptionProblem.message, OptionProblem.location, if_neg (by simpa using Setting.key_ne_nil h)]
    rfl
  | unknownKey key => exact h.elim

theorem message_unknownKey (key : Text) :
    (OptionProblem.unknownKey key).message = line (.unknownKey key) := by
  cases key <;> rfl

theorem message_eq_line {q : OptionProblem} (h : q ∈ problems raw) : q.message = line q := by
  rcases List.mem_append.mp h with h | h
  · obtain ⟨s, -, hq⟩ := List.mem_flatMap.mp h
    exact message_of_concerns (concerns_of_mem_problemsOf hq)
  · obtain ⟨key, -, rfl⟩ := List.mem_map.mp h
    exact message_unknownKey key

/-- Options are accepted exactly if nothing is wrong with them, and then extend the default
configuration. Otherwise all that is wrong is listed, each problem once and in order, and the message
has a line for each of them. -/
theorem parse_reports_all_problems (hkeys : (keys raw).Nodup) :
    (Valid raw ∧ ∃ c, parse raw = .ok c ∧ Extends {} raw c) ∨
    (¬ Valid raw ∧ ∃ found, parse raw = .error found ∧ (∀ q, q ∈ found ↔ Wrong raw q) ∧
      found.Nodup ∧ found.Pairwise (Precedes raw) ∧
      (ConfigError.invalid found).message =
        Text.ofString "Invalid options: " ++ Text.join (Text.ofString "; ") (found.map line)) := by
  by_cases hvalid : Valid raw
  · have hnone := (problems_eq_nil_iff_valid hkeys).mpr hvalid
    exact .inl ⟨hvalid, _, parse_eq_ok_iff.mpr ⟨hnone, rfl⟩,
      (hvalid.typed hkeys).extends_extendedBy {}⟩
  · have hsome : problems raw ≠ [] := mt (problems_eq_nil_iff_valid hkeys).mp hvalid
    have horder := pairwise_problems raw
    refine .inr ⟨hvalid, _, parse_eq_error_iff.mpr ⟨rfl, hsome⟩,
      fun q => mem_problems_iff_wrong hkeys, horder.imp (Precedes.ne hkeys), horder, ?_⟩
    have hlines : (problems raw).map OptionProblem.message = (problems raw).map line :=
      List.map_congr_left fun q hq => message_eq_line hq
    rw [ConfigError.message, hlines]

/-! A list under its second name, one with an item that is no string, and a key without a name -/

def faultyOptions : List (Text × Json) :=
  [([], .null), (Setting.methods.snakeKey, .bool true),
   (Setting.functions.camelKey, .array [.string (Text.ofString "f"), .integer 1])]

theorem parse_reports_faultyOptions :
    ∃ found, parse faultyOptions = .error found ∧
      found = [.notString Setting.functions.camelKey 1, .notList Setting.methods.snakeKey,
        .unknownKey []] ∧
      (∀ q, q ∈ found ↔ Wrong faultyOptions q) ∧
      (ConfigError.invalid found).message =
        Text.ofString ("Invalid options: ignoreFunctions.1: Input should be a valid string; " ++
          "ignore_methods: Input should be a valid list; options: Extra inputs are not permitted") := by
  have hkeys : (keys faultyOptions).Nodup := by decide +kernel
  rcases parse_reports_all_problems hkeys with
    ⟨hvalid, -⟩ | ⟨-, found, hparse, hmem, -, -, hmessage⟩
  · exact absurd ((problems_eq_nil_iff_valid hkeys).mpr hvalid) (by decide +kernel)
  · obtain ⟨hfound, -⟩ := parse_eq_error_iff.mp hparse
    have hlist : found = [.notString Setting.functions.camelKey 1, .notList Setting.methods.snakeKey,
        .unknownKey []] := by
      rw [← hfound]
      decide +kernel
    refine ⟨found, hparse, hlist, hmem, ?_⟩
    rw [hmessage, hlist]
    decide +kernel

end Options

end ParamLint

import ParamLint.Config.File
import ParamLint.Proofs.Pointwise

/-!
# Options and overrides

What a key holds after overrides were laid over options, and what makes options valid: every value
is of the kind of its setting, and every key gives a setting that no other key gives.
-/
namespace ParamLint

theorem Text.ofString_inj {s t : String} : ofString s = ofString t ↔ s = t := by
  constructor
  · intro h
    have hscalar : ∀ c d : Char, CodePoint.scalar c = .scalar d → c = d :=
      fun _ _ => CodePoint.scalar.inj
    exact String.toList_inj.mp ((List.map_inj_right hscalar).mp h)
  · exact congrArg ofString

namespace Json

def keys (members : List (Text × Json)) : List Text := members.map (·.1)

theorem lookup_cons (key : Text) (e : Text × Json) (members : List (Text × Json)) :
    (e :: members).lookup key = if e.1 = key then some e.2 else members.lookup key := by
  obtain ⟨k, v⟩ := e
  by_cases h : k = key
  · simp [h]
  · have hbeq : (key == k) = false := beq_false_of_ne (Ne.symm h)
    simp [List.lookup_cons, hbeq, h]

theorem mem_keys_iff {key : Text} {members : List (Text × Json)} :
    key ∈ keys members ↔ ∃ v, members.lookup key = some v := by
  rw [← Option.ne_none_iff_exists', ne_eq, lookup_eq_none_iff_not_mem, Classical.not_not, keys]

theorem lookup_put (key key' : Text) (v : Json) (members : List (Text × Json)) :
    (Entries.put key v members).lookup key' =
      if key' = key then some v else members.lookup key' := by
  induction members with
  | nil =>
    by_cases h : key' = key
    · simp [Entries.put, h]
    · simp [Entries.put, lookup_cons, h, Ne.symm h]
  | cons e members ih =>
    obtain ⟨k, w⟩ := e
    rw [Entries.put]
    by_cases hk : k = key
    · rw [if_pos hk, lookup_cons, lookup_cons]
      subst k
      by_cases h : key' = key
      · simp [h]
      · simp [h, Ne.symm h]
    · rw [if_neg hk, lookup_cons, lookup_cons, ih]
      by_cases h : key' = key
      · subst key'
        simp [hk]
      · simp [h]

/-- A key that is there keeps its place, another one comes last. -/
theorem keys_put (key : Text) (v : Json) (members : List (Text × Json)) :
    keys (Entries.put key v members) =
      if key ∈ keys members then keys members else keys members ++ [key] := by
  induction members with
  | nil => rfl
  | cons e members ih =>
    obtain ⟨k, w⟩ := e
    rw [Entries.put]
    by_cases hk : k = key
    · simp [keys, hk]
    · have hcons : ∀ ms : List (Text × Json), keys ((k, w) :: ms) = k :: keys ms := fun _ => rfl
      rw [if_neg hk, hcons, hcons, ih]
      by_cases hmem : key ∈ keys members
      · simp [hmem]
      · simp [hmem, Ne.symm hk]

end Json

open Json

namespace Options

/-- What is under a key after a value was laid over it. -/
def lay (old : Option Json) (value : Json) : Option Json :=
  match value, old with
  | .null, old => old
  | .array more, some (.array items) => some (.array (items ++ more))
  | value, _ => some value

theorem lay_cases (old : Option Json) (value : Json) :
    (value = .null ∧ lay old value = old) ∨
      (∃ items more, old = some (.array items) ∧ value = .array more ∧
        lay old value = some (.array (items ++ more))) ∨
      (value ≠ .null ∧ lay old value = some value ∧
        ∀ items more, old = some (.array items) → value ≠ .array more) := by
  cases value with
  | null => exact .inl ⟨rfl, rfl⟩
  | array more =>
    cases old with
    | none => exact .inr (.inr ⟨nofun, rfl, nofun⟩)
    | some v =>
      cases v with
      | array items => exact .inr (.inl ⟨items, more, rfl, rfl, rfl⟩)
      | _ => exact .inr (.inr ⟨nofun, rfl, nofun⟩)
  | _ => exact .inr (.inr ⟨nofun, rfl, nofun⟩)

theorem override_cases (raw : List (Text × Json)) (key : Text) (value : Json) :
    (value = .null ∧ override raw key value = raw) ∨
      (value ≠ .null ∧ ∃ w, lay (raw.lookup key) value = some w ∧
        override raw key value = Entries.put key w raw) := by
  unfold override
  cases value with
  | null => exact .inl ⟨rfl, rfl⟩
  | array more =>
    refine .inr ⟨nofun, ?_⟩
    cases raw.lookup key with
    | none => exact ⟨_, rfl, rfl⟩
    | some v => cases v <;> exact ⟨_, rfl, rfl⟩
  | _ => exact .inr ⟨nofun, _, rfl, rfl⟩

theorem lookup_override (raw : List (Text × Json)) (key key' : Text) (value : Json) :
    (override raw key value).lookup key' =
      if key' = key then lay (raw.lookup key) value else raw.lookup key' := by
  rcases override_cases raw key value with ⟨rfl, heq⟩ | ⟨-, w, hw, heq⟩
  · rw [heq]
    split
    · rename_i hkey
      rw [hkey]
      rfl
    · rfl
  · rw [heq, hw, lookup_put]

theorem keys_override (raw : List (Text × Json)) (key : Text) (value : Json) :
    ∃ added, keys (override raw key value) = keys raw ++ added ∧ added ⊆ [key] := by
  rcases override_cases raw key value with ⟨-, heq⟩ | ⟨-, w, -, heq⟩
  · exact ⟨[], by rw [heq, List.append_nil], List.nil_subset _⟩
  · rw [heq, keys_put]
    split
    · exact ⟨[], by rw [List.append_nil], List.nil_subset _⟩
    · exact ⟨[key], rfl, List.Subset.refl _⟩

/-! Overrides one after the other -/

theorem merge_cons (raw : List (Text × Json)) (e : Text × Json) (overrides : List (Text × Json)) :
    merge raw (e :: overrides) = merge (override raw e.1 e.2) overrides := rfl

theorem lookup_merge_of_not_mem {overrides : List (Text × Json)} {key : Text}
    (h : key ∉ keys overrides) (raw : List (Text × Json)) :
    (merge raw overrides).lookup key = raw.lookup key := by
  induction overrides generalizing raw with
  | nil => rfl
  | cons e overrides ih =>
    have hne : key ≠ e.1 := fun heq => h (heq ▸ List.mem_cons_self)
    have hrest : key ∉ keys overrides := fun hmem => h (List.mem_cons_of_mem _ hmem)
    rw [merge_cons, ih hrest, lookup_override, if_neg hne]

/-- The value under a key is what overrides make of the value that was there. -/
theorem lookup_merge {overrides : List (Text × Json)} (hkeys : (keys overrides).Nodup)
    (raw : List (Text × Json)) (key : Text) :
    (merge raw overrides).lookup key =
      lay (raw.lookup key) ((overrides.lookup key).getD .null) := by
  induction overrides generalizing raw with
  | nil => rfl
  | cons e overrides ih =>
    obtain ⟨hnew, hrest⟩ := List.nodup_cons.mp hkeys
    rw [merge_cons, lookup_cons]
    by_cases he : e.1 = key
    · subst key
      rw [lookup_merge_of_not_mem hnew, lookup_override, if_pos rfl, if_pos rfl]
      rfl
    · rw [ih hrest, lookup_override, if_neg (Ne.symm he), if_neg he]

theorem keys_merge (raw overrides : List (Text × Json)) :
    ∃ added, keys (merge raw overrides) = keys raw ++ added ∧ added ⊆ keys overrides := by
  induction overrides generalizing raw with
  | nil => exact ⟨[], (List.append_nil _).symm, List.nil_subset _⟩
  | cons e overrides ih =>
    obtain ⟨first, hfirst, hkey⟩ := keys_override raw e.1 e.2
    obtain ⟨rest, hrest, hkeys⟩ := ih (override raw e.1 e.2)
    refine ⟨first ++ rest, by rw [merge_cons, hrest, hfirst, List.append_assoc], ?_⟩
    intro key hmem
    rcases List.mem_append.mp hmem with hmem | hmem
    · rw [List.mem_singleton.mp (hkey hmem)]
      exact List.mem_cons_self
    · exact List.mem_cons_of_mem _ (hkeys hmem)

/-- The overrides hold a value for the key, and not null. -/
def gives (overrides : List (Text × Json)) (key : Text) : Bool :=
  match overrides.lookup key with
  | none | some .null => false
  | some _ => true

theorem mem_keys_merge_iff {overrides : List (Text × Json)} (hkeys : (keys overrides).Nodup)
    {raw : List (Text × Json)} {key : Text} :
    key ∈ keys (merge raw overrides) ↔ key ∈ keys raw ∨ gives overrides key := by
  rw [mem_keys_iff, mem_keys_iff, lookup_merge hkeys]
  unfold gives
  cases overrides.lookup key with
  | none => simp [lay]
  | some value =>
    rcases lay_cases (raw.lookup key) value with
      ⟨rfl, heq⟩ | ⟨items, more, -, rfl, heq⟩ | ⟨h, heq, -⟩
    · simp [lay]
    · simp [heq]
    · cases value <;> simp_all

end Options

/-! Valid options -/

namespace Setting

theorem mem_all (s : Setting) : s ∈ all := by cases s <;> decide

theorem camelKey_inj {s s' : Setting} : s.camelKey = s'.camelKey ↔ s = s' := by
  rw [camelKey, camelKey, Text.ofString_inj]
  cases s <;> cases s' <;> simp [camelName]

theorem snakeKey_inj {s s' : Setting} : s.snakeKey = s'.snakeKey ↔ s = s' := by
  rw [snakeKey, snakeKey, Text.ofString_inj]
  cases s <;> cases s' <;> simp [snakeName]

theorem camelKey_ne_snakeKey (s s' : Setting) : s.camelKey ≠ s'.snakeKey := by
  rw [camelKey, snakeKey, ne_eq, Text.ofString_inj]
  cases s <;> cases s' <;> simp [camelName, snakeName]

/-- The setting is a list of strings, and otherwise a flag. -/
def isList : Setting → Bool
  | functions | methods | files => true
  | constructors | singleParam | noParams | testFiles => false

/-- The value is of the kind of the setting. -/
def accepts (s : Setting) : Json → Bool
  | .array items => s.isList && items.all Options.isString
  | .bool _ => !s.isList
  | _ => false

theorem exists_array {s : Setting} (hlist : s.isList) {v : Json} (h : s.accepts v) :
    ∃ items, v = .array items := by
  cases v with
  | array items => exact ⟨items, rfl⟩
  | _ => simp [accepts, hlist] at h

theorem exists_bool {s : Setting} (hflag : s.isList = false) {v : Json} (h : s.accepts v) :
    ∃ b, v = .bool b := by
  cases v with
  | bool b => exact ⟨b, rfl⟩
  | _ => simp [accepts, hflag] at h

def valueProblems (s : Setting) (key : Text) (v : Json) : List OptionProblem :=
  if s.isList then Options.listProblems key v else Options.flagProblems key v

def value? (raw : List (Text × Json)) (s : Setting) : Option Json :=
  (s.given? raw).map (·.2)

theorem given?_eq_some_iff {raw : List (Text × Json)} {s : Setting} {key : Text} {v : Json} :
    s.given? raw = some (key, v) ↔
      (key = s.camelKey ∧ raw.lookup s.camelKey = some v) ∨
      (key = s.snakeKey ∧ s.camelKey ∉ keys raw ∧ raw.lookup s.snakeKey = some v) := by
  rw [keys, ← lookup_eq_none_iff_not_mem]
  unfold given?
  cases raw.lookup s.camelKey with
  | none =>
    cases raw.lookup s.snakeKey with
    | none => simp
    | some w => simp [eq_comm]
  | some w => simp [eq_comm]

theorem value?_eq (raw : List (Text × Json)) (s : Setting) :
    s.value? raw = (raw.lookup s.camelKey).or (raw.lookup s.snakeKey) := by
  unfold value? given?
  cases raw.lookup s.camelKey with
  | none => cases raw.lookup s.snakeKey <;> rfl
  | some w => rfl

end Setting

def OptionProblem.key : OptionProblem → Text
  | notList key | notString key _ | notBoolean key | unknownKey key => key

namespace Options

theorem itemProblems_eq_nil_iff {key : Text} {index : Nat} {items : List Json} :
    itemProblems key index items = [] ↔ items.all isString := by
  induction items generalizing index with
  | nil => simp [itemProblems]
  | cons v items ih => by_cases hv : isString v <;> simp [itemProblems, hv, ih]

theorem valueProblems_eq_nil_iff {s : Setting} {key : Text} {v : Json} :
    s.valueProblems key v = [] ↔ s.accepts v := by
  unfold Setting.valueProblems Setting.accepts
  cases s.isList <;> cases v <;> simp [listProblems, flagProblems, itemProblems_eq_nil_iff]

theorem key_of_mem_itemProblems {key : Text} {index : Nat} {items : List Json}
    {q : OptionProblem} (h : q ∈ itemProblems key index items) : ∃ n, q = .notString key n := by
  induction items generalizing index with
  | nil => simp [itemProblems] at h
  | cons v items ih =>
    rcases List.mem_append.mp h with h | h
    · by_cases hv : isString v
      · simp [hv] at h
      · exact ⟨index, by simpa [hv] using h⟩
    · exact ih h

/-- A value has problems of one kind only: it is no list or no flag, or it holds items that are no
strings. -/
theorem mem_valueProblems {s : Setting} {key : Text} {v : Json} {q : OptionProblem}
    (h : q ∈ s.valueProblems key v) :
    (s.isList ∧ q = .notList key ∧ ∀ items, v ≠ .array items) ∨
      (s.isList ∧ ∃ items n, v = .array items ∧ q = .notString key n) ∨
      (¬ s.isList ∧ q = .notBoolean key) := by
  unfold Setting.valueProblems at h
  split at h
  · rename_i hlist
    cases v with
    | array items =>
      obtain ⟨n, rfl⟩ := key_of_mem_itemProblems h
      exact .inr (.inl ⟨hlist, items, n, rfl, rfl⟩)
    | _ => exact .inl ⟨hlist, List.mem_singleton.mp h, nofun⟩
  · rename_i hlist
    cases v with
    | bool b => simp [flagProblems] at h
    | _ => exact .inr (.inr ⟨hlist, List.mem_singleton.mp h⟩)

theorem problemsOf_eq (raw : List (Text × Json)) (s : Setting) :
    problemsOf raw s =
      match s.given? raw with
      | none => []
      | some (key, v) => s.valueProblems key v := by
  unfold problemsOf
  cases s <;> rfl

/-- A key is used if it is the first name of a setting, or the second and the first is not there. -/
theorem mem_usedKeys_iff {raw : List (Text × Json)} {key : Text} :
    key ∈ usedKeys raw ↔ key ∈ keys raw ∧
      ∃ s : Setting, key = s.camelKey ∨ key = s.snakeKey ∧ s.camelKey ∉ keys raw := by
  have hused : key ∈ usedKeys raw ↔ ∃ s v, Setting.given? raw s = some (key, v) := by
    simp [usedKeys, Setting.mem_all]
  rw [hused, mem_keys_iff]
  simp only [Setting.given?_eq_some_iff]
  constructor
  · rintro ⟨s, v, ⟨rfl, hv⟩ | ⟨rfl, hcamel, hv⟩⟩
    · exact ⟨⟨v, hv⟩, s, .inl rfl⟩
    · exact ⟨⟨v, hv⟩, s, .inr ⟨rfl, hcamel⟩⟩
  · rintro ⟨⟨v, hv⟩, s, rfl | ⟨rfl, hcamel⟩⟩
    · exact ⟨s, v, .inl ⟨rfl, hv⟩⟩
    · exact ⟨s, v, .inr ⟨rfl, hcamel, hv⟩⟩

theorem mem_problems_iff {raw : List (Text × Json)} {q : OptionProblem} :
    q ∈ problems raw ↔
      (∃ s key v, Setting.given? raw s = some (key, v) ∧ q ∈ s.valueProblems key v) ∨
      ∃ key ∈ keys raw, key ∉ usedKeys raw ∧ q = .unknownKey key := by
  unfold problems
  rw [List.mem_append, List.mem_flatMap, List.mem_map]
  apply or_congr
  · constructor
    · rintro ⟨s, -, hq⟩
      rw [problemsOf_eq] at hq
      cases hgiven : s.given? raw with
      | none => simp [hgiven] at hq
      | some e => exact ⟨s, e.1, e.2, hgiven, by simpa [hgiven] using hq⟩
    · rintro ⟨s, key, v, hgiven, hq⟩
      exact ⟨s, s.mem_all, by rw [problemsOf_eq, hgiven]; exact hq⟩
  · constructor
    · rintro ⟨key, hkey, rfl⟩
      rw [List.mem_filter, decide_eq_true_eq] at hkey
      exact ⟨key, hkey.1, hkey.2, rfl⟩
    · rintro ⟨key, hkey, hunused, rfl⟩
      exact ⟨key, List.mem_filter.mpr ⟨hkey, decide_eq_true hunused⟩, rfl⟩

theorem problems_of_accepts {raw : List (Text × Json)}
    (h : ∀ s key v, Setting.given? raw s = some (key, v) → s.accepts v) :
    problems raw = ((keys raw).filter (· ∉ usedKeys raw)).map .unknownKey := by
  have hvalues : Setting.all.flatMap (problemsOf raw) = [] := by
    rw [List.flatMap_eq_nil_iff]
    intro s _
    rw [problemsOf_eq]
    cases hgiven : s.given? raw with
    | none => rfl
    | some e => exact valueProblems_eq_nil_iff.mpr (h s e.1 e.2 hgiven)
  rw [problems, hvalues, List.nil_append, keys]

theorem problems_eq_nil_iff {raw : List (Text × Json)} :
    problems raw = [] ↔
      (∀ s key v, Setting.given? raw s = some (key, v) → s.accepts v) ∧
        keys raw ⊆ usedKeys raw := by
  rw [List.eq_nil_iff_forall_not_mem]
  constructor
  · intro h
    constructor
    · intro s key v hgiven
      have hnone : s.valueProblems key v = [] := by
        rw [List.eq_nil_iff_forall_not_mem]
        intro q hq
        exact h q (mem_problems_iff.mpr (.inl ⟨s, key, v, hgiven, hq⟩))
      exact valueProblems_eq_nil_iff.mp hnone
    · intro key hkey
      by_cases hused : key ∈ usedKeys raw
      · exact hused
      · exact absurd (mem_problems_iff.mpr (.inr ⟨key, hkey, hused, rfl⟩)) (h _)
  · rintro ⟨hvalues, hused⟩ q hq
    rcases mem_problems_iff.mp hq with ⟨s, key, v, hgiven, hq⟩ | ⟨key, hkey, hunused, -⟩
    · rw [valueProblems_eq_nil_iff.mpr (hvalues s key v hgiven)] at hq
      cases hq
    · exact hunused (hused hkey)

end Options

/-- The configuration with options on top: lists are longer by theirs, flags are theirs if given. -/
def Configuration.extendedBy (c : Configuration) (raw : List (Text × Json)) : Configuration where
  functionNames := c.functionNames ++ Options.listOr raw .functions
  methodNames := c.methodNames ++ Options.listOr raw .methods
  constructors := Options.flagOr raw .constructors c.constructors
  singleParam := Options.flagOr raw .singleParam c.singleParam
  noParams := Options.flagOr raw .noParams c.noParams
  testFiles := Options.flagOr raw .testFiles c.testFiles
  filePatterns := c.filePatterns ++ Options.listOr raw .files

namespace Options

theorem parse_eq (raw : List (Text × Json)) :
    parse raw =
      if problems raw = [] then .ok (Configuration.extendedBy {} raw)
      else .error (problems raw) := by
  unfold parse
  cases problems raw with
  | nil => rfl
  | cons q found => rfl

theorem parse_eq_ok_iff {raw : List (Text × Json)} {c : Configuration} :
    parse raw = .ok c ↔ problems raw = [] ∧ c = Configuration.extendedBy {} raw := by
  rw [parse_eq]
  by_cases h : problems raw = []
  · simp [h, eq_comm]
  · simp [h]

theorem parse_eq_error_iff {raw : List (Text × Json)} {found : List OptionProblem} :
    parse raw = .error found ↔ problems raw = found ∧ found ≠ [] := by
  rw [parse_eq]
  by_cases h : problems raw = []
  · simp [h, eq_comm]
  · rw [if_neg h, Except.error.injEq]
    exact ⟨fun heq => ⟨heq, heq ▸ h⟩, fun heq => heq.1⟩

/-- The configuration depends on what is under each key, not on the order of the keys. -/
theorem parse_congr {raw raw' : List (Text × Json)}
    (h : ∀ key, raw.lookup key = raw'.lookup key) (c : Configuration) :
    parse raw = .ok c ↔ parse raw' = .ok c := by
  have hgiven : ∀ s, Setting.given? raw s = Setting.given? raw' s := by
    intro s
    rw [Setting.given?, Setting.given?, h, h]
  have hkeys : ∀ key, key ∈ keys raw ↔ key ∈ keys raw' := by
    intro key
    rw [mem_keys_iff, mem_keys_iff, h]
  have hused : ∀ key, key ∈ usedKeys raw ↔ key ∈ usedKeys raw' := by
    intro key
    rw [usedKeys, usedKeys]
    simp only [hgiven]
  have hproblems : problems raw = [] ↔ problems raw' = [] := by
    simp only [problems_eq_nil_iff, hgiven, List.subset_def, hkeys, hused]
  have hextended : Configuration.extendedBy {} raw = Configuration.extendedBy {} raw' := by
    simp only [Configuration.extendedBy, listOr, flagOr, hgiven]
  rw [parse_eq_ok_iff, parse_eq_ok_iff, hproblems, hextended]

end Options

/-! Loading -/

namespace Configuration

variable {top : FileTree} {here : Place} {p : Path} {raw overrides : List (Text × Json)}

theorem load_of_file (hfile : optionsOfFile top here p = .ok raw) :
    load top here (some p) overrides = ofOptions raw overrides := by
  rw [load, hfile]

theorem ofOptions_eq_ok_iff {c : Configuration} :
    ofOptions raw overrides = .ok c ↔ Options.parse (Options.merge raw overrides) = .ok c := by
  unfold ofOptions
  cases Options.parse (Options.merge raw overrides) with
  | error found => exact ⟨nofun, nofun⟩
  | ok c' =>
    constructor
    · intro h
      cases h
      rfl
    · intro h
      cases h
      rfl

def configPath : Path := Path.ofText (Text.ofString "c.json")

def configTree (text : String) : FileTree :=
  .folder [(Text.ofString "c.json", .file (Utf8.encode text.toList))]

end Configuration

end ParamLint

import ParamLint.Proofs.Options

/-!
# What overrides hide

Options are checked after overrides were laid over them. A value that is not of the kind of its
setting goes unnoticed if an override takes its place. Nothing else does: keys stay, lists only get
longer, and every other problem is found again under its key.
-/
namespace ParamLint

open Json

namespace Options

variable {raw overrides : List (Text × Json)}

/-- The value that is wrong is replaced by one that is right. -/
def Replaced (overrides : List (Text × Json)) : OptionProblem → Prop
  | .notList key => ∃ items, overrides.lookup key = some (.array items) ∧ items.all isString
  | .notBoolean key => ∃ b, overrides.lookup key = some (.bool b)
  | .notString _ _ | .unknownKey _ => False

theorem key_of_given? {s : Setting} {key : Text} {v : Json} (h : s.given? raw = some (key, v)) :
    (key = s.camelKey ∨ key = s.snakeKey) ∧ raw.lookup key = some v := by
  rcases Setting.given?_eq_some_iff.mp h with ⟨rfl, hv⟩ | ⟨rfl, -, hv⟩
  · exact ⟨.inl rfl, hv⟩
  · exact ⟨.inr rfl, hv⟩

theorem key_of_mem_valueProblems {s : Setting} {key : Text} {v : Json} {q : OptionProblem}
    (h : q ∈ s.valueProblems key v) : q.key = key := by
  rcases mem_valueProblems h with ⟨-, rfl, -⟩ | ⟨-, _, _, -, rfl⟩ | ⟨-, rfl⟩ <;> rfl

/-- A value of the wrong kind is a problem under its key, or the key itself is one. -/
theorem exists_problem_of_not_accepts {s : Setting} {key : Text} {v : Json}
    (hname : key = s.camelKey ∨ key = s.snakeKey) (hv : raw.lookup key = some v)
    (h : ¬ s.accepts v) : ∃ q ∈ problems raw, q.key = key := by
  by_cases hgiven : s.given? raw = some (key, v)
  · have hsome : s.valueProblems key v ≠ [] := fun hnil => h (valueProblems_eq_nil_iff.mp hnil)
    obtain ⟨q, hq⟩ := List.exists_mem_of_ne_nil _ hsome
    exact ⟨q, mem_problems_iff.mpr (.inl ⟨s, key, v, hgiven, hq⟩), key_of_mem_valueProblems hq⟩
  · have hunused : key ∉ usedKeys raw := by
      intro hused
      obtain ⟨-, s', rfl | ⟨rfl, hcamel⟩⟩ := mem_usedKeys_iff.mp hused
      · rcases hname with hname | hname
        · obtain rfl := Setting.camelKey_inj.mp hname
          exact hgiven (Setting.given?_eq_some_iff.mpr (.inl ⟨rfl, hv⟩))
        · exact Setting.camelKey_ne_snakeKey _ _ hname
      · rcases hname with hname | hname
        · exact Setting.camelKey_ne_snakeKey _ _ hname.symm
        · obtain rfl := Setting.snakeKey_inj.mp hname
          exact hgiven (Setting.given?_eq_some_iff.mpr (.inr ⟨rfl, hcamel, hv⟩))
    exact ⟨.unknownKey key, mem_problems_iff.mpr (.inr ⟨key, mem_keys_iff.mpr ⟨v, hv⟩, hunused, rfl⟩),
      rfl⟩

theorem not_mem_usedKeys_merge (hkeys : (keys overrides).Nodup) {key : Text}
    (hkey : key ∈ keys raw) (h : key ∉ usedKeys raw) : key ∉ usedKeys (merge raw overrides) := by
  intro hused
  obtain ⟨-, s, hname | ⟨hname, hcamel⟩⟩ := mem_usedKeys_iff.mp hused
  · exact h (mem_usedKeys_iff.mpr ⟨hkey, s, .inl hname⟩)
  · rw [mem_keys_merge_iff hkeys, not_or] at hcamel
    exact h (mem_usedKeys_iff.mpr ⟨hkey, s, .inr ⟨hname, hcamel.1⟩⟩)

/-- A wrong value is still wrong after something was laid over it, unless that replaces it. -/
theorem not_accepts_lay {s : Setting} {key : Text} {v : Json} {q : OptionProblem}
    (hq : q ∈ s.valueProblems key v) (hkept : ¬ Replaced overrides q) :
    ∃ w, lay (some v) ((overrides.lookup key).getD .null) = some w ∧ ¬ s.accepts w := by
  have hv : ¬ s.accepts v := by
    intro h
    rw [valueProblems_eq_nil_iff.mpr h] at hq
    cases hq
  rcases lay_cases (some v) ((overrides.lookup key).getD .null) with
    ⟨-, heq⟩ | ⟨items, more, hitems, -, heq⟩ | ⟨hnull, heq, hlists⟩
  · exact ⟨v, heq, hv⟩
  · refine ⟨_, heq, fun h => hv ?_⟩
    obtain rfl := Option.some.inj hitems
    simp only [Setting.accepts, List.all_append, Bool.and_eq_true] at h ⊢
    exact ⟨h.1, h.2.1⟩
  · refine ⟨_, heq, fun h => hkept ?_⟩
    cases hover : overrides.lookup key with
    | none => exact absurd (by rw [hover]; rfl) hnull
    | some w =>
      rw [hover, Option.getD_some] at h hlists
      rcases mem_valueProblems hq with ⟨hlist, rfl, -⟩ | ⟨hlist, items, n, rfl, -⟩ | ⟨hflag, rfl⟩
      · obtain ⟨more, rfl⟩ := Setting.exists_array hlist h
        exact ⟨more, hover, by simpa [Setting.accepts, hlist] using h⟩
      · obtain ⟨more, rfl⟩ := Setting.exists_array hlist h
        exact absurd rfl (hlists items more rfl)
      · obtain ⟨b, rfl⟩ := Setting.exists_bool (eq_false_of_ne_true hflag) h
        exact ⟨b, hover⟩

theorem exists_problem_merge (hkeys : (keys overrides).Nodup) {q : OptionProblem}
    (hq : q ∈ problems raw) (hkept : ¬ Replaced overrides q) :
    ∃ q' ∈ problems (merge raw overrides), q'.key = q.key := by
  rcases mem_problems_iff.mp hq with ⟨s, key, v, hgiven, hq⟩ | ⟨key, hkey, hunused, rfl⟩
  · obtain ⟨hname, hv⟩ := key_of_given? hgiven
    obtain ⟨w, hw, hwrong⟩ := not_accepts_lay hq hkept
    rw [key_of_mem_valueProblems hq]
    refine exists_problem_of_not_accepts hname ?_ hwrong
    rw [lookup_merge hkeys, hv, hw]
  · refine ⟨.unknownKey key, mem_problems_iff.mpr (.inr ⟨key, ?_, ?_, rfl⟩), rfl⟩
    · exact (mem_keys_merge_iff hkeys).mpr (.inl hkey)
    · exact not_mem_usedKeys_merge hkeys hkey hunused

/-- The options under keys that have no problem. -/
def sound (raw : List (Text × Json)) (found : List OptionProblem) : List (Text × Json) :=
  raw.filter fun e => e.1 ∉ found.map OptionProblem.key

theorem lookup_sound (raw : List (Text × Json)) (found : List OptionProblem) (key : Text) :
    (sound raw found).lookup key =
      if key ∈ found.map OptionProblem.key then none else raw.lookup key := by
  induction raw with
  | nil => simp [sound]
  | cons e raw ih =>
    unfold sound at ih ⊢
    rw [List.filter_cons]
    by_cases he : e.1 ∈ found.map OptionProblem.key
    · rw [if_neg (by simpa using he), ih, lookup_cons]
      by_cases hkey : e.1 = key
      · rw [if_pos (hkey ▸ he), if_pos (hkey ▸ he)]
      · rw [if_neg hkey]
    · rw [if_pos (by simpa using he), lookup_cons, lookup_cons, ih]
      by_cases hkey : e.1 = key
      · rw [if_pos hkey, if_pos hkey, if_neg (hkey ▸ he)]
      · rw [if_neg hkey, if_neg hkey]

theorem lay_of_replaced {q : OptionProblem} (hq : q ∈ problems raw) (h : Replaced overrides q) :
    lay (raw.lookup q.key) ((overrides.lookup q.key).getD .null) =
      lay none ((overrides.lookup q.key).getD .null) := by
  rcases mem_problems_iff.mp hq with ⟨s, key, v, hgiven, hq⟩ | ⟨key, -, -, rfl⟩
  · obtain ⟨-, hv⟩ := key_of_given? hgiven
    rcases mem_valueProblems hq with ⟨-, rfl, hlist⟩ | ⟨-, _, _, -, rfl⟩ | ⟨-, rfl⟩
    · obtain ⟨items, hitems, -⟩ := h
      rw [OptionProblem.key, hv, hitems]
      cases v with
      | array old => exact absurd rfl (hlist old)
      | _ => rfl
    · exact h.elim
    · obtain ⟨b, hb⟩ := h
      rw [OptionProblem.key, hb]
      rfl
  · exact h.elim

/-- If all that is wrong is replaced, the options are those without it. -/
theorem lookup_merge_sound (hkeys : (keys overrides).Nodup)
    (h : ∀ q ∈ problems raw, Replaced overrides q) (key : Text) :
    (merge raw overrides).lookup key = (merge (sound raw (problems raw)) overrides).lookup key := by
  rw [lookup_merge hkeys, lookup_merge hkeys, lookup_sound]
  split
  · rename_i hmem
    obtain ⟨q, hq, rfl⟩ := List.mem_map.mp hmem
    exact lay_of_replaced hq (h q hq)
  · rfl

theorem exists_error_merge (hkeys : (keys overrides).Nodup)
    (h : ∃ q ∈ problems raw, ¬ Replaced overrides q) :
    ∃ found, parse (merge raw overrides) = .error found ∧
      ∀ q ∈ problems raw, ¬ Replaced overrides q → ∃ q' ∈ found, q'.key = q.key := by
  obtain ⟨q, hq, hkept⟩ := h
  obtain ⟨q', hq', -⟩ := exists_problem_merge hkeys hq hkept
  refine ⟨_, parse_eq_error_iff.mpr ⟨rfl, List.ne_nil_of_mem hq'⟩, ?_⟩
  intro q hq hkept
  exact exists_problem_merge hkeys hq hkept

end Options

namespace Configuration

variable {top : FileTree} {here : Place} {p : Path} {raw overrides : List (Text × Json)}

/-- Overrides hide a problem of a file only by replacing the value that is wrong. If there is any
other problem, loading fails and names the key of each of them. If there is none, the configuration
is that of the file without the values that are replaced. -/
theorem load_reports_unless_replaced {found : List OptionProblem}
    (hfile : optionsOfFile top here p = .ok raw) (hinvalid : Options.parse raw = .error found)
    (hkeys : (Json.keys overrides).Nodup) :
    ((∃ q ∈ found, ¬ Options.Replaced overrides q) →
      ∃ found', load top here (some p) overrides = .error (.invalid found') ∧
        ∀ q ∈ found, ¬ Options.Replaced overrides q → ∃ q' ∈ found', q'.key = q.key) ∧
    ((∀ q ∈ found, Options.Replaced overrides q) →
      ∀ c, load top here (some p) overrides = .ok c ↔
        ofOptions (Options.sound raw found) overrides = .ok c) := by
  obtain ⟨rfl, -⟩ := Options.parse_eq_error_iff.mp hinvalid
  rw [load_of_file hfile]
  constructor
  · intro h
    obtain ⟨found', hfound', hnamed⟩ := Options.exists_error_merge hkeys h
    exact ⟨found', by rw [ofOptions, hfound']; rfl, hnamed⟩
  · intro h c
    rw [ofOptions_eq_ok_iff, ofOptions_eq_ok_iff]
    exact Options.parse_congr (Options.lookup_merge_sound hkeys h) c

/-! A flag of the wrong kind, alone and beside two other problems -/

def flagTree : FileTree := configTree "\x7b\"ignoreConstructors\": \"yes\"\x7d"

def flagOptions : List (Text × Json) :=
  [(Setting.constructors.camelKey, .string (Text.ofString "yes"))]

def mixedTree : FileTree :=
  configTree ("\x7b\"ignoreConstructors\": \"yes\", \"ignoreFunctions\": [\"f\", 1], " ++
    "\"ignoreEverything\": true\x7d")

def mixedOptions : List (Text × Json) :=
  flagOptions ++
    [(Setting.functions.camelKey, .array [.string (Text.ofString "f"), .integer 1]),
     (Text.ofString "ignoreEverything", .bool true)]

def sampleOverrides : List (Text × Json) :=
  [(Setting.constructors.camelKey, .bool false),
   (Setting.functions.camelKey, .array [.string (Text.ofString "g")])]

theorem optionsOfFile_flagTree : optionsOfFile flagTree [] configPath = .ok flagOptions := by
  rfl

theorem optionsOfFile_mixedTree : optionsOfFile mixedTree [] configPath = .ok mixedOptions := by
  rfl

theorem parse_flagOptions :
    Options.parse flagOptions = .error [.notBoolean Setting.constructors.camelKey] := by
  rw [Options.parse_eq_error_iff]
  decide +kernel

theorem parse_mixedOptions :
    Options.parse mixedOptions =
      .error [.notString Setting.functions.camelKey 1, .notBoolean Setting.constructors.camelKey,
        .unknownKey (Text.ofString "ignoreEverything")] := by
  rw [Options.parse_eq_error_iff]
  decide +kernel

/-- A file that is not valid, and overrides with which it loads. -/
theorem load_hides_replaced_flag :
    optionsOfFile flagTree [] configPath = .ok flagOptions ∧
      Options.parse flagOptions = .error [.notBoolean Setting.constructors.camelKey] ∧
      load flagTree [] (some configPath) sampleOverrides =
        .ok { functionNames := [Text.ofString "g"], constructors := false } := by
  refine ⟨optionsOfFile_flagTree, parse_flagOptions, ?_⟩
  rw [load_of_file optionsOfFile_flagTree, ofOptions_eq_ok_iff, Options.parse_eq_ok_iff]
  decide +kernel

theorem load_reports_unless_replaced_samples :
    (∃ found, load mixedTree [] (some configPath) sampleOverrides = .error (.invalid found) ∧
      (∃ q ∈ found, q.key = Setting.functions.camelKey) ∧
      ∃ q ∈ found, q.key = Text.ofString "ignoreEverything") ∧
    ∀ c, load flagTree [] (some configPath) sampleOverrides = .ok c ↔
      ofOptions [] sampleOverrides = .ok c := by
  have hkeys : (Json.keys sampleOverrides).Nodup := by decide +kernel
  constructor
  · obtain ⟨hreports, -⟩ :=
      load_reports_unless_replaced optionsOfFile_mixedTree parse_mixedOptions hkeys
    obtain ⟨found, hload, hnamed⟩ := hreports ⟨_, List.mem_cons_self, id⟩
    refine ⟨found, hload, hnamed _ List.mem_cons_self id, ?_⟩
    exact hnamed (.unknownKey (Text.ofString "ignoreEverything")) (by decide +kernel) id
  · obtain ⟨-, hsound⟩ :=
      load_reports_unless_replaced optionsOfFile_flagTree parse_flagOptions hkeys
    refine hsound ?_
    intro q hq
    rw [List.mem_singleton] at hq
    subst q
    exact ⟨false, rfl⟩

end Configuration

end ParamLint

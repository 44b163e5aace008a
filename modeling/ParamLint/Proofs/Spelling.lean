import ParamLint.CommandLine.Arguments
import ParamLint.Proofs.Options

/-!
# The two names of a setting

Overrides name settings in camel case. Laid over valid options that do so too, they extend the
configuration that the options stand for. A setting that the options give under its other name and
the overrides give as well is then given twice, and the name in the options is refused.
-/
namespace ParamLint

open Json

namespace Options

variable {raw overrides : List (Text × Json)} {c : Configuration}

/-- Overrides as flags give them: under the camel-case key of a setting, a value of its kind, or
null if there is none. -/
structure FromFlags (overrides : List (Text × Json)) : Prop where
  nodup : (keys overrides).Nodup
  typed : ∀ e ∈ overrides, ∃ s : Setting, e.1 = s.camelKey ∧ (e.2 = .null ∨ s.accepts e.2)

namespace FromFlags

theorem exists_camelKey (h : FromFlags overrides) {key : Text} (hkey : key ∈ keys overrides) :
    ∃ s : Setting, key = s.camelKey := by
  obtain ⟨e, he, rfl⟩ := List.mem_map.mp hkey
  obtain ⟨s, hs, -⟩ := h.typed e he
  exact ⟨s, hs⟩

theorem snakeKey_not_mem (h : FromFlags overrides) (s : Setting) :
    s.snakeKey ∉ keys overrides := by
  intro hmem
  obtain ⟨s', hs'⟩ := h.exists_camelKey hmem
  exact Setting.camelKey_ne_snakeKey s' s hs'.symm

theorem value?_eq (h : FromFlags overrides) (s : Setting) :
    s.value? overrides = overrides.lookup s.camelKey := by
  rw [Setting.value?_eq, lookup_eq_none_iff_not_mem.mpr (h.snakeKey_not_mem s), Option.or_none]

theorem accepts (h : FromFlags overrides) (s : Setting) :
    (s.value? overrides).getD .null = .null ∨ s.accepts ((s.value? overrides).getD .null) := by
  rw [h.value?_eq]
  cases hv : overrides.lookup s.camelKey with
  | none => exact .inl rfl
  | some v =>
    obtain ⟨s', hs', htyped⟩ := h.typed _ (mem_of_lookup hv)
    obtain rfl := Setting.camelKey_inj.mp hs'
    exact htyped

theorem lookup_camelKey_merge (h : FromFlags overrides) (s : Setting) :
    (merge raw overrides).lookup s.camelKey =
      lay (raw.lookup s.camelKey) ((s.value? overrides).getD .null) := by
  rw [lookup_merge h.nodup, h.value?_eq]

theorem lookup_snakeKey_merge (h : FromFlags overrides) (s : Setting) :
    (merge raw overrides).lookup s.snakeKey = raw.lookup s.snakeKey :=
  lookup_merge_of_not_mem (h.snakeKey_not_mem s) raw

end FromFlags

/-! Options that are accepted -/

theorem accepts_of_given? (hraw : problems raw = []) {s : Setting} {key : Text} {v : Json}
    (h : s.given? raw = some (key, v)) : s.accepts v :=
  (problems_eq_nil_iff.mp hraw).1 s key v h

theorem accepts_of_value? (hraw : problems raw = []) {s : Setting} {v : Json}
    (h : s.value? raw = some v) : s.accepts v := by
  obtain ⟨e, he, rfl⟩ := Option.map_eq_some_iff.mp h
  exact accepts_of_given? hraw he

theorem mem_usedKeys_of_mem (hraw : problems raw = []) {key : Text} (h : key ∈ keys raw) :
    ∃ s : Setting, key = s.camelKey ∨ key = s.snakeKey ∧ s.camelKey ∉ keys raw :=
  (mem_usedKeys_iff.mp ((problems_eq_nil_iff.mp hraw).2 h)).2

theorem camelKey_not_mem (hraw : problems raw = []) {s : Setting} (h : s.snakeKey ∈ keys raw) :
    s.camelKey ∉ keys raw := by
  obtain ⟨s', hs' | ⟨hs', hcamel⟩⟩ := mem_usedKeys_of_mem hraw h
  · exact absurd hs'.symm (Setting.camelKey_ne_snakeKey s' s)
  · rwa [Setting.snakeKey_inj.mp hs']

theorem accepts_lay {s : Setting} {old : Option Json} {value w : Json}
    (hold : ∀ v, old = some v → s.accepts v) (hvalue : value = .null ∨ s.accepts value)
    (h : lay old value = some w) : s.accepts w := by
  rcases lay_cases old value with ⟨-, heq⟩ | ⟨items, more, rfl, rfl, heq⟩ | ⟨hnull, heq, -⟩
  · exact hold w (heq ▸ h)
  · obtain rfl := Option.some.inj (heq.symm.trans h)
    have hitems := hold _ rfl
    have hmore := hvalue.resolve_left nofun
    simp only [Setting.accepts, Bool.and_eq_true, List.all_append] at hitems hmore ⊢
    exact ⟨hitems.1, hitems.2, hmore.2⟩
  · obtain rfl := Option.some.inj (heq.symm.trans h)
    exact hvalue.resolve_left hnull

theorem accepts_of_given?_merge (hraw : problems raw = []) (hover : FromFlags overrides)
    (s : Setting) (key : Text) (v : Json) (h : s.given? (merge raw overrides) = some (key, v)) :
    s.accepts v := by
  rcases Setting.given?_eq_some_iff.mp h with ⟨-, hv⟩ | ⟨-, hcamel, hv⟩
  · rw [hover.lookup_camelKey_merge] at hv
    refine accepts_lay ?_ (hover.accepts s) hv
    intro w hw
    exact accepts_of_given? hraw (Setting.given?_eq_some_iff.mpr (.inl ⟨rfl, hw⟩))
  · rw [hover.lookup_snakeKey_merge] at hv
    rw [mem_keys_merge_iff hover.nodup, not_or] at hcamel
    exact accepts_of_given? hraw (Setting.given?_eq_some_iff.mpr (.inr ⟨rfl, hcamel.1, hv⟩))

/-! Names that clash -/

/-- The keys of options that give a setting in snake case which overrides give too. -/
def clashing (raw overrides : List (Text × Json)) : List Text :=
  (keys raw).filter fun key =>
    Setting.all.any fun s => key = s.snakeKey ∧ gives overrides s.camelKey

theorem mem_clashing_iff {key : Text} :
    key ∈ clashing raw overrides ↔
      key ∈ keys raw ∧ ∃ s : Setting, key = s.snakeKey ∧ gives overrides s.camelKey := by
  simp [clashing, Setting.mem_all]

theorem mem_usedKeys_merge_iff (hraw : problems raw = []) (hover : FromFlags overrides)
    {key : Text} (hkey : key ∈ keys raw) :
    key ∈ usedKeys (merge raw overrides) ↔ key ∉ clashing raw overrides := by
  have hmerge : key ∈ keys (merge raw overrides) := (mem_keys_merge_iff hover.nodup).mpr (.inl hkey)
  rw [mem_clashing_iff, mem_usedKeys_iff]
  obtain ⟨s, rfl | ⟨rfl, hcamel⟩⟩ := mem_usedKeys_of_mem hraw hkey
  · constructor
    · rintro - ⟨-, s', hs', -⟩
      exact Setting.camelKey_ne_snakeKey s s' hs'
    · intro _
      exact ⟨hmerge, s, .inl rfl⟩
  · constructor
    · rintro ⟨-, s', hs' | ⟨hs', hunused⟩⟩ ⟨-, s'', hs'', hgives⟩
      · exact Setting.camelKey_ne_snakeKey s' s hs'.symm
      · obtain rfl := Setting.snakeKey_inj.mp hs'
        obtain rfl := Setting.snakeKey_inj.mp hs''
        exact hunused ((mem_keys_merge_iff hover.nodup).mpr (.inr hgives))
    · intro hclash
      refine ⟨hmerge, s, .inr ⟨rfl, fun hmem => ?_⟩⟩
      rcases (mem_keys_merge_iff hover.nodup).mp hmem with hmem | hgives
      · exact hcamel hmem
      · exact hclash ⟨hkey, s, rfl, hgives⟩

/-- All that can be wrong with accepted options under flags is a name that clashes. -/
theorem problems_merge (hraw : problems raw = []) (hover : FromFlags overrides) :
    problems (merge raw overrides) = (clashing raw overrides).map .unknownKey := by
  obtain ⟨added, hadded, hsub⟩ := keys_merge raw overrides
  have hnew : added.filter (· ∉ usedKeys (merge raw overrides)) = [] := by
    rw [List.filter_eq_nil_iff]
    intro key hkey
    obtain ⟨s, rfl⟩ := hover.exists_camelKey (hsub hkey)
    have hmem : s.camelKey ∈ keys (merge raw overrides) := by
      rw [hadded]
      exact List.mem_append_right _ hkey
    simpa using mem_usedKeys_iff.mpr ⟨hmem, s, .inl rfl⟩
  have hold : (keys raw).filter (· ∉ usedKeys (merge raw overrides)) = clashing raw overrides := by
    apply List.filter_congr
    intro key hkey
    have hused := mem_usedKeys_merge_iff hraw hover hkey
    rw [mem_clashing_iff] at hused
    rw [Bool.eq_iff_iff]
    simp [hused, hkey, Setting.mem_all]
  rw [problems_of_accepts (accepts_of_given?_merge hraw hover), hadded, List.filter_append, hnew,
    hold, List.append_nil]

/-! Values of the settings -/

theorem listOr_eq (raw : List (Text × Json)) (s : Setting) :
    listOr raw s = match s.value? raw with | some (.array items) => strings items | _ => [] := by
  unfold listOr Setting.value?
  cases s.given? raw with
  | none => rfl
  | some e =>
    obtain ⟨key, v⟩ := e
    cases v <;> rfl

theorem flagOr_eq (raw : List (Text × Json)) (s : Setting) (b : Bool) :
    flagOr raw s b = match s.value? raw with | some (.bool b') => b' | _ => b := by
  unfold flagOr Setting.value?
  cases s.given? raw with
  | none => rfl
  | some e =>
    obtain ⟨key, v⟩ := e
    cases v <;> rfl

theorem value?_merge (hover : FromFlags overrides) (hclash : clashing raw overrides = [])
    (s : Setting) :
    s.value? (merge raw overrides) = lay (s.value? raw) ((s.value? overrides).getD .null) := by
  rw [Setting.value?_eq, hover.lookup_camelKey_merge, hover.lookup_snakeKey_merge,
    Setting.value?_eq raw]
  by_cases hsnake : s.snakeKey ∈ keys raw
  · have hgives : ¬ gives overrides s.camelKey := by
      intro hgives
      have hmem := mem_clashing_iff.mpr ⟨hsnake, s, rfl, hgives⟩
      rw [hclash] at hmem
      cases hmem
    have hnull : (s.value? overrides).getD .null = .null := by
      rw [hover.value?_eq]
      unfold gives at hgives
      cases hv : overrides.lookup s.camelKey with
      | none => rfl
      | some v => cases v <;> simp_all
    rw [hnull]
    rfl
  · rw [lookup_eq_none_iff_not_mem.mpr hsnake, Option.or_none, Option.or_none]

theorem listOr_merge (hraw : problems raw = []) (hover : FromFlags overrides)
    (hclash : clashing raw overrides = []) {s : Setting} (hlist : s.isList) :
    listOr (merge raw overrides) s = listOr raw s ++ listOr overrides s := by
  rw [listOr_eq, listOr_eq, listOr_eq, value?_merge hover hclash]
  have hold : s.value? raw = none ∨ ∃ items, s.value? raw = some (.array items) := by
    cases hv : s.value? raw with
    | none => exact .inl rfl
    | some v =>
      obtain ⟨items, rfl⟩ := Setting.exists_array hlist (accepts_of_value? hraw hv)
      exact .inr ⟨items, rfl⟩
  cases hnew : s.value? overrides with
  | none => simp [lay]
  | some w =>
    have hw := hover.accepts s
    rw [hnew, Option.getD_some] at hw
    rw [Option.getD_some]
    rcases hw with rfl | hw
    · simp [lay]
    · obtain ⟨more, rfl⟩ := Setting.exists_array hlist hw
      rcases hold with hv | ⟨items, hv⟩
      · simp [hv, lay]
      · simp [hv, lay, strings]

theorem flagOr_merge (hover : FromFlags overrides) (hclash : clashing raw overrides = [])
    {s : Setting} (hflag : s.isList = false) (b : Bool) :
    flagOr (merge raw overrides) s b = flagOr overrides s (flagOr raw s b) := by
  rw [flagOr_eq, flagOr_eq overrides, flagOr_eq raw, value?_merge hover hclash]
  cases hnew : s.value? overrides with
  | none => simp [lay]
  | some w =>
    have hw := hover.accepts s
    rw [hnew, Option.getD_some] at hw
    rw [Option.getD_some]
    rcases hw with rfl | hw
    · simp [lay]
    · obtain ⟨b', rfl⟩ := Setting.exists_bool hflag hw
      simp [lay]

theorem extendedBy_merge (hraw : problems raw = []) (hover : FromFlags overrides)
    (hclash : clashing raw overrides = []) :
    Configuration.extendedBy {} (merge raw overrides) =
      (Configuration.extendedBy {} raw).extendedBy overrides := by
  have hlist := fun s (h : Setting.isList s) => listOr_merge hraw hover hclash h
  have hflag := fun s (h : Setting.isList s = false) => flagOr_merge hover hclash h
  simp only [Configuration.extendedBy, hlist .functions rfl, hlist .methods rfl, hlist .files rfl,
    hflag .constructors rfl, hflag .singleParam rfl, hflag .noParams rfl, hflag .testFiles rfl,
    List.append_assoc]

/-- Flags over valid options extend their configuration, unless a name clashes. -/
theorem parse_merge (hraw : parse raw = .ok c) (hover : FromFlags overrides) :
    parse (merge raw overrides) =
      if clashing raw overrides = [] then .ok (c.extendedBy overrides)
      else .error ((clashing raw overrides).map .unknownKey) := by
  obtain ⟨hnone, rfl⟩ := parse_eq_ok_iff.mp hraw
  rw [parse_eq, problems_merge hnone hover]
  by_cases hclash : clashing raw overrides = []
  · simp [hclash, extendedBy_merge hnone hover hclash]
  · simp [hclash]

/-! Options in camel case -/

/-- The camel-case key of the setting that a key names, and any other key as it is. -/
def canonicalKey (key : Text) : Text :=
  match Setting.all.find? (·.snakeKey = key) with
  | some s => s.camelKey
  | none => key

def camelized (raw : List (Text × Json)) : List (Text × Json) :=
  raw.map fun e => (canonicalKey e.1, e.2)

theorem canonicalKey_snakeKey (s : Setting) : canonicalKey s.snakeKey = s.camelKey := by
  unfold canonicalKey
  cases hfind : Setting.all.find? (·.snakeKey = s.snakeKey) with
  | none => exact absurd (by simp) (List.find?_eq_none.mp hfind s s.mem_all)
  | some s' =>
    have hs' : s'.snakeKey = s.snakeKey := by simpa using List.find?_some hfind
    rw [Setting.snakeKey_inj.mp hs']

theorem canonicalKey_of_ne {key : Text} (h : ∀ s : Setting, key ≠ s.snakeKey) :
    canonicalKey key = key := by
  have hfind : Setting.all.find? (·.snakeKey = key) = none := by
    rw [List.find?_eq_none]
    intro s _
    simpa using Ne.symm (h s)
  rw [canonicalKey, hfind]

theorem canonicalKey_eq_camelKey_iff {key : Text} {s : Setting} :
    canonicalKey key = s.camelKey ↔ key = s.camelKey ∨ key = s.snakeKey := by
  by_cases hsnake : ∃ s' : Setting, key = s'.snakeKey
  · obtain ⟨s', rfl⟩ := hsnake
    rw [canonicalKey_snakeKey, Setting.camelKey_inj, Setting.snakeKey_inj]
    exact ⟨.inr, fun h => h.resolve_left (Ne.symm (Setting.camelKey_ne_snakeKey s s'))⟩
  · rw [not_exists] at hsnake
    rw [canonicalKey_of_ne hsnake]
    exact ⟨.inl, fun h => h.resolve_right (hsnake s)⟩

theorem canonicalKey_ne_snakeKey (key : Text) (s : Setting) : canonicalKey key ≠ s.snakeKey := by
  by_cases hsnake : ∃ s' : Setting, key = s'.snakeKey
  · obtain ⟨s', rfl⟩ := hsnake
    rw [canonicalKey_snakeKey]
    exact Setting.camelKey_ne_snakeKey s' s
  · rw [not_exists] at hsnake
    rw [canonicalKey_of_ne hsnake]
    exact hsnake s

theorem mem_keys_camelized_iff {key : Text} :
    key ∈ keys (camelized raw) ↔ ∃ key' ∈ keys raw, canonicalKey key' = key := by
  simp [keys, camelized]

theorem snakeKey_not_mem_camelized (raw : List (Text × Json)) (s : Setting) :
    s.snakeKey ∉ keys (camelized raw) := by
  rw [mem_keys_camelized_iff]
  rintro ⟨key, -, hkey⟩
  exact canonicalKey_ne_snakeKey key s hkey

/-- If one key alone gets a new name, what was under it is under the new name. -/
theorem lookup_camelized {key key' : Text}
    (h : ∀ k ∈ keys raw, canonicalKey k = key' ↔ k = key) :
    (camelized raw).lookup key' = raw.lookup key := by
  induction raw with
  | nil => rfl
  | cons e raw ih =>
    have hrest := ih fun k hk => h k (List.mem_cons_of_mem _ hk)
    have he := h e.1 List.mem_cons_self
    rw [camelized, List.map_cons, ← camelized, lookup_cons, lookup_cons, hrest]
    by_cases hkey : e.1 = key
    · rw [if_pos (he.mpr hkey), if_pos hkey]
    · rw [if_neg (mt he.mp hkey), if_neg hkey]

theorem lookup_camelKey_camelized (hraw : problems raw = []) (s : Setting) :
    (camelized raw).lookup s.camelKey = s.value? raw := by
  rw [Setting.value?_eq]
  by_cases hsnake : s.snakeKey ∈ keys raw
  · have hcamel := camelKey_not_mem hraw hsnake
    rw [lookup_eq_none_iff_not_mem.mpr hcamel, Option.none_or]
    apply lookup_camelized
    intro k hk
    have hne : k ≠ s.camelKey := fun heq => hcamel (heq ▸ hk)
    rw [canonicalKey_eq_camelKey_iff]
    exact ⟨fun h => h.resolve_left hne, .inr⟩
  · rw [lookup_eq_none_iff_not_mem.mpr hsnake, Option.or_none]
    apply lookup_camelized
    intro k hk
    have hne : k ≠ s.snakeKey := fun heq => hsnake (heq ▸ hk)
    rw [canonicalKey_eq_camelKey_iff]
    exact ⟨fun h => h.resolve_right hne, .inl⟩

theorem value?_camelized (hraw : problems raw = []) (s : Setting) :
    s.value? (camelized raw) = s.value? raw := by
  rw [Setting.value?_eq (camelized raw), lookup_camelKey_camelized hraw,
    lookup_eq_none_iff_not_mem.mpr (snakeKey_not_mem_camelized raw s), Option.or_none]

theorem parse_camelized (h : parse raw = .ok c) : parse (camelized raw) = .ok c := by
  obtain ⟨hraw, rfl⟩ := parse_eq_ok_iff.mp h
  refine parse_eq_ok_iff.mpr ⟨problems_eq_nil_iff.mpr ⟨?_, ?_⟩, ?_⟩
  · intro s key v hgiven
    have hvalue : s.value? (camelized raw) = some v := by rw [Setting.value?, hgiven]; rfl
    rw [value?_camelized hraw] at hvalue
    exact accepts_of_value? hraw hvalue
  · intro key hkey
    obtain ⟨k, hk, rfl⟩ := mem_keys_camelized_iff.mp hkey
    obtain ⟨s, hs⟩ := mem_usedKeys_of_mem hraw hk
    have hcanonical : canonicalKey k = s.camelKey :=
      canonicalKey_eq_camelKey_iff.mpr (hs.imp id And.left)
    exact mem_usedKeys_iff.mpr ⟨hkey, s, .inl hcanonical⟩
  · simp only [Configuration.extendedBy, listOr_eq, flagOr_eq, value?_camelized hraw]

theorem clashing_camelized (raw overrides : List (Text × Json)) :
    clashing (camelized raw) overrides = [] := by
  rw [List.eq_nil_iff_forall_not_mem]
  intro key hkey
  obtain ⟨hmem, s, rfl, -⟩ := mem_clashing_iff.mp hkey
  exact snakeKey_not_mem_camelized raw s hmem

end Options

/-! Flags of the command line -/

namespace CommandLine

theorem listValue_typed {s : Setting} (hlist : s.isList) (names : Option (List Text)) :
    listValue names = .null ∨ s.accepts (listValue names) := by
  cases names with
  | none => exact .inl rfl
  | some names => exact .inr (by simp [listValue, Setting.accepts, hlist, Options.isString])

theorem flagValue_typed {s : Setting} (hflag : s.isList = false) (flag : Option Bool) :
    flagValue flag = .null ∨ s.accepts (flagValue flag) := by
  cases flag with
  | none => exact .inl rfl
  | some b => exact .inr (by simp [flagValue, Setting.accepts, hflag])

theorem Arguments.fromFlags_overrides (args : Arguments) : Options.FromFlags args.overrides where
  nodup := by
    have hsettings : [Setting.functions, .methods, .files, .constructors, .singleParam, .noParams,
        .testFiles].Nodup := by decide
    have hkeys : keys args.overrides = [Setting.functions, .methods, .files, .constructors,
        .singleParam, .noParams, .testFiles].map Setting.camelKey := rfl
    rw [hkeys, List.Nodup, List.pairwise_map]
    exact hsettings.imp fun hne heq => hne (Setting.camelKey_inj.mp heq)
  typed := by
    simp only [overrides, List.forall_mem_cons]
    exact ⟨⟨.functions, rfl, listValue_typed rfl _⟩, ⟨.methods, rfl, listValue_typed rfl _⟩,
      ⟨.files, rfl, listValue_typed rfl _⟩, ⟨.constructors, rfl, flagValue_typed rfl _⟩,
      ⟨.singleParam, rfl, flagValue_typed rfl _⟩, ⟨.noParams, rfl, flagValue_typed rfl _⟩,
      ⟨.testFiles, rfl, flagValue_typed rfl _⟩, nofun⟩

end CommandLine

namespace Configuration

variable {top top' : FileTree} {here here' : Place} {p p' : Path}
  {raw overrides : List (Text × Json)} {c : Configuration}

theorem ofOptions_of_parse (hraw : Options.parse raw = .ok c)
    (hover : Options.FromFlags overrides) :
    ofOptions raw overrides =
      if Options.clashing raw overrides = [] then .ok (c.extendedBy overrides)
      else .error (.invalid ((Options.clashing raw overrides).map .unknownKey)) := by
  rw [ofOptions, Options.parse_merge hraw hover]
  split <;> rfl

/-- Flags extend what a valid file in camel case stands for. They do the same for the file with
other names, unless they give a setting that the file names in snake case: then loading fails and
names these keys. -/
theorem load_extends_unless_names_clash (hfile : optionsOfFile top here p = .ok raw)
    (hvalid : Options.parse raw = .ok c)
    (hcamel : optionsOfFile top' here' p' = .ok (Options.camelized raw))
    (hover : Options.FromFlags overrides) :
    load top' here' (some p') overrides = .ok (c.extendedBy overrides) ∧
    load top here (some p) overrides =
      if Options.clashing raw overrides = [] then .ok (c.extendedBy overrides)
      else .error (.invalid ((Options.clashing raw overrides).map .unknownKey)) := by
  constructor
  · rw [load_of_file hcamel, ofOptions_of_parse (Options.parse_camelized hvalid) hover,
      Options.clashing_camelized]
    rfl
  · rw [load_of_file hfile, ofOptions_of_parse hvalid hover]

/-! A file with both names in it -/

def snakeTree : FileTree :=
  configTree "\x7b\"ignore_functions\": [\"a\"], \"ignoreNoParams\": false\x7d"

def snakeOptions : List (Text × Json) :=
  [(Setting.functions.snakeKey, .array [.string (Text.ofString "a")]),
   (Setting.noParams.camelKey, .bool false)]

def camelTree : FileTree :=
  configTree "\x7b\"ignoreFunctions\": [\"a\"], \"ignoreNoParams\": false\x7d"

theorem optionsOfFile_snakeTree : optionsOfFile snakeTree [] configPath = .ok snakeOptions := by
  rfl

theorem camelized_snakeOptions :
    Options.camelized snakeOptions =
      [(Setting.functions.camelKey, .array [.string (Text.ofString "a")]),
       (Setting.noParams.camelKey, .bool false)] := by
  have hcamel := Options.canonicalKey_of_ne (Setting.camelKey_ne_snakeKey .noParams)
  simp [Options.camelized, snakeOptions, Options.canonicalKey_snakeKey, hcamel]

theorem optionsOfFile_camelTree :
    optionsOfFile camelTree [] configPath = .ok (Options.camelized snakeOptions) := by
  rw [camelized_snakeOptions]
  rfl

theorem parse_snakeOptions :
    Options.parse snakeOptions =
      .ok { functionNames := [Text.ofString "a"], noParams := false } := by
  rw [Options.parse_eq_ok_iff]
  decide +kernel

def methodFlag : CommandLine.Arguments := { methods := some [Text.ofString "m"] }

def functionFlag : CommandLine.Arguments := { functions := some [Text.ofString "b"] }

theorem clashing_methodFlag : Options.clashing snakeOptions methodFlag.overrides = [] := by
  decide +kernel

theorem clashing_functionFlag :
    Options.clashing snakeOptions functionFlag.overrides = [Setting.functions.snakeKey] := by
  decide +kernel

/-- With a flag for methods the file loads as it is, with one for functions only in camel case. -/
theorem load_extends_unless_names_clash_samples :
    load snakeTree [] (some configPath) methodFlag.overrides =
      .ok { functionNames := [Text.ofString "a"], methodNames := [Text.ofString "m"],
            noParams := false } ∧
    load camelTree [] (some configPath) functionFlag.overrides =
      .ok { functionNames := [Text.ofString "a", Text.ofString "b"], noParams := false } ∧
    load snakeTree [] (some configPath) functionFlag.overrides =
      .error (.invalid [.unknownKey Setting.functions.snakeKey]) := by
  obtain ⟨-, hmethod⟩ := load_extends_unless_names_clash optionsOfFile_snakeTree
    parse_snakeOptions optionsOfFile_camelTree methodFlag.fromFlags_overrides
  obtain ⟨hcamel, hsnake⟩ := load_extends_unless_names_clash optionsOfFile_snakeTree
    parse_snakeOptions optionsOfFile_camelTree functionFlag.fromFlags_overrides
  rw [if_pos clashing_methodFlag] at hmethod
  rw [clashing_functionFlag] at hsnake
  refine ⟨hmethod.trans ?_, hcamel.trans ?_, hsnake⟩
  · apply congrArg
    decide +kernel
  · apply congrArg
    decide +kernel

end Configuration

end ParamLint

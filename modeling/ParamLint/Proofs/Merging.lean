import ParamLint.Proofs.JsonValues
import ParamLint.Proofs.Validation

/-!
# Merging options

A file and overrides that name settings in camel case, with values of their kinds, always make a
configuration: names are joined, patterns follow each other, and a flag is taken from the overrides,
from the file or from the defaults, in this order. An override that is null counts as none, and the
order of the keys plays no part.
-/
namespace ParamLint

open Json

namespace Json

/-! Objects have each key once -/

theorem nodup_keys_put {members : List (Text × Json)} (h : (keys members).Nodup) (key : Text)
    (v : Json) : (keys (Entries.put key v members)).Nodup := by
  rw [keys_put]
  split
  · exact h
  · rename_i hnew
    exact List.Nodup.append h (List.nodup_singleton key) (by simpa using hnew)

theorem nodup_keys_of_readMembers {value : List Char → Except Fault (Json × List Char)} {k : Nat}
    {known members : List (Text × Json)} {cs rest : List Char} (hknown : (keys known).Nodup)
    (h : readMembers value k known cs = .ok (members, rest)) : (keys members).Nodup := by
  induction k generalizing known cs with
  | zero => cases h
  | succ k ih =>
    rcases readMembers_cases value k known cs with ⟨e, -, hread⟩ |
      ⟨name, v, after, -, ⟨rest', -, hread⟩ | ⟨more, -, hread⟩ | hread⟩
    · rw [hread] at h
      cases h
    · rw [hread] at h
      cases h
      exact nodup_keys_put hknown name v
    · rw [hread] at h
      exact ih (nodup_keys_put hknown name v) h
    · rw [hread] at h
      cases h

theorem nodup_keys_of_readObject {value : List Char → Except Fault (Json × List Char)}
    {members : List (Text × Json)} {cs rest : List Char}
    (h : readObject value cs = .ok (.object members, rest)) : (keys members).Nodup := by
  unfold readObject at h
  split at h
  · cases h
    exact List.nodup_nil
  · obtain ⟨⟨ms, rest'⟩, hread, heq⟩ := map_eq_ok_iff.mp h
    cases heq
    have hnil : (keys ([] : List (Text × Json))).Nodup := List.nodup_nil
    exact nodup_keys_of_readMembers hnil hread

theorem readScalar_ne_object {members : List (Text × Json)} {cs rest : List Char} :
    readScalar cs ≠ .ok (.object members, rest) := by
  intro h
  unfold readScalar at h
  split at h
  · rename_i reading hword
    cases h
    obtain ⟨w, hmem, -⟩ := exists_mem_words hword
    simp [words] at hmem
  · rcases readNumber_cases cs with hread | ⟨sign, body, whole, fraction, exponent, after, -, -,
      ⟨v, hvalue, hread⟩ | ⟨-, -, -, hread⟩⟩
    · rw [hread] at h
      cases h
    · rw [hread] at h
      cases h
      unfold numberValue? at hvalue
      split at hvalue
      · simp at hvalue
      · simp at hvalue
    · rw [hread] at h
      cases h

theorem nodup_keys_of_readFrom {m : Nat} {members : List (Text × Json)} {cs rest : List Char}
    (h : readFrom m cs = .ok (.object members, rest)) : (keys members).Nodup := by
  cases m with
  | zero => cases h
  | succ m =>
    unfold readFrom at h
    split at h
    · cases h
    · obtain ⟨r, -, heq⟩ := map_eq_ok_iff.mp h
      cases heq
    · unfold readArray at h
      split at h
      · cases h
      · obtain ⟨r, -, heq⟩ := map_eq_ok_iff.mp h
        cases heq
    · exact nodup_keys_of_readObject h
    · exact absurd h readScalar_ne_object

theorem nodup_keys_of_parse {cs : List Char} {members : List (Text × Json)}
    (h : parse cs = .ok (.object members)) : (keys members).Nodup := by
  unfold parse at h
  split at h
  · cases h
  · obtain ⟨⟨v, rest⟩, hread, hrest⟩ := bind_eq_ok_iff.mp h
    dsimp only at hrest
    split at hrest
    · cases hrest
      exact nodup_keys_of_readFrom hread
    · cases hrest

def isNull : Json → Bool
  | null => true
  | _ => false

theorem lookup_perm {raw raw' : List (Text × Json)} (hkeys : (keys raw).Nodup) (h : raw'.Perm raw)
    (key : Text) : raw'.lookup key = raw.lookup key := by
  have hkeys' : (keys raw').Nodup := (h.map Prod.fst).nodup_iff.mpr hkeys
  refine Option.ext fun v => ?_
  rw [lookup_eq_some_iff_mem hkeys, lookup_eq_some_iff_mem hkeys', h.mem_iff]

end Json

namespace Options

variable {raw raw' overrides overrides' : List (Text × Json)}

/-- Options under camel-case keys, with values of the kinds of their settings. -/
def InCamelCase (raw : List (Text × Json)) : Prop :=
  ∀ e ∈ raw, ∃ s : Setting, e.1 = s.camelKey ∧ s.accepts e.2

theorem InCamelCase.snakeKey_not_mem (h : InCamelCase raw) (s : Setting) :
    s.snakeKey ∉ keys raw := by
  intro hmem
  obtain ⟨e, he, hkey⟩ := List.mem_map.mp hmem
  obtain ⟨s', hs', -⟩ := h e he
  exact Setting.camelKey_ne_snakeKey s' s (hs'.symm.trans hkey)

theorem InCamelCase.accepts (h : InCamelCase raw) {s : Setting} {v : Json} (hv : s.Holds raw v) :
    s.accepts v := by
  rcases hv with hmem | hmem
  · obtain ⟨s', hs', haccepts⟩ := h _ hmem
    rwa [Setting.camelKey_inj.mp hs']
  · exact absurd (List.mem_map.mpr ⟨_, hmem, rfl⟩) (h.snakeKey_not_mem s)

theorem InCamelCase.valid (h : InCamelCase raw) : Valid raw where
  known key hkey := by
    obtain ⟨e, he, rfl⟩ := List.mem_map.mp hkey
    obtain ⟨s, hs, -⟩ := h e he
    exact ⟨s, .inl hs⟩
  once s _ := h.snakeKey_not_mem s
  lists _ _ hv hlist := (accepts_iff_of_isList hlist).mp (h.accepts hv)
  flags _ _ hv hflag := (accepts_iff_of_isFlag hflag).mp (h.accepts hv)

theorem InCamelCase.clashing_eq (h : InCamelCase raw) (overrides : List (Text × Json)) :
    clashing raw overrides = [] := by
  refine List.eq_nil_iff_forall_not_mem.mpr fun key hkey => ?_
  obtain ⟨hmem, s, rfl, -⟩ := mem_clashing_iff.mp hkey
  exact h.snakeKey_not_mem s hmem

theorem FromFlags.isTyped (h : FromFlags overrides) : Typed overrides where
  value _ _ hv := value?_of_holds h.nodup (fun s _ => h.snakeKey_not_mem s) hv
  accepts s v hv := by
    rcases hv with hmem | hmem
    · obtain ⟨s', hs', htyped⟩ := h.typed _ hmem
      rwa [Setting.camelKey_inj.mp hs']
    · exact absurd (List.mem_map.mpr ⟨_, hmem, rfl⟩) (h.snakeKey_not_mem s)

/-! Overrides that count -/

def given (overrides : List (Text × Json)) : List (Text × Json) :=
  overrides.filter fun e => !e.2.isNull

theorem merge_given (raw overrides : List (Text × Json)) :
    merge raw (given overrides) = merge raw overrides := by
  induction overrides generalizing raw with
  | nil => rfl
  | cons e overrides ih =>
    obtain ⟨key, value⟩ := e
    cases value with
    | null => exact ih raw
    | _ => exact ih _

theorem nodup_keys_given (h : (keys overrides).Nodup) : (keys (given overrides)).Nodup :=
  (List.filter_sublist.map Prod.fst).nodup h

theorem lookup_merge_perm (hkeys : (keys raw).Nodup) (hover : (keys overrides).Nodup)
    (hraw' : raw'.Perm raw) (hover' : (given overrides').Perm (given overrides)) (key : Text) :
    (merge raw' overrides').lookup key = (merge raw overrides).lookup key := by
  have hgiven := nodup_keys_given hover
  have hgiven' : (keys (given overrides')).Nodup := (hover'.map Prod.fst).nodup_iff.mpr hgiven
  rw [← merge_given raw' overrides', ← merge_given raw overrides, lookup_merge hgiven',
    lookup_merge hgiven, lookup_perm hkeys hraw', lookup_perm hgiven hover']

end Options

namespace Configuration

open Options

def Gives (top : FileTree) (here : Place) : Option Path → List (Text × Json) → Prop
  | none, raw => raw = []
  | some p, raw => optionsOfFile top here p = .ok raw

variable {top : FileTree} {here : Place} {file : Option Path} {raw overrides : List (Text × Json)}

theorem Gives.load_eq (h : Gives top here file raw) (overrides : List (Text × Json)) :
    load top here file overrides = ofOptions raw overrides := by
  cases file with
  | none =>
    obtain rfl := h
    rfl
  | some p => exact load_of_file h

theorem nodup_keys_of_optionsOfText {path : Text} {cs : List Char}
    (h : optionsOfText path cs = .ok raw) : (keys raw).Nodup := by
  unfold optionsOfText at h
  split at h
  · cases h
  · cases h
  · rename_i members hparse
    cases h
    exact nodup_keys_of_parse hparse
  · cases h

theorem Gives.nodup_keys (h : Gives top here file raw) : (keys raw).Nodup := by
  cases file with
  | none =>
    obtain rfl := h
    exact List.nodup_nil
  | some p =>
    have hfile : optionsOfFile top here p = .ok raw := h
    unfold optionsOfFile at hfile
    split at hfile
    · cases hfile
    · split at hfile
      · cases hfile
      · unfold optionsOfBytes at hfile
        split at hfile
        · cases hfile
        · exact nodup_keys_of_optionsOfText hfile

/-- A file and overrides in camel case make a configuration, setting by setting. Files with the same
options and overrides with the same values, in any order, make the same one. -/
theorem load_merges_by_setting (hfile : Gives top here file raw) (hraw : InCamelCase raw)
    (hover : FromFlags overrides) :
    ∃ base c, Extends {} raw base ∧ Extends base overrides c ∧
      load top here file overrides = .ok c ∧
      ∀ top' here' file' raw' overrides', Gives top' here' file' raw' → raw'.Perm raw →
        (given overrides').Perm (given overrides) →
        load top' here' file' overrides' = .ok c := by
  have hkeys := hfile.nodup_keys
  have hnone : problems raw = [] := (problems_eq_nil_iff_valid hkeys).mpr hraw.valid
  have hbase : parse raw = .ok (Configuration.extendedBy {} raw) := parse_eq_ok_iff.mpr ⟨hnone, rfl⟩
  have hload : ofOptions raw overrides =
      .ok ((Configuration.extendedBy {} raw).extendedBy overrides) := by
    rw [ofOptions_of_parse hbase hover, if_pos (hraw.clashing_eq overrides)]
  refine ⟨_, _, (hraw.valid.typed hkeys).extends_extendedBy {}, hover.isTyped.extends_extendedBy _,
    ?_, ?_⟩
  · rw [hfile.load_eq, hload]
  · intro top' here' file' raw' overrides' hfile' hraw' hover'
    rw [hfile'.load_eq, ofOptions_eq_ok_iff,
      parse_congr (lookup_merge_perm hkeys hover.nodup hraw' hover')]
    exact ofOptions_eq_ok_iff.mp hload

/-! Two files with the same options -/

def mergedOptions : List (Text × Json) :=
  [(Setting.functions.camelKey, .array [.string (Text.ofString "a")]),
   (Setting.noParams.camelKey, .bool false)]

def swappedTree : FileTree :=
  configTree "\x7b\"ignoreNoParams\": false, \"ignoreFunctions\": [\"a\"]\x7d"

def laidOptions : List (Text × Json) :=
  [(Setting.functions.camelKey, .array [.string (Text.ofString "b")]),
   (Setting.noParams.camelKey, .null)]

theorem gives_camelTree : Gives camelTree [] (some configPath) mergedOptions := by
  rw [mergedOptions, ← camelized_snakeOptions]
  exact optionsOfFile_camelTree

theorem gives_swappedTree : Gives swappedTree [] (some configPath) mergedOptions.reverse := by
  rfl

theorem inCamelCase_mergedOptions : InCamelCase mergedOptions := by
  intro e he
  rcases List.mem_pair.mp he with rfl | rfl
  · exact ⟨.functions, rfl, rfl⟩
  · exact ⟨.noParams, rfl, rfl⟩

theorem fromFlags_laidOptions : FromFlags laidOptions where
  nodup := by
    have hne : Setting.functions.camelKey ≠ Setting.noParams.camelKey := by
      simp [Setting.camelKey_inj]
    simpa [laidOptions, keys] using hne
  typed e he := by
    rcases List.mem_pair.mp he with rfl | rfl
    · exact ⟨.functions, rfl, .inr rfl⟩
    · exact ⟨.noParams, rfl, .inl rfl⟩

theorem load_merges_camelTree :
    ∃ base c, Extends {} mergedOptions base ∧ Extends base laidOptions c ∧
      load camelTree [] (some configPath) laidOptions = .ok c ∧
      load swappedTree [] (some configPath) (laidOptions.take 1) = .ok c := by
  obtain ⟨base, c, hbase, hc, hload, hsame⟩ := load_merges_by_setting gives_camelTree
    inCamelCase_mergedOptions fromFlags_laidOptions
  have hswapped := hsame _ _ _ _ _ gives_swappedTree (List.reverse_perm _) (.refl _)
  exact ⟨base, c, hbase, hc, hload, hswapped⟩

end Configuration

end ParamLint

import Mathlib.Data.List.Find
import Mathlib.Logic.Relation
import ParamLint.Proofs.Descent
import ParamLint.Proofs.SameSite
import ParamLint.Rule.Exemption
import ParamLint.Rule.Verdict

/-!
# Plain and typed trees

Typed dialects put a wrapper around each parameter, keep its default there, always have a list
around parameters, and find the key of a class field under another field. A function has the same
site whichever of these shapes its tree has, and so the rule says the same about it.
-/
namespace ParamLint

namespace Node

/-- A node of a typed dialect in the place of the parameter `p`. -/
structure IsWrapper (p w : Node) : Prop where
  kind : w.kind = .requiredParameter ∨ w.kind = .optionalParameter
  isNamed : w.isNamed
  field : w.field = p.field
  start : w.start = p.start

/-- A parameter without and with its wrapper. A default moves into the wrapper. -/
inductive IsWrapped (p w : Node) : Prop
  | pattern (hw : IsWrapper p w)
      (hplain : p.kind ∉ [.assignmentPattern, .requiredParameter, .optionalParameter])
      (hpattern : w.child? .pattern = some { p with field := some .pattern })
      (hvalue : w.child? .value = none)
  | default {left right : Node} (hw : IsWrapper p w) (hkind : p.kind = .assignmentPattern)
      (hleft : p.child? .left = some left) (hthis : left.kind ≠ .this)
      (hright : p.child? .right = some right)
      (hpattern : w.child? .pattern = some { left with field := some .pattern })
      (hvalue : w.child? .value = some { right with field := some .value })

theorem IsWrapped.wrapper {p w : Node} (h : IsWrapped p w) : IsWrapper p w := by
  cases h with
  | pattern hw _ _ _ => exact hw
  | default hw _ _ _ _ _ _ => exact hw

/-- One change to the parameters of a function: one of a list is wrapped, the single one of an arrow
function is wrapped, or that one, an identifier, is put into a list of its own. -/
inductive RetypesParams (f : Node) : Node → Prop
  | listed (before after left right : List Node) {list p w : Node}
      (hf : f.children = before ++ list :: after) (hlist : list.field = some .parameters)
      (hparams : list.children = left ++ p :: right)
      (hp : p.isNamed ∧ p.kind ≠ .comment ∧ p.kind ≠ .decorator) (hw : IsWrapped p w) :
      RetypesParams f
        { f with children := before ++ { list with children := left ++ w :: right } :: after }
  | single (before after : List Node) {p w : Node} (harrow : f.kind = .function .arrowFunction)
      (hf : f.children = before ++ p :: after) (hp : p.field = some .parameter)
      (hw : IsWrapped p w) : RetypesParams f { f with children := before ++ w :: after }
  | bracketed (before after : List Node) {p list : Node}
      (harrow : f.kind = .function .arrowFunction) (hf : f.children = before ++ p :: after)
      (hp : p.field = some .parameter) (hkind : p.kind = .identifier)
      (hlist : list.field = some .parameters) (hstart : list.start = p.start)
      (hparams : list.listedParams = [{ p with field := none }])
      -- the list is the only place where the arrow function has parameters now
      (hsingle : child? { f with children := before ++ list :: after } .parameter = none)
      (hfound : child? { f with children := before ++ list :: after } .parameters = some list) :
      RetypesParams f { f with children := before ++ list :: after }

/-- The child of a class field in a typed dialect: a key stands under `name`. -/
def retagged (m : Node) : Node :=
  if m.field = some .property then { m with field := some .name } else m

def typedField (n : Node) : Node :=
  { n with kind := .publicFieldDefinition, children := n.children.map retagged }

/-- One change on the way down to a function, or to its parameters. -/
inductive Retypes : List Nat → Node → Node → Prop
  | params {f f' : Node} (h : RetypesParams f f') : Retypes [] f f'
  | field {n : Node} (i : Nat) (path : List Nat) (hkind : n.kind = .fieldDefinition)
      (hname : n.child? .name = none) : Retypes (i :: path) n n.typedField
  | child (before after : List Node) {n m m' : Node} {path : List Nat}
      (hn : n.children = before ++ m :: after) (h : Retypes path m m') :
      Retypes (before.length :: path) n { n with children := before ++ m' :: after }

section Replaced

variable {n a b : Node} {before after : List Node} {g : Field}

theorem child?_replace_of_ne (hn : n.children = before ++ a :: after) (ha : a.field ≠ some g)
    (hb : b.field ≠ some g) :
    child? { n with children := before ++ b :: after } g = n.child? g := by
  simp [child?, hn, List.find?_append, ha, hb]

theorem child?_replace (hn : n.children = before ++ a :: after) (hfield : b.field = a.field) :
    child? { n with children := before ++ b :: after } g = n.child? g ∨
      n.child? g = some a ∧ child? { n with children := before ++ b :: after } g = some b := by
  by_cases ha : a.field = some g
  · have hb : b.field = some g := hfield.trans ha
    cases hbefore : before.find? (·.field = some g) with
    | none => exact .inr (by simp [child?, hn, List.find?_append, ha, hb, hbefore])
    | some m => exact .inl (by simp [child?, hn, List.find?_append, hbefore])
  · have hb : b.field ≠ some g := hfield ▸ ha
    exact .inl (child?_replace_of_ne hn ha hb)

theorem child?_of_not_before (hn : n.children = before ++ a :: after) (ha : a.field = some g)
    (hbefore : ∀ m ∈ before, m.field ≠ some g) : n.child? g = some a := by
  have hnone : before.find? (·.field = some g) = none := by simpa using hbefore
  simp [child?, hn, List.find?_append, hnone, ha]

theorem exists_child? (hn : n.children = before ++ a :: after) (ha : a.field = some g) :
    ∃ m, n.child? g = some m := by
  apply Option.isSome_iff_exists.mp
  rw [child?, List.find?_isSome, hn]
  exact ⟨a, by simp, by simpa using ha⟩

theorem findIdx?_field (l : List Node) (g : Field) :
    l.findIdx? (·.field = some g) = (l.map Node.field).findIdx? (· = some g) := by
  rw [List.findIdx?_map]
  rfl

theorem slotAt_congr {n n' : Node} (h : n'.children.map Node.field = n.children.map Node.field)
    (i : Nat) : n'.slotAt i = n.slotAt i := by
  apply Option.ext
  intro g
  rw [slotAt_eq_some_iff, slotAt_eq_some_iff, findIdx?_field, h, ← findIdx?_field]

theorem field_of_slotAt {i : Nat} {m : Node} (hm : n.children[i]? = some m)
    (h : n.slotAt i = some g) : m.field = some g := by
  rw [slotAt, hm, Option.bind_some, Option.filter_eq_some_iff] at h
  exact h.1

end Replaced

end Node

section Params

variable {s : Source} {p w : Node}

theorem Param.ofNode_of_wrapper {pattern : Node} (hw : p.IsWrapper w)
    (hpattern : w.child? .pattern = some pattern) :
    Param.ofNode s w = if pattern.kind = .this then .ok ⟨.this, none, s.location p.start, none⟩
      else Param.ofPattern s p.start pattern (w.child? .value).isSome := by
  rcases hw.kind with hkind | hkind <;> rw [Param.ofNode, hkind, hpattern, hw.start]

theorem Param.ofNode_of_plain
    (h : p.kind ∉ [.assignmentPattern, .requiredParameter, .optionalParameter]) :
    Param.ofNode s p = Param.ofPattern s p.start p false := by
  unfold Param.ofNode
  split <;> simp_all

theorem Param.ofNode_wrapped (h : p.IsWrapped w) : Param.ofNode s w = Param.ofNode s p := by
  cases h with
  | pattern hw hplain hpattern hvalue =>
    rw [ofNode_of_wrapper hw hpattern, ofNode_of_plain hplain, hvalue]
    split
    · -- the wrapper looks for a receiver itself, and makes of it what the pattern would
      rename_i hthis
      rw [ofPattern, shape, hthis]
      rfl
    · rfl
  | @default left right hw hkind hleft hthis hright hpattern hvalue =>
    rw [ofNode_of_wrapper hw hpattern, if_neg hthis, hvalue, ofNode, hkind, hleft]
    rfl

end Params

theorem Frame.role_of_not_value {s : Source} {f : Frame}
    (hkind : f.parent.kind = .fieldDefinition ∨ f.parent.kind = .publicFieldDefinition)
    (hslot : f.slot ≠ some .value) : f.role s = .ok ⟨.other, none⟩ := by
  unfold role
  split <;> simp_all

/-- Class fields give the same role whichever kind they are of, if their keys have the same name. -/
theorem Frame.role_congr_of_field {s : Source} {f f' : Frame}
    (hkind : f.parent.kind = .fieldDefinition) (hkind' : f'.parent.kind = .publicFieldDefinition)
    (hslot : f'.slot = some .value ↔ f.slot = some .value)
    (hkey : s.keyName ((f'.parent.child? .property).or (f'.parent.child? .name)) =
      s.keyName ((f.parent.child? .property).or (f.parent.child? .name))) :
    f'.role s = f.role s := by
  by_cases hvalue : f.slot = some .value
  · have hvalue' := hslot.mpr hvalue
    simp only [role, hkind, hkind', hvalue, hvalue', hkey]
  · rw [role_of_not_value (.inl hkind) hvalue, role_of_not_value (.inr hkind') (mt hslot.mp hvalue)]

/-- One node in both trees: if it is a function, it has the same site. -/
structure Visit.Agrees (v v' : Visit) : Prop where
  kind : v'.node.kind = v.node.kind
  site : ∀ kind s, v.node.kind = .function kind →
    Occurrence.site s ⟨kind, v'.node, v'.above⟩ = Occurrence.site s ⟨kind, v.node, v.above⟩

namespace Node

variable {above above' : List Frame}

/-- The way down through what did not change. Only the field of the topmost node may differ. -/
theorem exists_descend_of_sameRole (habove : List.Forall₂ Frame.SameRole above above') {n : Node}
    (field : Option Field) {path : List Nat} {v : Visit} (h : descend above n path = some v) :
    ∃ v', descend above' { n with field } path = some v' ∧ v.Agrees v' := by
  induction path generalizing above above' n field with
  | nil =>
    rw [descend, Option.some.injEq] at h
    subst v
    refine ⟨_, rfl, rfl, fun kind s _ => ?_⟩
    have hparent : Occurrence.parent s ⟨kind, { n with field }, above'⟩ =
        Occurrence.parent s ⟨kind, n, above⟩ :=
      Occurrence.parent_congr rfl habove fun _ =>
        Occurrence.methodParent_congr habove rfl rfl rfl
    exact Occurrence.site_congr rfl rfl rfl rfl hparent
  | cons i path ih =>
    rw [descend, Option.bind_eq_some_iff] at h
    obtain ⟨m, hm, h⟩ := h
    have hslot : slotAt { n with field } i = n.slotAt i := slotAt_congr rfl i
    have hframe : Frame.SameRole ⟨n, n.slotAt i⟩ ⟨{ n with field }, n.slotAt i⟩ :=
      ⟨.rfl, .rfl, fun _ => rfl⟩
    obtain ⟨v', hv', hagrees⟩ := ih (.cons hframe habove) m.field h
    refine ⟨v', ?_, hagrees⟩
    rw [descend, hm, Option.bind_some, hslot]
    cases m
    exact hv'

section Params

variable {f f' : Node}

theorem mapM_listedParams_wrapped {s : Source} {list p w : Node} {left right : List Node}
    (hlist : list.children = left ++ p :: right)
    (hp : p.isNamed ∧ p.kind ≠ .comment ∧ p.kind ≠ .decorator) (hw : p.IsWrapped w) :
    (listedParams { list with children := left ++ w :: right }).mapM (Param.ofNode s) =
      list.listedParams.mapM (Param.ofNode s) := by
  have hsame := Param.ofNode_wrapped (s := s) hw
  have hnamed := hw.wrapper.isNamed
  have hcounts : w.kind ≠ .comment ∧ w.kind ≠ .decorator := by
    rcases hw.wrapper.kind with hkind | hkind <;> simp [hkind]
  simp [listedParams, namedChildren, hlist, hp, hnamed, hcounts, hsame]

theorem mapM_paramNodes_of_list {s : Source} {before after : List Node} {list list' : Node}
    {kind : FunctionKind} (hf : f.children = before ++ list :: after)
    (hlist : list.field = some .parameters) (hfield : list'.field = list.field)
    (hsame : list'.listedParams.mapM (Param.ofNode s) = list.listedParams.mapM (Param.ofNode s)) :
    (Occurrence.paramNodes ⟨kind, { f with children := before ++ list' :: after }, above'⟩).mapM
        (Param.ofNode s) =
      (Occurrence.paramNodes ⟨kind, f, above⟩).mapM (Param.ofNode s) := by
  have hparam : child? { f with children := before ++ list' :: after } .parameter =
      f.child? .parameter :=
    child?_replace_of_ne hf (by simp [hlist]) (by simp [hlist, hfield])
  by_cases hsingle : kind = .arrowFunction ∧ (f.child? .parameter).isSome
  · obtain ⟨harrow, hsome⟩ := hsingle
    obtain ⟨p, hp⟩ := Option.isSome_iff_exists.mp hsome
    rw [Occurrence.paramNodes_of_single harrow (hparam.trans hp),
      Occurrence.paramNodes_of_single harrow hp]
  · have hnone : kind = .arrowFunction → f.child? .parameter = none := by simpa using hsingle
    rw [Occurrence.paramNodes_of_list (hparam ▸ hnone), Occurrence.paramNodes_of_list hnone]
    rcases child?_replace (g := .parameters) hf hfield with hchild | ⟨hold, hnew⟩
    · rw [hchild]
    · rw [hold, hnew]
      exact hsame

theorem RetypesParams.mapM_paramNodes {s : Source} {kind : FunctionKind} (h : RetypesParams f f')
    (hkind : f.kind = .function kind) :
    (Occurrence.paramNodes ⟨kind, f', above'⟩).mapM (Param.ofNode s) =
      (Occurrence.paramNodes ⟨kind, f, above⟩).mapM (Param.ofNode s) := by
  cases h with
  | @listed before after left right list p w hf hlist hparams hp hw =>
    have hsame : (listedParams { list with children := left ++ w :: right }).mapM (Param.ofNode s) =
        list.listedParams.mapM (Param.ofNode s) := mapM_listedParams_wrapped hparams hp hw
    exact mapM_paramNodes_of_list hf hlist rfl hsame
  | @single before after p w harrow hf hp hw =>
    -- an earlier child under the same field would be the parameter instead, and stays
    have hkind : kind = .arrowFunction := by simpa [hkind] using harrow
    rcases child?_replace (g := .parameter) hf hw.wrapper.field with hsame | ⟨hold, hnew⟩
    · obtain ⟨m, hm⟩ := exists_child? hf hp
      rw [Occurrence.paramNodes_of_single hkind (hsame.trans hm),
        Occurrence.paramNodes_of_single hkind hm]
    · rw [Occurrence.paramNodes_of_single hkind hnew, Occurrence.paramNodes_of_single hkind hold,
        List.mapM_cons, List.mapM_cons, Param.ofNode_wrapped hw]
  | @bracketed before after p list harrow hf hp _ hlist _ hparams hsingle hfound =>
    have hkind : kind = .arrowFunction := by simpa [hkind] using harrow
    have hold : f.child? .parameter = some p := by
      apply child?_of_not_before hf hp
      intro m hm
      simpa using List.find?_eq_none.mp hsingle m (List.mem_append_left _ hm)
    rw [Occurrence.paramNodes_of_list fun _ => hsingle, hfound, Option.elim_some, hparams,
      Occurrence.paramNodes_of_single hkind hold]
    rfl

theorem RetypesParams.kind_eq (h : RetypesParams f f') : f'.kind = f.kind := by
  cases h with
  | _ => rfl

theorem RetypesParams.start_eq (h : RetypesParams f f') : f'.start = f.start := by
  cases h with
  | _ => rfl

theorem RetypesParams.child?_name (h : RetypesParams f f') : f'.child? .name = f.child? .name := by
  cases h with
  | listed _ _ _ _ hf hlist _ _ _ =>
    exact child?_replace_of_ne hf (by simp [hlist]) (by simp [hlist])
  | single _ _ _ hf hp hw =>
    exact child?_replace_of_ne hf (by simp [hp]) (by simp [hw.wrapper.field, hp])
  | bracketed _ _ _ hf hp _ hlist _ _ _ _ =>
    exact child?_replace_of_ne hf (by simp [hp]) (by simp [hlist])

/-- Methods have lists of parameters only, so nothing beside the list changes. -/
theorem RetypesParams.any_static (h : RetypesParams f f')
    (hkind : f.kind = .function .methodDefinition) :
    (f'.children.any fun n => n.kind = .staticMark) =
      f.children.any fun n => n.kind = .staticMark := by
  cases h with
  | listed _ _ _ _ hf _ _ _ _ => simp [hf]
  | single _ _ harrow _ _ _ => simp [hkind] at harrow
  | bracketed _ _ harrow _ _ _ _ _ _ _ _ => simp [hkind] at harrow

theorem RetypesParams.agrees (h : RetypesParams f f')
    (habove : List.Forall₂ Frame.SameRole above above') : Visit.Agrees ⟨f, above⟩ ⟨f', above'⟩ := by
  refine ⟨h.kind_eq, fun kind s hkind => ?_⟩
  have hname := h.child?_name
  have hown : Occurrence.ownName s ⟨kind, f', above'⟩ = Occurrence.ownName s ⟨kind, f, above⟩ := by
    simp only [Occurrence.ownName, hname]
  have hparent : Occurrence.parent s ⟨kind, f', above'⟩ = Occurrence.parent s ⟨kind, f, above⟩ := by
    refine Occurrence.parent_congr rfl habove fun hmethod => ?_
    refine Occurrence.methodParent_congr habove ?_ ?_ ?_
    · exact h.any_static (hkind.trans (congrArg Kind.function hmethod))
    · simp only [hname]
    · simp only [hname]
  exact Occurrence.site_congr rfl h.start_eq hown (h.mapM_paramNodes hkind) hparent

end Params

section Fields

variable {n : Node}

theorem retagged_field_eq_iff (m : Node) {g : Field} (hname : g ≠ .name)
    (hproperty : g ≠ .property) : m.retagged.field = some g ↔ m.field = some g := by
  unfold retagged
  split
  · rename_i hfield
    simp [hfield, hname.symm, hproperty.symm]
  · rfl

theorem typedField_child?_property : n.typedField.child? .property = none := by
  simp only [child?, typedField, List.find?_eq_none, List.mem_map]
  rintro _ ⟨m, -, rfl⟩
  unfold retagged
  split <;> simp_all

theorem typedField_child?_name (hname : n.child? .name = none) :
    n.typedField.child? .name =
      (n.child? .property).map fun m => { m with field := some .name } := by
  have hnone : ∀ m ∈ n.children, m.field ≠ some .name := by simpa [child?] using hname
  have hfind : n.children.find? ((fun m : Node => decide (m.field = some .name)) ∘ retagged) =
      n.child? .property := by
    apply List.find?_congr
    intro m hm
    have hm := hnone m hm
    by_cases hproperty : m.field = some .property <;> simp [retagged, hproperty, hm]
  rw [child?, typedField, List.find?_map, hfind]
  apply Option.map_congr
  intro m hm
  have hproperty : m.field = some .property := by simpa using List.find?_some hm
  rw [retagged, if_pos hproperty]

theorem typedField_slotAt_eq_value_iff (i : Nat) :
    n.typedField.slotAt i = some .value ↔ n.slotAt i = some .value := by
  rw [slotAt_eq_some_iff, slotAt_eq_some_iff, typedField, List.findIdx?_map]
  have hvalue : ((fun m : Node => decide (m.field = some .value)) ∘ retagged) =
      fun m => decide (m.field = some .value) := by
    funext m
    simp [retagged_field_eq_iff m]
  rw [hvalue]

theorem typedField_sameRole (hkind : n.kind = .fieldDefinition) (hname : n.child? .name = none)
    (i : Nat) : Frame.SameRole ⟨n, n.slotAt i⟩ ⟨n.typedField, n.typedField.slotAt i⟩ := by
  have hkind' : n.typedField.kind = .publicFieldDefinition := rfl
  refine ⟨by simp [hkind, hkind'], by simp [hkind, hkind'], fun s => ?_⟩
  apply Frame.role_congr_of_field hkind hkind' (typedField_slotAt_eq_value_iff i)
  rw [typedField_child?_property, typedField_child?_name hname, hname, Option.none_or,
    Option.or_none]
  cases n.child? .property with
  | none => rfl
  | some key => rfl

theorem retagged_eq (m : Node) : m.retagged = { m with field := m.retagged.field } := by
  cases m
  unfold retagged
  split <;> rfl

end Fields

theorem Retypes.field_eq {path : List Nat} {n n' : Node} (h : Retypes path n n') :
    n'.field = n.field := by
  cases h with
  | params h =>
    cases h with
    | _ => rfl
  | field _ _ _ _ => rfl
  | child _ _ _ _ => rfl

/-- A child that is exchanged for one under the same field leaves the roles of all children. -/
theorem replaced_sameRole {n m m' : Node} {before after : List Node}
    (hn : n.children = before ++ m :: after) (hfield : m'.field = m.field) :
    Frame.SameRole ⟨n, n.slotAt before.length⟩ ⟨{ n with children := before ++ m' :: after },
      slotAt { n with children := before ++ m' :: after } before.length⟩ := by
  have hslot : slotAt { n with children := before ++ m' :: after } before.length =
      n.slotAt before.length := slotAt_congr (by simp [hn, hfield]) _
  have hm : n.children[before.length]? = some m := by simp [hn]
  -- the function comes by one field, the names by others
  have hother : ∀ f g, n.slotAt before.length = some f → f ≠ g →
      child? { n with children := before ++ m' :: after } g = n.child? g := by
    intro f g hf hne
    have hmf := field_of_slotAt hm hf
    apply child?_replace_of_ne hn
    · simp [hmf, hne]
    · simp [hfield, hmf, hne]
  refine ⟨.rfl, .rfl, fun s => ?_⟩
  refine Frame.role_congr rfl hslot ?_ ?_ ?_ ?_
  · intro hvalue
    exact congrArg s.keyName (hother _ _ hvalue (by decide))
  · intro hvalue
    exact congrArg s.keyName
      (congrArg₂ Option.or (hother _ _ hvalue (by decide)) (hother _ _ hvalue (by decide)))
  · intro hvalue
    exact congrArg s.identifierName (hother _ _ hvalue (by decide))
  · intro hright
    exact congrArg s.identifierName (hother _ _ hright (by decide))

theorem Retypes.exists_descend {path : List Nat} {n n' : Node} (h : Retypes path n n')
    (habove : List.Forall₂ Frame.SameRole above above') {v : Visit}
    (hv : descend above n path = some v) :
    ∃ v', descend above' n' path = some v' ∧ v.Agrees v' := by
  induction h generalizing above above' v with
  | params h =>
    rw [descend, Option.some.injEq] at hv
    subst v
    exact ⟨_, rfl, h.agrees habove⟩
  | @field n i path hkind hname =>
    rw [descend, Option.bind_eq_some_iff] at hv
    obtain ⟨m, hm, hv⟩ := hv
    have hframe := typedField_sameRole hkind hname i
    obtain ⟨v', hv', hagrees⟩ :=
      exists_descend_of_sameRole (.cons hframe habove) m.retagged.field hv
    have hm' : n.typedField.children[i]? = some m.retagged := by simp [typedField, hm]
    refine ⟨v', ?_, hagrees⟩
    rw [descend, hm', Option.bind_some, retagged_eq]
    exact hv'
  | @child before after n m m' path hn h ih =>
    have hm : n.children[before.length]? = some m := by simp [hn]
    have hm' : (before ++ m' :: after)[before.length]? = some m' := by simp
    rw [descend, hm, Option.bind_some] at hv
    obtain ⟨v', hv', hagrees⟩ := ih (.cons (replaced_sameRole hn h.field_eq) habove) hv
    refine ⟨v', ?_, hagrees⟩
    rw [descend, hm', Option.bind_some]
    exact hv'

theorem Retypes.exists_functionAt? {root root' : Node} {path : List Nat} {o : Occurrence}
    (h : Retypes path root root') (ho : root.functionAt? path = some o) :
    ∃ o', root'.functionAt? path = some o' ∧ ∀ s, o'.site s = o.site s := by
  obtain ⟨hdescend, hkind⟩ := functionAt?_eq_some_iff.mp ho
  obtain ⟨v', hv', hagrees⟩ := h.exists_descend .nil hdescend
  refine ⟨⟨o.kind, v'.node, v'.above⟩, ?_, fun s => hagrees.site o.kind s hkind⟩
  exact functionAt?_eq_some_iff.mpr ⟨hv', hagrees.kind.trans hkind⟩

/-- Any number of changes between the plain and the typed shape of a function leave its site, and
with it what the rule says under every configuration. -/
theorem site_eq_of_retypes {root root' : Node} {path : List Nat} {o : Occurrence}
    (h : Relation.ReflTransGen (Retypes path) root root') (ho : root.functionAt? path = some o) :
    ∃ o', root'.functionAt? path = some o' ∧ ∀ s, o'.site s = o.site s ∧
      ∀ c, (o'.site s).map (fun site => (site.isExempt c, site.verdict c)) =
        (o.site s).map fun site => (site.isExempt c, site.verdict c) := by
  have hsite : ∃ o', root'.functionAt? path = some o' ∧ ∀ s, o'.site s = o.site s := by
    induction h with
    | refl => exact ⟨o, ho, fun _ => rfl⟩
    | tail _ hstep ih =>
      obtain ⟨o₁, ho₁, hsite₁⟩ := ih
      obtain ⟨o₂, ho₂, hsite₂⟩ := hstep.exists_functionAt? ho₁
      exact ⟨o₂, ho₂, fun s => (hsite₂ s).trans (hsite₁ s)⟩
  obtain ⟨o', ho', hsite⟩ := hsite
  refine ⟨o', ho', fun s => ⟨hsite s, fun c => ?_⟩⟩
  rw [hsite s]

def fieldSource : List Char := "class A \x7b f = x => x \x7d".toList

def fieldKey : Node :=
  { kind := .propertyIdentifier, field := some .property, start := 10, stop := 11 }

/-- The body of the class in `fieldSource`, with the parameter of the arrow function as it is
given. -/
def fieldTree (param : Node) : Node :=
  { kind := .classBody, start := 8, stop := 22, children := [
    { kind := .fieldDefinition, start := 10, stop := 20, children := [
      fieldKey,
      { kind := .function .arrowFunction, field := some .value, start := 14, stop := 20,
        children := [param] }] }] }

def bareParam : Node :=
  { kind := .identifier, field := some .parameter, start := 14, stop := 15 }

def paramList (param : Node) : Node :=
  { kind := .other "formal_parameters", field := some .parameters, start := 14, stop := 15,
    children := [param] }

def listedParam : Node := { kind := .identifier, start := 14, stop := 15 }

def wrappedParam : Node :=
  { kind := .requiredParameter, start := 14, stop := 15, children := [
    { kind := .identifier, field := some .pattern, start := 14, stop := 15 }] }

theorem isWrapped_wrappedParam : listedParam.IsWrapped wrappedParam :=
  .pattern ⟨.inl rfl, rfl, rfl, rfl⟩ (by decide) rfl rfl

/-- A parameter with a default, and the same in a wrapper. -/
def defaultParam : Node :=
  { kind := .assignmentPattern, start := 14, stop := 19, children := [
    { kind := .identifier, field := some .left, start := 14, stop := 15 },
    { kind := .number, field := some .right, start := 18, stop := 19 }] }

def wrappedDefault : Node :=
  { kind := .requiredParameter, start := 14, stop := 19, children := [
    { kind := .identifier, field := some .pattern, start := 14, stop := 15 },
    { kind := .number, field := some .value, start := 18, stop := 19 }] }

theorem isWrapped_wrappedDefault : defaultParam.IsWrapped wrappedDefault :=
  .default ⟨.inl rfl, rfl, rfl, rfl⟩ rfl rfl (by decide) rfl rfl rfl

theorem retypes_paramList {p w : Node} (hp : p.isNamed ∧ p.kind ≠ .comment ∧ p.kind ≠ .decorator)
    (hw : p.IsWrapped w) : Retypes [0, 1] (fieldTree (paramList p)) (fieldTree (paramList w)) :=
  .child [] [] rfl (.child [fieldKey] [] rfl
    (.params (@RetypesParams.listed _ [] [] [] [] (paramList p) p w rfl rfl rfl hp hw)))

def typedFieldTree : Node :=
  { kind := .classBody, start := 8, stop := 22, children := [
    { kind := .publicFieldDefinition, start := 10, stop := 20, children := [
      { fieldKey with field := some .name },
      { kind := .function .arrowFunction, field := some .value, start := 14, stop := 20,
        children := [paramList wrappedParam] }] }] }

theorem retypes_fieldTree :
    Relation.ReflTransGen (Retypes [0, 1]) (fieldTree bareParam) typedFieldTree := by
  have hlist : Retypes [0, 1] (fieldTree bareParam) (fieldTree (paramList listedParam)) :=
    .child [] [] rfl (.child [fieldKey] [] rfl
      (.params (.bracketed [] [] rfl rfl rfl rfl rfl rfl rfl rfl rfl)))
  have hwrapper := retypes_paramList (by decide) isWrapped_wrappedParam
  have hfield : Retypes [0, 1] (fieldTree (paramList wrappedParam)) typedFieldTree :=
    .child [] [] rfl (.field 1 [] rfl rfl)
  exact ((Relation.ReflTransGen.single hlist).tail hwrapper).tail hfield

/-- A class field all of whose parts change, with the site that it keeps, and a default that moves
into a wrapper. -/
theorem site_eq_of_retypes_fieldTree :
    (Relation.ReflTransGen (Retypes [0, 1]) (fieldTree bareParam) typedFieldTree ∧
      ∃ o, typedFieldTree.functionAt? [0, 1] = some o ∧
        (o.site (.ofChars fieldSource)).toOption =
          some { kind := .arrowFunction, ownName := none, location := ⟨1, 15⟩,
                 params := [⟨.plain, some (Text.ofString "x"), ⟨1, 15⟩, none⟩],
                 parent := ⟨.classProperty, some (Text.ofString "f")⟩ }) ∧
    ∃ o o', (fieldTree (paramList defaultParam)).functionAt? [0, 1] = some o ∧
      (fieldTree (paramList wrappedDefault)).functionAt? [0, 1] = some o' ∧
        ∀ s, o'.site s = o.site s := by
  constructor
  · obtain ⟨o, ho⟩ : ∃ o, (fieldTree bareParam).functionAt? [0, 1] = some o := ⟨_, rfl⟩
    obtain ⟨o', ho', hsite⟩ := site_eq_of_retypes retypes_fieldTree ho
    have hplain : ∀ o ∈ (fieldTree bareParam).functionAt? [0, 1],
        (o.site (.ofChars fieldSource)).toOption =
          some { kind := .arrowFunction, ownName := none, location := ⟨1, 15⟩,
                 params := [⟨.plain, some (Text.ofString "x"), ⟨1, 15⟩, none⟩],
                 parent := ⟨.classProperty, some (Text.ofString "f")⟩ } := by
      decide +kernel
    refine ⟨retypes_fieldTree, o', ho', ?_⟩
    rw [(hsite (.ofChars fieldSource)).1]
    exact hplain o ho
  · obtain ⟨o, ho⟩ : ∃ o, (fieldTree (paramList defaultParam)).functionAt? [0, 1] = some o :=
      ⟨_, rfl⟩
    have hdefault := retypes_paramList (by decide) isWrapped_wrappedDefault
    obtain ⟨o', ho', hsite⟩ := site_eq_of_retypes (.single hdefault) ho
    exact ⟨o, o', ho, ho', fun s => (hsite s).1⟩

end Node

end ParamLint

import ParamLint.Proofs.Findings
import ParamLint.Proofs.IgnoredNames
import ParamLint.Proofs.SameSite

/-!
# Shapes of sites

The fields of a site that is read from a tree belong together: the role of a function fits its kind
and its names, a parameter has a target exactly if it has a default, and it lacks a name exactly if
its pattern is taken apart, gathers the rest or is `this`. So a parameter that offends is reported
by its text, but for a default on a rest pattern or on `this`.
-/
namespace ParamLint

namespace Param

/-- The pattern of a parameter: what a typed parameter wraps, what a default stands on, or the
parameter itself. -/
def patternNode (n : Node) : Node :=
  match n.kind with
  | .requiredParameter | .optionalParameter => (n.child? .pattern).getD n
  | .assignmentPattern => (n.child? .left).getD n
  | _ => n

/-- The parameter has a default that is looked at. With a typed `this` it is not. -/
def isDefaulted (n : Node) : Bool :=
  match n.kind with
  | .requiredParameter | .optionalParameter =>
    (n.child? .pattern).any (·.kind ≠ .this) && (n.child? .value).isSome
  | .assignmentPattern => (n.child? .left).isSome
  | _ => false

variable {s : Source} {n : Node} {p : Param}

theorem ofPattern_eq (start : Nat) (pattern : Node) (defaulted : Bool) :
    ofPattern s start pattern defaulted = (shape s pattern).map fun r =>
      if defaulted then ⟨.defaulted, r.2, s.location start, some r.1⟩
      else ⟨r.1, r.2, s.location start, none⟩ := by
  rw [ofPattern, ← bind_pure_eq_map]
  cases defaulted <;> rfl

theorem shape_of_this {pattern : Node} (h : pattern.kind = .this) :
    shape s pattern = .ok (.this, none) := by
  rw [shape, h]

theorem unknown_eq
    (hshape : shape s n = (s.text n).map fun cs => (.unknown, some (Text.ofChars cs))) :
    unknown s n = ofPattern s n.start n false := by
  rw [ofPattern_eq, hshape, unknown]
  cases s.text n <;> rfl

theorem ofNode_of_typed
    (hkind : n.kind = .requiredParameter ∨ n.kind = .optionalParameter) :
    ofNode s n = ofPattern s n.start (patternNode n) (isDefaulted n) := by
  have hpattern : patternNode n = (n.child? .pattern).getD n := by
    rcases hkind with hkind | hkind <;> rw [patternNode, hkind]
  have hdefaulted : isDefaulted n =
      ((n.child? .pattern).any (·.kind ≠ .this) && (n.child? .value).isSome) := by
    rcases hkind with hkind | hkind <;> rw [isDefaulted, hkind]
  rw [hpattern, hdefaulted]
  cases hchild : n.child? .pattern with
  | none =>
    have hnode : ofNode s n = unknown s n := by
      rcases hkind with hkind | hkind <;> rw [ofNode, hkind, hchild]
    rw [hnode]
    exact unknown_eq (by rcases hkind with hkind | hkind <;> rw [shape, hkind])
  | some pattern =>
    have hnode : ofNode s n =
        if pattern.kind = .this then .ok ⟨.this, none, s.location n.start, none⟩
        else ofPattern s n.start pattern (n.child? .value).isSome := by
      rcases hkind with hkind | hkind <;> rw [ofNode, hkind, hchild]
    rw [hnode]
    by_cases hthis : pattern.kind = .this
    · simp [hthis, ofPattern_eq, shape_of_this hthis, Except.map]
    · simp [hthis]

theorem ofNode_of_assignment (hkind : n.kind = .assignmentPattern) :
    ofNode s n = ofPattern s n.start (patternNode n) (isDefaulted n) := by
  rw [ofNode, patternNode, isDefaulted, hkind]
  cases n.child? .left with
  | none => exact unknown_eq (by rw [shape, hkind])
  | some left => rfl

theorem ofNode_eq_ofPattern (s : Source) (n : Node) :
    ofNode s n = ofPattern s n.start (patternNode n) (isDefaulted n) := by
  by_cases htyped : n.kind = .requiredParameter ∨ n.kind = .optionalParameter
  · exact ofNode_of_typed htyped
  · by_cases hassignment : n.kind = .assignmentPattern
    · exact ofNode_of_assignment hassignment
    · unfold ofNode patternNode isDefaulted
      split <;> simp_all

theorem location_of_ofNode (h : ofNode s n = .ok p) : p.location = s.location n.start := by
  rw [ofNode_eq_ofPattern, ofPattern_eq] at h
  obtain ⟨r, -, rfl⟩ := map_eq_ok_iff.mp h
  cases isDefaulted n <;> rfl

/-- The shapes that have no name: parts are taken out of them, or they are bound to no variable. -/
def namelessKinds : List ParamKind := [.object, .array, .rest, .this]

theorem shape_cases {kind : ParamKind} {name : Option Text} (h : shape s n = .ok (kind, name)) :
    name = none ∧ kind ∈ namelessKinds ∨
      (∃ t, name = some t ∧ s.Spells n t) ∧ (kind = .plain ∨ kind = .unknown) := by
  have htext : ∀ {k : ParamKind},
      ((s.text n).map fun cs => (k, some (Text.ofChars cs))) = .ok (kind, name) →
        kind = k ∧ ∃ t, name = some t ∧ s.Spells n t := by
    intro k hk
    obtain ⟨cs, hcs, hread⟩ := map_eq_ok_iff.mp hk
    cases hread
    exact ⟨rfl, _, rfl, cs, hcs, rfl⟩
  unfold shape at h
  split at h
  · exact .inr ⟨(htext h).2, .inl (htext h).1⟩
  · exact .inr ⟨(htext h).2, .inl (htext h).1⟩
  · cases h
    exact .inl ⟨rfl, by decide⟩
  · cases h
    exact .inl ⟨rfl, by decide⟩
  · cases h
    exact .inl ⟨rfl, by decide⟩
  · cases h
    exact .inl ⟨rfl, by decide⟩
  · exact .inr ⟨(htext h).2, .inr (htext h).1⟩

/-- The shape of a parameter: with a default that of its target. -/
def bareKind (p : Param) : ParamKind := p.target.getD p.kind

/-- Target, kind and name of a parameter belong together. -/
structure IsWellFormed (p : Param) : Prop where
  target_iff : p.target.isSome ↔ p.kind = .defaulted
  target_ne : p.target ≠ some .defaulted
  name_iff : p.name = none ↔ p.bareKind ∈ namelessKinds

/-- A default stands on a rest pattern or on `this`. -/
def HasStrayDefault (p : Param) : Prop :=
  p.kind = .defaulted ∧ (p.target = some .rest ∨ p.target = some .this)

/-- What the parameter at a node is called in a report: nothing but its text, unless a default
stands on a rest pattern or on `this`. -/
def IsCalled (s : Source) (n : Node) (p : Param) : Prop :=
  p.HasStrayDefault ∧ p.name = none ∧ p.label = Text.ofString "param" ∨
    ¬ p.HasStrayDefault ∧ p.name = some p.label ∧ s.Spells (patternNode n) p.label

theorem ofNode_cases (h : ofNode s n = .ok p) : ∃ kind,
    (p.name = none ∧ kind ∈ namelessKinds ∨
      (∃ t, p.name = some t ∧ s.Spells (patternNode n) t) ∧ (kind = .plain ∨ kind = .unknown)) ∧
    (p.kind = .defaulted ∧ p.target = some kind ∨ p.kind = kind ∧ p.target = none) := by
  rw [ofNode_eq_ofPattern, ofPattern_eq] at h
  obtain ⟨⟨kind, name⟩, hshape, rfl⟩ := map_eq_ok_iff.mp h
  refine ⟨kind, ?_, ?_⟩
  · have hcases := shape_cases hshape
    cases isDefaulted n <;> exact hcases
  · cases isDefaulted n with
    | true => exact .inl ⟨rfl, rfl⟩
    | false => exact .inr ⟨rfl, rfl⟩

theorem isWellFormed_of_ofNode (h : ofNode s n = .ok p) : p.IsWellFormed := by
  obtain ⟨kind, hname, hkind⟩ := ofNode_cases h
  have hplain : kind ≠ .defaulted := by
    rcases hname with ⟨-, hmem⟩ | ⟨-, rfl | rfl⟩
    · rintro rfl
      exact absurd hmem (by decide)
    · decide
    · decide
  have hbare : p.bareKind = kind := by
    rcases hkind with ⟨-, htarget⟩ | ⟨hkind, htarget⟩
    · simp [bareKind, htarget]
    · simp [bareKind, htarget, hkind]
  refine ⟨?_, ?_, ?_⟩
  · rcases hkind with ⟨hkind, htarget⟩ | ⟨hkind, htarget⟩ <;> simp [hkind, htarget, hplain]
  · rcases hkind with ⟨-, htarget⟩ | ⟨-, htarget⟩ <;> simp [htarget, hplain]
  · rw [hbare]
    rcases hname with ⟨hnone, hmem⟩ | ⟨⟨t, ht, -⟩, rfl | rfl⟩
    · simp [hnone, hmem]
    · simp [ht, namelessKinds]
    · simp [ht, namelessKinds]

theorem isCalled_of_ofNode (h : ofNode s n = .ok p) (hp : ¬ p.isAllowed) : p.IsCalled s n := by
  obtain ⟨kind, ⟨hnone, hmem⟩ | ⟨⟨t, ht, hspells⟩, hplain⟩, hkind⟩ := ofNode_cases h
  · refine .inl ⟨?_, hnone, by rw [label, hnone]; rfl⟩
    simp only [namelessKinds, List.mem_cons, List.not_mem_nil, or_false] at hmem
    rcases hkind with ⟨hkind, htarget⟩ | ⟨hkind, htarget⟩ <;>
      rcases hmem with rfl | rfl | rfl | rfl <;>
      simp_all [isAllowed, isDestructured, HasStrayDefault]
  · have hlabel : p.label = t := by rw [label, ht]; rfl
    refine .inr ⟨?_, by rw [hlabel, ht], hlabel ▸ hspells⟩
    rcases hkind with ⟨hkind, htarget⟩ | ⟨hkind, htarget⟩ <;> rcases hplain with rfl | rfl <;>
      simp [HasStrayDefault, hkind, htarget]

end Param

namespace Site

/-- The role of a function fits its kind and its names, and its parameters are well formed. -/
structure IsWellFormed (site : Site) : Prop where
  method_iff : site.parent.kind = .method ∨ site.parent.kind = .constructor ↔
    site.kind = .methodDefinition
  constructor_name : site.parent.kind = .constructor →
    site.parent.name = some (Text.ofString "constructor")
  other_name : site.parent.kind = .other → site.parent.name = none
  ownName : site.kind = .methodDefinition ∨ site.kind = .arrowFunction → site.ownName = none
  params : ∀ p ∈ site.params, p.IsWellFormed

end Site

namespace Occurrence

variable {s : Source} {o : Occurrence} {p : Parent} {site : Site}

theorem kind_eq_method_iff (h : o.parent s = .ok p) :
    p.kind = .method ∨ p.kind = .constructor ↔ o.kind = .methodDefinition := by
  rcases parent_cases h with ⟨hkind, hp⟩ | ⟨hkind, f, -, hp⟩ | ⟨hkind, -, rfl⟩
  · rcases (methodParent_cases hkind hp).2 with ⟨hrole, -⟩ | ⟨hrole, -⟩ <;> simp [hrole, hkind]
  · simp [hkind, Frame.kind_of_role hp]
  · simp [hkind]

theorem name_of_constructor (h : o.parent s = .ok p) (hp : p.kind = .constructor) :
    p.name = some (Text.ofString "constructor") := by
  have hkind : o.kind = .methodDefinition := (kind_eq_method_iff h).mp (.inr hp)
  rcases parent_cases h with ⟨-, hmethod⟩ | ⟨hnot, -⟩ | ⟨hnot, -⟩
  · obtain ⟨hname, ⟨-, hconstructor⟩ | ⟨hmethod, -⟩⟩ := methodParent_cases hkind hmethod
    · obtain ⟨key, hkey, -, hresolves⟩ := hconstructor.key
      rw [hkey, Source.keyName, hresolves] at hname
      exact (Except.ok.inj hname).symm
    · simp [hp] at hmethod
  · exact absurd hkind hnot
  · exact absurd hkind hnot

theorem name_of_other (h : o.parent s = .ok p) (hp : p.kind = .other) : p.name = none := by
  rcases parent_cases h with ⟨hkind, -⟩ | ⟨-, f, -, hrole⟩ | ⟨-, -, rfl⟩
  · rcases (kind_eq_method_iff h).mpr hkind with hmethod | hconstructor
    · simp [hp] at hmethod
    · simp [hp] at hconstructor
  · rcases Frame.role_cases hrole with ⟨-, -, hkind, -⟩ | ⟨-, -, hkind, -⟩ | ⟨-, -, hkind, -⟩ |
      ⟨-, -, hkind, -⟩ | ⟨-, -, -, rfl⟩
    · simp [hp] at hkind
    · simp [hp] at hkind
    · simp [hp] at hkind
    · simp [hp] at hkind
    · rfl
  · rfl

theorem ownName_eq_none {name : Option Text} (h : o.ownName s = .ok name)
    (hkind : o.kind = .methodDefinition ∨ o.kind = .arrowFunction) : name = none := by
  rcases hkind with hkind | hkind <;> rw [ownName, hkind] at h <;> exact (Except.ok.inj h).symm

theorem isWellFormed_of_site (h : o.site s = .ok site) : site.IsWellFormed := by
  obtain ⟨hown, hparams, hparent, hkind, -⟩ := site_eq_ok_iff.mp h
  refine ⟨?_, name_of_constructor hparent, name_of_other hparent, ?_, fun p hp => ?_⟩
  · rw [hkind]
    exact kind_eq_method_iff hparent
  · rw [hkind]
    exact ownName_eq_none hown
  · obtain ⟨n, -, hn⟩ := exists_mem_of_forall₂ (mapM_eq_ok_iff.mp hparams) hp
    exact Param.isWellFormed_of_ofNode hn

end Occurrence

theorem Site.paramNames_eq {site : Site} {c : Configuration} {v : Violation}
    (h : site.verdict c = .violation v) : v.paramNames = site.offending.map Param.label := by
  by_cases hconforms : site.Conforms c
  · rw [verdict_of_conforms hconforms] at h
    cases h
  · rw [verdict_of_not_conforms hconforms] at h
    cases h
    rfl

/-- The sites that are read from a tree are well formed. What is reported of a parameter that
offends is the text of its pattern, and a placeholder exactly if a default stands on a rest pattern
or on `this`. -/
theorem Occurrence.site_fields_fit {s : Source} {root : Node} {o : Occurrence}
    (ho : o ∈ root.occurrences) {site : Site} (h : o.site s = .ok site) :
    o.node.kind = .function site.kind ∧ site.IsWellFormed ∧
      List.Forall₂ (fun n p => ¬ p.isAllowed → p.IsCalled s n) o.paramNodes site.params ∧
      ∀ c v, site.verdict c = .violation v → v.paramNames = site.offending.map Param.label := by
  obtain ⟨-, hparams, -, hkind, -⟩ := site_eq_ok_iff.mp h
  refine ⟨?_, isWellFormed_of_site h, ?_, fun c v => Site.paramNames_eq⟩
  · have htrue : ∀ v ∈ [Visit.mk root []], True := fun _ _ => trivial
    rw [hkind]
    exact (Visit.forall_mem_walk (fun _ _ _ _ => trivial) [⟨root, []⟩] htrue o ho).1
  · exact (mapM_eq_ok_iff.mp hparams).imp fun n p hp => Param.isCalled_of_ofNode hp

namespace Occurrence

/-- A constructor with two defaults, one of them on a rest pattern. -/
def strayChars : List Char := "constructor(a = 1, ...b = 2)".toList

def strayTree : Node where
  kind := .classBody
  start := 0
  stop := 28
  children :=
    [{ kind := .function .methodDefinition, start := 0, stop := 28
       children :=
        [{ kind := .propertyIdentifier, field := some .name, start := 0, stop := 11 },
         { kind := .other "formal_parameters", field := some .parameters, start := 11, stop := 28
           children :=
            [{ kind := .assignmentPattern, start := 12, stop := 17
               children :=
                [{ kind := .identifier, field := some .left, start := 12, stop := 13 }] },
             { kind := .assignmentPattern, start := 19, stop := 27
               children :=
                [{ kind := .restPattern, field := some .left, start := 19, stop := 23 }] }] }] }]

theorem site_fields_fit_strayTree :
    ∃ o ∈ strayTree.occurrences, ∃ site, o.site (.ofChars strayChars) = .ok site ∧
      site.parent.kind = .constructor ∧ site.IsWellFormed ∧
      List.Forall₂ (fun n p => ¬ p.isAllowed → p.IsCalled (.ofChars strayChars) n) o.paramNodes
        site.params ∧
      ∀ c v, site.verdict c = .violation v →
        v.paramNames = [Text.ofString "a", Text.ofString "param"] := by
  have hfound : ∃ o ∈ strayTree.functions [], ∃ site ∈ (o.site (.ofChars strayChars)).toOption,
      site.parent.kind = .constructor ∧
        site.offending.map Param.label = [Text.ofString "a", Text.ofString "param"] := by
    decide +kernel
  obtain ⟨o, ho, site, hsite, hconstructor, hlabels⟩ := hfound
  rw [← Node.occurrences_eq_functions] at ho
  have hread := eq_ok_of_toOption hsite
  obtain ⟨-, hwell, hcalled, hnames⟩ := site_fields_fit ho hread
  exact ⟨o, ho, site, hread, hconstructor, hwell, hcalled,
    fun c v hv => (hnames c v hv).trans hlabels⟩

end Occurrence

end ParamLint

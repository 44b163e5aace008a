import Mathlib.Tactic.MkIffOfInductiveProp
import ParamLint.Proofs.Descent
import ParamLint.Proofs.SameSite
import ParamLint.Rule.Exemption
import ParamLint.Syntax.Parse

/-!
# Ignored names

Whether a function is exempt, read off the syntax around it. Three reasons are told apart: its key
as a member is ignored, it constructs a class and constructors are ignored, or the name it is bound
to is ignored. Methods have keys and no bound names: the names of functions do not count for them.
-/
namespace ParamLint

def Source.Spells (s : Source) (n : Node) (t : Text) : Prop :=
  ∃ cs, s.text n = .ok cs ∧ t = Text.ofChars cs

namespace Frame

/-- The frame is the nearest one on a way up that is no parenthesis. -/
inductive Encloses (f : Frame) : List Frame → Prop
  | near {above : List Frame} (hf : f.parent.kind ≠ .parenthesizedExpression) :
      Encloses f (f :: above)
  | past {g : Frame} {above : List Frame} (hg : g.parent.kind = .parenthesizedExpression)
      (hf : Encloses f above) : Encloses f (g :: above)

/-- What stands in the frame is the value of a pair with this key. -/
@[mk_iff] structure IsPairValue (f : Frame) (key : Node) : Prop where
  kind : f.parent.kind = .pair
  slot : f.slot = some .value
  key : f.parent.child? .key = some key

@[mk_iff] structure IsFieldValue (f : Frame) (key : Node) : Prop where
  kind : f.parent.kind = .fieldDefinition ∨ f.parent.kind = .publicFieldDefinition
  slot : f.slot = some .value
  key : f.parent.child? .property = some key ∨
    f.parent.child? .property = none ∧ f.parent.child? .name = some key

/-- What stands in the frame is given to this target. -/
@[mk_iff] inductive AssignsTo (f : Frame) (target : Node) : Prop
  | declarator (hkind : f.parent.kind = .variableDeclarator) (hslot : f.slot = some .value)
      (htarget : f.parent.child? .name = some target)
  | assignment
      (hkind : f.parent.kind = .assignmentExpression ∨
        f.parent.kind = .augmentedAssignmentExpression)
      (hslot : f.slot = some .right) (htarget : f.parent.child? .left = some target)

theorem encloses_iff {f : Frame} {above : List Frame} :
    f.Encloses above ↔ (pastParentheses above).head? = some f := by
  constructor
  · intro h
    induction h with
    | near hf => simp [pastParentheses, hf]
    | past hg _ ih => simpa [pastParentheses, hg] using ih
  · intro h
    induction above with
    | nil => simp [pastParentheses] at h
    | cons g above ih =>
      by_cases hg : g.parent.kind = .parenthesizedExpression
      · apply Encloses.past hg
        apply ih
        simpa [pastParentheses, hg] using h
      · have hgf : g = f := by simpa [pastParentheses, hg] using h
        exact hgf ▸ Encloses.near hg

end Frame

namespace Occurrence

/-- The key under which a function is a member: its own if it is a method, else that of the pair or
class field whose value it is, parentheses left out. -/
inductive IsMemberKey (o : Occurrence) (key : Node) : Prop
  | method (hkind : o.kind = .methodDefinition) (hkey : o.node.child? .name = some key)
  | pair {f : Frame} (hkind : o.kind ≠ .methodDefinition) (hf : f.Encloses o.above)
      (hkey : f.IsPairValue key)
  | field {f : Frame} (hkind : o.kind ≠ .methodDefinition) (hf : f.Encloses o.above)
      (hkey : f.IsFieldValue key)

/-- A method directly in a class body that is not static and has the key `constructor`, not as a
computed one. -/
structure IsConstructor (s : Source) (o : Occurrence) : Prop where
  kind : o.kind = .methodDefinition
  inClass : ∃ f above, o.above = f :: above ∧ f.parent.kind = .classBody
  notStatic : ∀ m ∈ o.node.children, m.kind ≠ .staticMark
  key : ∃ key, o.node.child? .name = some key ∧ key.kind ≠ .computedPropertyName ∧
    Key.name s key = .ok (some (Text.ofString "constructor"))

/-- The identifier by which a function names itself. Arrow functions have none, and the name of a
method is its key. -/
structure IsOwnIdentifier (o : Occurrence) (n : Node) : Prop where
  notMethod : o.kind ≠ .methodDefinition
  notArrow : o.kind ≠ .arrowFunction
  name : o.node.child? .name = some n
  kind : n.kind = .identifier

/-- The name a function is bound to: its own, else that of the variable it is given to or of the
pair whose value it is, parentheses left out. -/
inductive IsBoundTo (s : Source) (o : Occurrence) (t : Text) : Prop
  | own {n : Node} (hn : o.IsOwnIdentifier n) (ht : s.Spells n t)
  | target {f : Frame} {n : Node} (hown : ∀ m, ¬ o.IsOwnIdentifier m) (hf : f.Encloses o.above)
      (hn : f.AssignsTo n) (hkind : n.kind = .identifier) (ht : s.Spells n t)
  | pair {f : Frame} {key : Node} (hown : ∀ m, ¬ o.IsOwnIdentifier m) (hf : f.Encloses o.above)
      (hkey : f.IsPairValue key) (ht : Key.name s key = .ok (some t))

/-- The function is ignored by its key, as a constructor, or by the name it is bound to. -/
def IsIgnored (s : Source) (c : Configuration) (o : Occurrence) : Prop :=
  (∃ key t, o.IsMemberKey key ∧ Key.name s key = .ok (some t) ∧ t ∈ c.methodNames) ∨
  (o.IsConstructor s ∧ c.constructors) ∨
  (o.kind ≠ .methodDefinition ∧ ∃ t, o.IsBoundTo s t ∧ t ∈ c.functionNames)

end Occurrence

/-! What is read for a site, and the syntax it is read from -/

theorem Source.keyName_eq_some_iff {s : Source} {key? : Option Node} {name : Option Text}
    (h : s.keyName key? = .ok name) {t : Text} :
    name = some t ↔ ∃ key, key? = some key ∧ Key.name s key = .ok (some t) := by
  cases key? with
  | none =>
    rw [Source.keyName, Except.ok.injEq] at h
    simp [← h]
  | some key =>
    rw [Source.keyName] at h
    simp [h]

theorem Source.identifierName_cases {s : Source} {n? : Option Node} {name : Option Text}
    (h : s.identifierName n? = .ok name) :
    (∃ n cs, n? = some n ∧ n.kind = .identifier ∧ s.text n = .ok cs ∧
      name = some (Text.ofChars cs)) ∨
    (∀ n, n? = some n → n.kind ≠ .identifier) ∧ name = none := by
  cases n? with
  | none =>
    rw [Source.identifierName, Except.ok.injEq] at h
    exact .inr ⟨by simp, h.symm⟩
  | some n =>
    rw [Source.identifierName] at h
    by_cases hkind : n.kind = .identifier
    · rw [if_pos hkind] at h
      cases htext : s.text n with
      | error e => simp [htext, Except.map] at h
      | ok cs =>
        rw [htext, Except.map, Except.ok.injEq] at h
        exact .inl ⟨n, cs, rfl, hkind, htext, h.symm⟩
    · rw [if_neg hkind, Except.ok.injEq] at h
      exact .inr ⟨by simpa using hkind, h.symm⟩

theorem Source.identifierName_eq_some_iff {s : Source} {n? : Option Node} {name : Option Text}
    (h : s.identifierName n? = .ok name) {t : Text} :
    name = some t ↔ ∃ n, n? = some n ∧ n.kind = .identifier ∧ s.Spells n t := by
  rcases Source.identifierName_cases h with ⟨n, cs, rfl, hkind, htext, rfl⟩ | ⟨hnone, rfl⟩
  · simp [hkind, Source.Spells, htext, eq_comm]
  · simp only [reduceCtorEq, false_iff]
    rintro ⟨n, hn, hkind, -⟩
    exact hnone n hn hkind

theorem Frame.role_cases {s : Source} {f : Frame} {p : Parent} (h : f.role s = .ok p) :
    (f.parent.kind = .pair ∧ f.slot = some .value ∧ p.kind = .propertyValue ∧
      s.keyName (f.parent.child? .key) = .ok p.name) ∨
    ((f.parent.kind = .fieldDefinition ∨ f.parent.kind = .publicFieldDefinition) ∧
      f.slot = some .value ∧ p.kind = .classProperty ∧
      s.keyName ((f.parent.child? .property).or (f.parent.child? .name)) = .ok p.name) ∨
    (f.parent.kind = .variableDeclarator ∧ f.slot = some .value ∧ p.kind = .variableDeclarator ∧
      s.identifierName (f.parent.child? .name) = .ok p.name) ∨
    ((f.parent.kind = .assignmentExpression ∨ f.parent.kind = .augmentedAssignmentExpression) ∧
      f.slot = some .right ∧ p.kind = .assignment ∧
      s.identifierName (f.parent.child? .left) = .ok p.name) ∨
    ((∀ key, ¬ f.IsPairValue key) ∧ (∀ key, ¬ f.IsFieldValue key) ∧ (∀ n, ¬ f.AssignsTo n) ∧
      p = ⟨.other, none⟩) := by
  have hread : ∀ {kind : ParentKind} {name : Except ReadError (Option Text)},
      (do return ⟨kind, ← name⟩ : Except ReadError Parent) = .ok p →
        p.kind = kind ∧ name = .ok p.name := by
    intro kind name hp
    cases name with
    | error e => cases hp
    | ok name =>
      cases hp
      exact ⟨rfl, rfl⟩
  unfold Frame.role at h
  split at h
  · rename_i hkind hslot
    exact .inl ⟨hkind, hslot, hread h⟩
  · rename_i hkind hslot
    exact .inr (.inl ⟨.inl hkind, hslot, hread h⟩)
  · rename_i hkind hslot
    exact .inr (.inl ⟨.inr hkind, hslot, hread h⟩)
  · rename_i hkind hslot
    exact .inr (.inr (.inl ⟨hkind, hslot, hread h⟩))
  · rename_i hkind hslot
    exact .inr (.inr (.inr (.inl ⟨.inl hkind, hslot, hread h⟩)))
  · rename_i hkind hslot
    exact .inr (.inr (.inr (.inl ⟨.inr hkind, hslot, hread h⟩)))
  · rename_i hpair hfield hpublic hdeclarator hassignment haugmented
    refine .inr (.inr (.inr (.inr ⟨?_, ?_, ?_, (Except.ok.inj h).symm⟩)))
    · intro key hkey
      exact hpair hkey.kind hkey.slot
    · intro key hkey
      exact hkey.kind.elim (hfield · hkey.slot) (hpublic · hkey.slot)
    · rintro n (⟨hkind, hslot, -⟩ | ⟨hkind, hslot, -⟩)
      · exact hdeclarator hkind hslot
      · exact hkind.elim (hassignment · hslot) (haugmented · hslot)

namespace Frame

variable {s : Source} {f : Frame} {p : Parent} {t : Text}

theorem Encloses.unique {g : Frame} {above : List Frame} (hf : f.Encloses above)
    (hg : g.Encloses above) : f = g := by
  rw [encloses_iff] at hf hg
  exact Option.some.inj (hf.symm.trans hg)

theorem propertyValue_iff (h : f.role s = .ok p) :
    p.kind = .propertyValue ∧ p.name = some t ↔
      ∃ key, f.IsPairValue key ∧ Key.name s key = .ok (some t) := by
  rcases role_cases h with ⟨hkind, hslot, hp, hname⟩ | ⟨hkind, hslot, hp, -⟩ |
    ⟨hkind, hslot, hp, -⟩ | ⟨hkind, hslot, hp, -⟩ | ⟨hnone, -, -, rfl⟩
  · simp [hp, Source.keyName_eq_some_iff hname, isPairValue_iff, hkind, hslot]
  · rcases hkind with hkind | hkind <;> simp [hp, isPairValue_iff, hkind]
  · simp [hp, isPairValue_iff, hkind]
  · rcases hkind with hkind | hkind <;> simp [hp, isPairValue_iff, hkind]
  · simp [hnone]

theorem classProperty_iff (h : f.role s = .ok p) :
    p.kind = .classProperty ∧ p.name = some t ↔
      ∃ key, f.IsFieldValue key ∧ Key.name s key = .ok (some t) := by
  rcases role_cases h with ⟨hkind, hslot, hp, -⟩ | ⟨hkind, hslot, hp, hname⟩ |
    ⟨hkind, hslot, hp, -⟩ | ⟨hkind, hslot, hp, -⟩ | ⟨-, hnone, -, rfl⟩
  · simp [hp, isFieldValue_iff, hkind]
  · simp only [hp, true_and, Source.keyName_eq_some_iff hname, isFieldValue_iff, hkind, hslot,
      Option.or_eq_some_iff]
  · simp [hp, isFieldValue_iff, hkind]
  · rcases hkind with hkind | hkind <;> simp [hp, isFieldValue_iff, hkind]
  · simp [hnone]

theorem target_iff (h : f.role s = .ok p) :
    (p.kind = .variableDeclarator ∨ p.kind = .assignment) ∧ p.name = some t ↔
      ∃ n, f.AssignsTo n ∧ n.kind = .identifier ∧ s.Spells n t := by
  rcases role_cases h with ⟨hkind, hslot, hp, -⟩ | ⟨hkind, hslot, hp, -⟩ |
    ⟨hkind, hslot, hp, hname⟩ | ⟨hkind, hslot, hp, hname⟩ | ⟨-, -, hnone, rfl⟩
  · simp [hp, assignsTo_iff, hkind]
  · rcases hkind with hkind | hkind <;> simp [hp, assignsTo_iff, hkind]
  · simp [hp, Source.identifierName_eq_some_iff hname, assignsTo_iff, hkind, hslot]
  · rcases hkind with hkind | hkind <;>
      simp [hp, Source.identifierName_eq_some_iff hname, assignsTo_iff, hkind, hslot]
  · simp [hnone]

theorem kind_of_role (h : f.role s = .ok p) : p.kind ≠ .constructor ∧ p.kind ≠ .method := by
  rcases role_cases h with ⟨-, -, hp, -⟩ | ⟨-, -, hp, -⟩ | ⟨-, -, hp, -⟩ | ⟨-, -, hp, -⟩ |
    ⟨-, -, -, hp⟩
  all_goals simp [hp]

end Frame

namespace Occurrence

variable {s : Source} {c : Configuration} {o : Occurrence} {p : Parent} {site : Site}

theorem site_eq_ok (h : o.site s = .ok site) :
    o.ownName s = .ok site.ownName ∧ o.parent s = .ok site.parent := by
  obtain ⟨hown, -, hparent, -⟩ := site_eq_ok_iff.mp h
  exact ⟨hown, hparent⟩

theorem mayConstruct_iff : o.mayConstruct ↔
    (∃ f above, o.above = f :: above ∧ f.parent.kind = .classBody) ∧
    (∀ m ∈ o.node.children, m.kind ≠ .staticMark) ∧
    ∃ key, o.node.child? .name = some key ∧ key.kind ≠ .computedPropertyName := by
  cases habove : o.above <;> cases hkey : o.node.child? .name <;>
    simp [mayConstruct, habove, hkey, and_assoc]

theorem methodParent_cases (hkind : o.kind = .methodDefinition) (h : o.methodParent s = .ok p) :
    s.keyName (o.node.child? .name) = .ok p.name ∧
      (p.kind = .constructor ∧ o.IsConstructor s ∨ p.kind = .method ∧ ¬ o.IsConstructor s) := by
  unfold methodParent at h
  cases hkey : s.keyName (o.node.child? .name) with
  | error e => simp [hkey, bind, Except.bind] at h
  | ok name =>
    simp only [hkey, bind, Except.bind] at h
    have hname : name = some (Text.ofString "constructor") ↔ ∃ key,
        o.node.child? .name = some key ∧
          Key.name s key = .ok (some (Text.ofString "constructor")) :=
      Source.keyName_eq_some_iff hkey
    split at h
    · rename_i hconstructs
      cases h
      rw [Bool.and_eq_true, decide_eq_true_eq, mayConstruct_iff, hname] at hconstructs
      obtain ⟨⟨hclass, hstatic, key, hkey, hcomputed⟩, key', hkey', hresolves⟩ := hconstructs
      rw [hkey, Option.some.injEq] at hkey'
      subst key'
      exact ⟨rfl, .inl ⟨rfl, hkind, hclass, hstatic, key, hkey, hcomputed, hresolves⟩⟩
    · rename_i hconstructs
      cases h
      refine ⟨rfl, .inr ⟨rfl, fun hc => hconstructs ?_⟩⟩
      obtain ⟨key, hkey, hcomputed, hresolves⟩ := hc.key
      rw [Bool.and_eq_true, decide_eq_true_eq, mayConstruct_iff, hname]
      exact ⟨⟨hc.inClass, hc.notStatic, key, hkey, hcomputed⟩, key, hkey, hresolves⟩

theorem parent_cases (h : o.parent s = .ok p) :
    o.kind = .methodDefinition ∧ o.methodParent s = .ok p ∨
    o.kind ≠ .methodDefinition ∧ (∃ f : Frame, f.Encloses o.above ∧ f.role s = .ok p) ∨
    o.kind ≠ .methodDefinition ∧ (∀ f : Frame, ¬ f.Encloses o.above) ∧ p = ⟨.other, none⟩ := by
  unfold Occurrence.parent at h
  split at h
  · rename_i hkind
    exact .inl ⟨hkind, h⟩
  · rename_i hkind
    split at h
    · rename_i habove
      refine .inr (.inr ⟨hkind, fun f hf => ?_, (Except.ok.inj h).symm⟩)
      rw [Frame.encloses_iff, habove] at hf
      cases hf
    · rename_i f rest habove
      refine .inr (.inl ⟨hkind, f, ?_, h⟩)
      rw [Frame.encloses_iff, habove]
      rfl

theorem isMemberKey_iff_of_method (hkind : o.kind = .methodDefinition) {key : Node} :
    o.IsMemberKey key ↔ o.node.child? .name = some key := by
  constructor
  · rintro (⟨-, hkey⟩ | ⟨hmethod, -, -⟩ | ⟨hmethod, -, -⟩)
    · exact hkey
    · exact absurd hkind hmethod
    · exact absurd hkind hmethod
  · exact .method hkind

theorem isMemberKey_iff_of_encloses (hkind : o.kind ≠ .methodDefinition) {f : Frame}
    (hf : f.Encloses o.above) {key : Node} :
    o.IsMemberKey key ↔ f.IsPairValue key ∨ f.IsFieldValue key := by
  constructor
  · rintro (⟨hmethod, -⟩ | ⟨-, hg, hkey⟩ | ⟨-, hg, hkey⟩)
    · exact absurd hmethod hkind
    · exact .inl (hf.unique hg ▸ hkey)
    · exact .inr (hf.unique hg ▸ hkey)
  · rintro (hkey | hkey)
    · exact .pair hkind hf hkey
    · exact .field hkind hf hkey

theorem isMember_iff (h : o.parent s = .ok p) {t : Text} :
    p.kind.isMember ∧ p.name = some t ↔
      ∃ key, o.IsMemberKey key ∧ Key.name s key = .ok (some t) := by
  rcases parent_cases h with ⟨hkind, hp⟩ | ⟨hkind, f, hf, hp⟩ | ⟨hkind, hnone, rfl⟩
  · obtain ⟨hname, hrole⟩ := methodParent_cases hkind hp
    have hmember : p.kind.isMember := by
      rcases hrole with ⟨hrole, -⟩ | ⟨hrole, -⟩ <;> rw [hrole] <;> rfl
    simp only [hmember, true_and, Source.keyName_eq_some_iff hname,
      isMemberKey_iff_of_method hkind]
  · have hmember : p.kind.isMember ↔ p.kind = .propertyValue ∨ p.kind = .classProperty := by
      have hmethod := Frame.kind_of_role hp
      cases hrole : p.kind <;> simp_all [ParentKind.isMember]
    rw [hmember, or_and_right, Frame.propertyValue_iff hp, Frame.classProperty_iff hp]
    simp only [isMemberKey_iff_of_encloses hkind hf, or_and_right, exists_or]
  · simp only [ParentKind.isMember, Bool.false_eq_true, false_and, false_iff]
    rintro ⟨key, ⟨hmethod, -⟩ | ⟨-, hf, -⟩ | ⟨-, hf, -⟩, -⟩
    · exact hkind hmethod
    · exact hnone _ hf
    · exact hnone _ hf

theorem constructor_iff (h : o.parent s = .ok p) : p.kind = .constructor ↔ o.IsConstructor s := by
  rcases parent_cases h with ⟨hkind, hp⟩ | ⟨hkind, f, hf, hp⟩ | ⟨hkind, hnone, rfl⟩
  · rcases (methodParent_cases hkind hp).2 with ⟨hrole, hc⟩ | ⟨hrole, hc⟩
    · simp [hrole, hc]
    · simp [hrole, hc]
  · have hmethod := Frame.kind_of_role hp
    exact ⟨fun hrole => absurd hrole hmethod.1, fun hc => absurd hc.kind hkind⟩
  · simp only [reduceCtorEq, false_iff]
    exact fun hc => hkind hc.kind

theorem ownName_cases {name : Option Text} (h : o.ownName s = .ok name) :
    (∃ n cs, o.IsOwnIdentifier n ∧ s.text n = .ok cs ∧ name = some (Text.ofChars cs)) ∨
    (∀ n, ¬ o.IsOwnIdentifier n) ∧ name = none := by
  unfold ownName at h
  split at h
  · rename_i hkind
    exact .inr ⟨fun n hn => hn.notMethod hkind, (Except.ok.inj h).symm⟩
  · rename_i hkind
    exact .inr ⟨fun n hn => hn.notArrow hkind, (Except.ok.inj h).symm⟩
  · rename_i hmethod harrow
    rcases Source.identifierName_cases h with ⟨n, cs, hn, hkind, htext, rfl⟩ | ⟨hnone, rfl⟩
    · exact .inl ⟨n, cs, ⟨hmethod, harrow, hn, hkind⟩, htext, rfl⟩
    · exact .inr ⟨fun n hn => hnone n hn.name hn.kind, rfl⟩

theorem isBoundTo_iff_of_own {n : Node} {cs : List Char} (hn : o.IsOwnIdentifier n)
    (htext : s.text n = .ok cs) {t : Text} : o.IsBoundTo s t ↔ t = Text.ofChars cs := by
  constructor
  · rintro (⟨hm, cs', hcs', rfl⟩ | ⟨hown, -, -, -, -⟩ | ⟨hown, -, -, -⟩)
    · have heq := hm.name.symm.trans hn.name
      cases heq
      rw [htext, Except.ok.injEq] at hcs'
      rw [hcs']
    · exact absurd hn (hown n)
    · exact absurd hn (hown n)
  · rintro rfl
    exact .own hn ⟨cs, htext, rfl⟩

theorem isBoundTo_iff_of_encloses (hown : ∀ n, ¬ o.IsOwnIdentifier n) {f : Frame}
    (hf : f.Encloses o.above) {t : Text} :
    o.IsBoundTo s t ↔ (∃ n, f.AssignsTo n ∧ n.kind = .identifier ∧ s.Spells n t) ∨
      ∃ key, f.IsPairValue key ∧ Key.name s key = .ok (some t) := by
  constructor
  · rintro (⟨hn, -⟩ | ⟨-, hg, hn, hkind, ht⟩ | ⟨-, hg, hkey, ht⟩)
    · exact absurd hn (hown _)
    · exact .inl ⟨_, hf.unique hg ▸ hn, hkind, ht⟩
    · exact .inr ⟨_, hf.unique hg ▸ hkey, ht⟩
  · rintro (⟨n, hn, hkind, ht⟩ | ⟨key, hkey, ht⟩)
    · exact .target hown hf hn hkind ht
    · exact .pair hown hf hkey ht

theorem isBoundTo_iff {name : Option Text} (hname : o.ownName s = .ok name)
    (hparent : o.parent s = .ok p) {t : Text} :
    (name = some t ∨ name = none ∧
      ((p.kind = .variableDeclarator ∨ p.kind = .assignment) ∧ p.name = some t ∨
        p.kind = .propertyValue ∧ p.name = some t)) ↔
      o.kind ≠ .methodDefinition ∧ o.IsBoundTo s t := by
  rcases ownName_cases hname with ⟨n, cs, hn, htext, rfl⟩ | ⟨hown, rfl⟩
  · simp [isBoundTo_iff_of_own hn htext, hn.notMethod, eq_comm]
  · simp only [reduceCtorEq, false_or, true_and]
    rcases parent_cases hparent with ⟨hkind, hp⟩ | ⟨hkind, f, hf, hp⟩ | ⟨hkind, hnone, rfl⟩
    · rcases (methodParent_cases hkind hp).2 with ⟨hrole, -⟩ | ⟨hrole, -⟩ <;> simp [hrole, hkind]
    · rw [Frame.target_iff hp, Frame.propertyValue_iff hp, isBoundTo_iff_of_encloses hown hf]
      simp [hkind]
    · simp only [reduceCtorEq, or_self, and_self, false_iff]
      rintro ⟨-, ⟨hn, -⟩ | ⟨-, hf, -, -, -⟩ | ⟨-, hf, -, -⟩⟩
      · exact hown _ hn
      · exact hnone _ hf
      · exact hnone _ hf

end Occurrence

theorem Site.isExempt_iff {site : Site} {c : Configuration} : site.isExempt c ↔
    (∃ t, (site.parent.kind.isMember ∧ site.parent.name = some t) ∧ t ∈ c.methodNames) ∨
    (site.parent.kind = .constructor ∧ c.constructors) ∨
    ∃ t, (site.ownName = some t ∨ site.ownName = none ∧
      ((site.parent.kind = .variableDeclarator ∨ site.parent.kind = .assignment) ∧
          site.parent.name = some t ∨
        site.parent.kind = .propertyValue ∧ site.parent.name = some t)) ∧
      t ∈ c.functionNames := by
  have hconstructor : site.parent.kind = .constructor → site.parent.kind.isMember := by
    intro h
    rw [h]
    rfl
  simp only [Site.isExempt, Exemption.all, List.any_cons, List.any_nil, Bool.or_false,
    Bool.or_eq_true, Exemption.applies, Exemption.namedBy, Site.isAnonymous, Bool.and_eq_true,
    decide_eq_true_eq, Option.any_eq_true, Option.isNone_iff_eq_none]
  grind

namespace Occurrence

variable {s : Source} {c : Configuration} {o : Occurrence} {site : Site}

theorem isExempt_iff_isIgnored (h : o.site s = .ok site) :
    site.isExempt c ↔ o.IsIgnored s c := by
  obtain ⟨hown, hparent⟩ := site_eq_ok h
  rw [Site.isExempt_iff, IsIgnored]
  apply or_congr
  · simp only [isMember_iff hparent]
    constructor
    · rintro ⟨t, ⟨key, hkey, ht⟩, hmem⟩
      exact ⟨key, t, hkey, ht, hmem⟩
    · rintro ⟨key, t, hkey, ht, hmem⟩
      exact ⟨t, ⟨key, hkey, ht⟩, hmem⟩
  apply or_congr
  · rw [constructor_iff hparent]
  · simp only [isBoundTo_iff hown hparent, and_assoc, exists_and_left]

/-- The function is the value of a class field, parentheses left out. -/
def InClassField (o : Occurrence) : Prop :=
  ∃ f : Frame, f.Encloses o.above ∧ f.slot = some .value ∧
    (f.parent.kind = .fieldDefinition ∨ f.parent.kind = .publicFieldDefinition)

theorem not_isBoundTo_of_inClassField (h : o.InClassField) (hown : ∀ n, ¬ o.IsOwnIdentifier n)
    (t : Text) : ¬ o.IsBoundTo s t := by
  obtain ⟨f, hf, -, hkind⟩ := h
  rw [isBoundTo_iff_of_encloses hown hf]
  rcases hkind with hkind | hkind <;> simp [Frame.assignsTo_iff, Frame.isPairValue_iff, hkind]

/-- The names of functions do not count for a method, nor for a function that has its name from a
class field only. -/
theorem isIgnored_congr {names : List Text} (h : o.site s = .ok site)
    (hkey : o.kind = .methodDefinition ∨ o.InClassField ∧ site.ownName = none) :
    o.IsIgnored s { c with functionNames := names } ↔ o.IsIgnored s c := by
  have hunbound : ∀ names : List Text,
      ¬ (o.kind ≠ .methodDefinition ∧ ∃ t, o.IsBoundTo s t ∧ t ∈ names) := by
    rintro names ⟨hkind, t, ht, -⟩
    rcases hkey with hmethod | ⟨hfield, hnone⟩
    · exact hkind hmethod
    · have hown : ∀ n, ¬ o.IsOwnIdentifier n := by
        rcases ownName_cases (site_eq_ok h).1 with ⟨n, cs, -, -, hsome⟩ | ⟨hown, -⟩
        · rw [hnone] at hsome
          cases hsome
        · exact hown
      exact not_isBoundTo_of_inClassField hfield hown t ht
  simp only [IsIgnored, hunbound, or_false]

end Occurrence

/-- A function with a site is exempt exactly if it is ignored by its key, as a constructor or by the
name it is bound to. The names of functions do not count for methods and for the keys of class
fields. Every function of a tree over a source has a site, unless its key overflows. -/
theorem Node.exempt_iff_ignored_by_syntax {root : Node} {path : List Nat} {o : Occurrence}
    (ho : root.functionAt? path = some o) (s : Source) (c : Configuration) :
    (∀ site, o.site s = .ok site → (site.isExempt c ↔ o.IsIgnored s c)) ∧
    (∀ site, o.site s = .ok site →
      o.kind = .methodDefinition ∨ o.InClassField ∧ site.ownName = none →
        ∀ names, site.isExempt { c with functionNames := names } = site.isExempt c) ∧
    ∀ cs, s = .ofChars cs → root.OnBoundaries cs →
      (¬ o.KeyOverflows s → ∃ site, o.site s = .ok site) ∧
      (o.KeyOverflows s → o.site s = .error .overflow) := by
  refine ⟨fun site hsite => ?_, fun site hsite hkey names => ?_, ?_⟩
  · exact Occurrence.isExempt_iff_isIgnored hsite
  · rw [Bool.eq_iff_iff, Occurrence.isExempt_iff_isIgnored hsite,
      Occurrence.isExempt_iff_isIgnored hsite]
    exact Occurrence.isIgnored_congr hsite hkey
  · rintro cs rfl hroot
    have hsite := Occurrence.overflowsIff_site (Node.onBoundaries_of_functionAt? hroot ho)
    exact ⟨hsite.reads, hsite.fails⟩

namespace Node

/-- A method, the value of a class field, and the value of a pair in parentheses. -/
def ignoredSource : List Char :=
  "class A \x7b run(a, b) \x7b\x7d f = (a, b) => a \x7d\n".toList ++
    "g = \x7b h: (function (a, b) \x7b\x7d) \x7d".toList

def unnamedKeySource : List Char :=
  "(\x7b'\\u\x7bFFFFFFFF\x7d': function legacy(a, b) \x7b\x7d\x7d)".toList

def ignoringNames : Configuration :=
  { functionNames := ["legacy", "h"].map Text.ofString, methodNames := [Text.ofString "run"] }

theorem exempt_iff_ignored_samples :
    (∃ root, Syntax.parse .javascript ignoredSource = some root ∧
      (root.functions []).length = 3 ∧ ∀ o ∈ root.functions [], ∃ site,
        o.site (.ofChars ignoredSource) = .ok site ∧
          (site.isExempt ignoringNames ↔ o.IsIgnored (.ofChars ignoredSource) ignoringNames)) ∧
    ∃ root, Syntax.parse .javascript unnamedKeySource = some root ∧ ∃ o ∈ root.functions [],
      o.IsIgnored (.ofChars unnamedKeySource) ignoringNames ∧
        o.site (.ofChars unnamedKeySource) = .error .overflow := by
  constructor
  · have hkeys : ∃ root ∈ Syntax.parse .javascript ignoredSource, (root.functions []).length = 3 ∧
        ∀ o ∈ root.functions [], ¬ o.KeyOverflows (.ofChars ignoredSource) := by decide +kernel
    obtain ⟨root, hparse, hlength, hreadable⟩ := hkeys
    refine ⟨root, hparse, hlength, fun o ho => ?_⟩
    obtain ⟨path, hpath⟩ :=
      exists_functionAt?_of_mem_occurrences (occurrences_eq_functions root ▸ ho)
    obtain ⟨hexempt, -, hsite⟩ :=
      exempt_iff_ignored_by_syntax hpath (.ofChars ignoredSource) ignoringNames
    have hroot := Syntax.keepsBoundaries_parse _ _ _ hparse
    obtain ⟨site, hsite⟩ := (hsite _ rfl hroot).1 (hreadable o ho)
    exact ⟨site, hsite, hexempt site hsite⟩
  · have hkeys : ∃ root ∈ Syntax.parse .javascript unnamedKeySource, ∃ o ∈ root.functions [],
        o.KeyOverflows (.ofChars unnamedKeySource) ∧
          (o.ownName (.ofChars unnamedKeySource)).toOption =
            some (some (Text.ofString "legacy")) := by decide +kernel
    obtain ⟨root, hparse, o, ho, hoverflows, hown⟩ := hkeys
    obtain ⟨path, hpath⟩ :=
      exists_functionAt?_of_mem_occurrences (occurrences_eq_functions root ▸ ho)
    obtain ⟨-, -, hsite⟩ :=
      exempt_iff_ignored_by_syntax hpath (.ofChars unnamedKeySource) ignoringNames
    refine ⟨root, hparse, o, ho, .inr (.inr ?_),
      (hsite _ rfl (Syntax.keepsBoundaries_parse _ _ _ hparse)).2 hoverflows⟩
    have hname : o.ownName (.ofChars unnamedKeySource) = .ok (some (Text.ofString "legacy")) := by
      cases h : o.ownName (.ofChars unnamedKeySource) with
      | error e => simp [h, Except.toOption] at hown
      | ok name => simpa [h, Except.toOption] using hown
    rcases Occurrence.ownName_cases hname with ⟨n, cs, hn, htext, hlegacy⟩ | ⟨-, hnone⟩
    · refine ⟨hn.notMethod, _, .own hn ⟨cs, htext, rfl⟩, ?_⟩
      rw [← Option.some.inj hlegacy]
      decide
    · cases hnone

end Node

end ParamLint

import ParamLint.Proofs.Pointwise
import ParamLint.Site.OfTree

/-!
# What a site depends on

Two functions have the same site if their own parts read the same and the frames above them give the
same roles. Of a frame only its role counts, and whether it is a parenthesis or a class body.
-/
namespace ParamLint

namespace Frame

structure SameRole (f f' : Frame) : Prop where
  parenthesis : f'.parent.kind = .parenthesizedExpression ↔
    f.parent.kind = .parenthesizedExpression
  classBody : f'.parent.kind = .classBody ↔ f.parent.kind = .classBody
  role : ∀ s, f'.role s = f.role s

/-- The names around a function are looked at only where it stands under `value` or `right`. -/
theorem role_congr {s : Source} {f f' : Frame} (hkind : f'.parent.kind = f.parent.kind)
    (hslot : f'.slot = f.slot)
    (hkey : f.slot = some .value →
      s.keyName (f'.parent.child? .key) = s.keyName (f.parent.child? .key))
    (hfield : f.slot = some .value →
      s.keyName ((f'.parent.child? .property).or (f'.parent.child? .name)) =
        s.keyName ((f.parent.child? .property).or (f.parent.child? .name)))
    (hname : f.slot = some .value →
      s.identifierName (f'.parent.child? .name) = s.identifierName (f.parent.child? .name))
    (hleft : f.slot = some .right →
      s.identifierName (f'.parent.child? .left) = s.identifierName (f.parent.child? .left)) :
    f'.role s = f.role s := by
  unfold role
  rw [hkind, hslot]
  split <;> simp_all

theorem pastParentheses_sameRole {above above' : List Frame}
    (h : List.Forall₂ SameRole above above') :
    List.Forall₂ SameRole (pastParentheses above) (pastParentheses above') := by
  induction h with
  | nil => exact .nil
  | @cons f f' above above' hf hrest ih =>
    by_cases hparenthesis : f.parent.kind = .parenthesizedExpression
    · have hparenthesis' := hf.parenthesis.mpr hparenthesis
      simpa [pastParentheses, hparenthesis, hparenthesis'] using ih
    · have hparenthesis' := mt hf.parenthesis.mp hparenthesis
      simpa [pastParentheses, hparenthesis, hparenthesis'] using List.Forall₂.cons hf hrest

end Frame

/-- The parameters in a parameter list: what is named in it, comments and decorators apart. -/
def Node.listedParams (list : Node) : List Node :=
  list.namedChildren.filter fun n => n.kind ≠ .comment && n.kind ≠ .decorator

namespace Occurrence

variable {s : Source} {o o' : Occurrence}

theorem paramNodes_of_single {single : Node} (hkind : o.kind = .arrowFunction)
    (hsingle : o.node.child? .parameter = some single) : o.paramNodes = [single] := by
  rw [paramNodes, hkind, hsingle]

theorem paramNodes_of_list (h : o.kind = .arrowFunction → o.node.child? .parameter = none) :
    o.paramNodes = (o.node.child? .parameters).elim [] Node.listedParams := by
  rw [paramNodes]
  cases o.node.child? .parameters with
  | _ =>
    dsimp only
    split
    · rename_i hkind hsingle
      simp [h hkind] at hsingle
    · rfl

theorem methodParent_congr (habove : List.Forall₂ Frame.SameRole o.above o'.above)
    (hstatic : (o'.node.children.any fun n => n.kind = .staticMark) =
      o.node.children.any fun n => n.kind = .staticMark)
    (hcomputed : ((o'.node.child? .name).any fun n => n.kind ≠ .computedPropertyName) =
      (o.node.child? .name).any fun n => n.kind ≠ .computedPropertyName)
    (hkey : s.keyName (o'.node.child? .name) = s.keyName (o.node.child? .name)) :
    o'.methodParent s = o.methodParent s := by
  have hclass : (o'.above.head?.any fun f => f.parent.kind = .classBody) =
      o.above.head?.any fun f => f.parent.kind = .classBody := by
    generalize o.above = above at habove ⊢
    generalize o'.above = above' at habove ⊢
    cases habove with
    | nil => rfl
    | cons hf _ => simp [hf.classBody]
  have hconstruct : o'.mayConstruct = o.mayConstruct := by
    rw [mayConstruct, mayConstruct, hclass, hstatic, hcomputed]
  rw [methodParent, methodParent, hkey, hconstruct]

theorem parent_congr (hkind : o'.kind = o.kind)
    (habove : List.Forall₂ Frame.SameRole o.above o'.above)
    (hmethod : o.kind = .methodDefinition → o'.methodParent s = o.methodParent s) :
    o'.parent s = o.parent s := by
  unfold parent
  rw [hkind]
  split
  · rename_i hkind
    exact hmethod hkind
  · have hpast := Frame.pastParentheses_sameRole habove
    generalize Frame.pastParentheses o.above = past at hpast ⊢
    generalize Frame.pastParentheses o'.above = past' at hpast ⊢
    cases hpast with
    | nil => rfl
    | cons hf _ => exact hf.role s

theorem site_eq_ok_iff {site : Site} : o.site s = .ok site ↔
    o.ownName s = .ok site.ownName ∧ o.paramNodes.mapM (Param.ofNode s) = .ok site.params ∧
      o.parent s = .ok site.parent ∧ site.kind = o.kind ∧
      site.location = s.location o.node.start := by
  simp only [Occurrence.site, bind_eq_ok_iff]
  constructor
  · rintro ⟨own, hown, params, hparams, parent, hparent, hsite⟩
    cases hsite
    exact ⟨hown, hparams, hparent, rfl, rfl⟩
  · rintro ⟨hown, hparams, hparent, hkind, hlocation⟩
    refine ⟨_, hown, _, hparams, _, hparent, ?_⟩
    rw [← hkind, ← hlocation]
    rfl

theorem site_congr (hkind : o'.kind = o.kind) (hstart : o'.node.start = o.node.start)
    (hown : o'.ownName s = o.ownName s)
    (hparams : o'.paramNodes.mapM (Param.ofNode s) = o.paramNodes.mapM (Param.ofNode s))
    (hparent : o'.parent s = o.parent s) : o'.site s = o.site s := by
  rw [site, site, hkind, hstart, hown, hparams, hparent]

end Occurrence

end ParamLint

import Mathlib.Data.Option.Defs
import ParamLint.Proofs.DocumentOrder
import ParamLint.Proofs.Pointwise
import ParamLint.Proofs.SameSite
import ParamLint.Run.Source

/-!
# Comments

Comments may stand anywhere: among parameters, between the parts of a string, in computed keys, in
class bodies and in parentheses. Two trees that differ in comments only have the same functions, one
by one, and each of them has the same site in both.
-/
namespace ParamLint

theorem head?_of_forall₂ {α : Type} {r : α → α → Prop} {l l' : List α} (h : List.Forall₂ r l l') :
    Option.Rel r l.head? l'.head? := by
  cases h with
  | nil => exact .none
  | cons hr _ => exact .some hr

theorem isSome_of_rel {α : Type} {r : α → α → Prop} {a a' : Option α} (h : Option.Rel r a a') :
    a'.isSome = a.isSome := by
  cases h with
  | some _ => rfl
  | none => rfl

theorem or_of_rel {α : Type} {r : α → α → Prop} {a a' b b' : Option α} (ha : Option.Rel r a a')
    (hb : Option.Rel r b b') : Option.Rel r (a.or b) (a'.or b') := by
  cases ha with
  | some h => exact .some h
  | none => exact hb

namespace Node

/-- Nodes in a row, and the same nodes with comments put in between them and at any depth inside
them. -/
inductive Interspersed : List Node → List Node → Prop
  | nil : Interspersed [] []
  | comment (start stop : Nat) {l l' : List Node} (h : Interspersed l l') :
      Interspersed l ({ kind := .comment, start, stop } :: l')
  | node {n : Node} {children l l' : List Node} (hn : Interspersed n.children children)
      (h : Interspersed l l') : Interspersed (n :: l) ({ n with children } :: l')

/-- A node, and the same node with comments put in anywhere inside it. -/
def Commented (n n' : Node) : Prop :=
  ∃ children, Interspersed n.children children ∧ n' = { n with children }

theorem Interspersed.filter {l l' : List Node} (h : Interspersed l l') {p : Node → Bool}
    (hcomment : ∀ start stop, p { kind := .comment, start, stop } = false)
    (hp : ∀ (n : Node) (children : List Node), p { n with children } = p n) :
    List.Forall₂ Commented (l.filter p) (l'.filter p) := by
  induction h with
  | nil => exact .nil
  | comment start stop _ ih => rwa [List.filter_cons, hcomment]
  | @node n children l l' hn _ _ ih =>
    rw [List.filter_cons, List.filter_cons, hp]
    split
    · exact .cons ⟨children, hn, rfl⟩ ih
    · exact ih

theorem Interspersed.any {l l' : List Node} (h : Interspersed l l') {p : Node → Bool}
    (hcomment : ∀ start stop, p { kind := .comment, start, stop } = false)
    (hp : ∀ (n : Node) (children : List Node), p { n with children } = p n) :
    l'.any p = l.any p := by
  induction h with
  | nil => rfl
  | comment start stop _ ih => rw [List.any_cons, hcomment, ih, Bool.false_or]
  | node _ _ _ ih => rw [List.any_cons, List.any_cons, hp, ih]

theorem Commented.kind_eq {n n' : Node} (h : n.Commented n') : n'.kind = n.kind := by
  obtain ⟨_, -, rfl⟩ := h
  rfl

theorem Commented.child? {n n' : Node} (h : n.Commented n') (f : Field) :
    Option.Rel Commented (n.child? f) (n'.child? f) := by
  obtain ⟨children, hchildren, rfl⟩ := h
  have hmatch : List.Forall₂ Commented (n.children.filter (·.field = some f))
      (children.filter (·.field = some f)) :=
    hchildren.filter (fun _ _ => rfl) fun _ _ => rfl
  rw [Node.child?, Node.child?, ← List.head?_filter, ← List.head?_filter]
  exact head?_of_forall₂ hmatch

theorem Commented.listedParams {n n' : Node} (h : n.Commented n') :
    List.Forall₂ Commented n.listedParams n'.listedParams := by
  obtain ⟨children, hchildren, rfl⟩ := h
  rw [Node.listedParams, Node.listedParams, namedChildren, namedChildren, List.filter_filter,
    List.filter_filter]
  exact hchildren.filter (fun _ _ => rfl) fun _ _ => rfl

end Node

section Names

variable {s : Source} {n n' : Node}

def Key.partsText (s : Source) (parts : List Node) : Except ReadError Text :=
  (parts.mapM (Key.stringPart s)).map List.flatten

theorem Key.partsText_cons (part : Node) (parts : List Node) :
    Key.partsText s (part :: parts) =
      Key.stringPart s part >>= fun t => (Key.partsText s parts).map (t ++ ·) := by
  rw [Key.partsText, List.mapM_cons]
  cases Key.stringPart s part with
  | error e => rfl
  | ok t =>
    rw [Key.partsText]
    cases parts.mapM (Key.stringPart s) with
    | error e => rfl
    | ok ts => rfl

/-- A comment between the parts of a string adds nothing to it. -/
theorem Key.partsText_interspersed {l l' : List Node} (h : Node.Interspersed l l') :
    Key.partsText s (l'.filter (·.isNamed)) = Key.partsText s (l.filter (·.isNamed)) := by
  induction h with
  | nil => rfl
  | @comment start stop l l' _ ih =>
    rw [List.filter_cons, if_pos rfl, Key.partsText_cons, ih]
    cases Key.partsText s (l.filter (·.isNamed)) with
    | error e => rfl
    | ok t => rfl
  | @node n children l l' _ _ _ ih =>
    rw [List.filter_cons, List.filter_cons]
    cases n.isNamed with
    | false => exact ih
    | true =>
      rw [if_pos rfl, if_pos rfl, Key.partsText_cons, Key.partsText_cons, ih]
      rfl

theorem Key.stringValue_eq (s : Source) (n : Node) :
    Key.stringValue s n = (Key.partsText s n.namedChildren).map Text.joinSurrogates := by
  rw [Key.stringValue, Key.partsText]
  cases n.namedChildren.mapM (Key.stringPart s) with
  | error e => rfl
  | ok ts => rfl

theorem Key.literalValue_commented (h : n.Commented n') :
    Key.literalValue s n' = Key.literalValue s n := by
  have hstring : Key.stringValue s n' = Key.stringValue s n := by
    obtain ⟨children, hchildren, rfl⟩ := h
    rw [Key.stringValue_eq, Key.stringValue_eq]
    exact congrArg _ (Key.partsText_interspersed hchildren)
  obtain ⟨children, -, rfl⟩ := h
  unfold Key.literalValue
  rw [hstring]
  rfl

theorem Key.name_commented (h : n.Commented n') : Key.name s n' = Key.name s n := by
  have hliteral := Key.literalValue_commented (s := s) h
  obtain ⟨children, hchildren, rfl⟩ := h
  have hinner : List.Forall₂ Node.Commented (n.namedChildren.filter (·.kind ≠ .comment))
      ((Node.namedChildren { n with children }).filter (·.kind ≠ .comment)) := by
    rw [Node.namedChildren, Node.namedChildren, List.filter_filter, List.filter_filter]
    exact hchildren.filter (fun _ _ => rfl) fun _ _ => rfl
  unfold Key.name
  rw [hliteral]
  generalize n.namedChildren.filter (·.kind ≠ .comment) = inner at hinner ⊢
  generalize (Node.namedChildren { n with children }).filter (·.kind ≠ .comment) = inner'
    at hinner ⊢
  cases hinner with
  | nil => rfl
  | @cons m m' _ _ hm hrest =>
    cases hrest with
    | nil =>
      have hvalue := Key.literalValue_commented (s := s) hm
      obtain ⟨_, -, rfl⟩ := hm
      simp only [hvalue]
      rfl
    | cons _ _ => rfl

theorem Source.keyName_commented {key? key?' : Option Node}
    (h : Option.Rel Node.Commented key? key?') : s.keyName key?' = s.keyName key? := by
  cases h with
  | some hkey => exact Key.name_commented hkey
  | none => rfl

theorem Source.identifierName_commented {n? n?' : Option Node}
    (h : Option.Rel Node.Commented n? n?') : s.identifierName n?' = s.identifierName n? := by
  cases h with
  | some hn =>
    obtain ⟨_, -, rfl⟩ := hn
    rfl
  | none => rfl

theorem Param.ofNode_commented (h : n.Commented n') : Param.ofNode s n' = Param.ofNode s n := by
  have hpattern := h.child? .pattern
  have hvalue := isSome_of_rel (h.child? .value)
  have hleft := h.child? .left
  obtain ⟨children, -, rfl⟩ := h
  unfold Param.ofNode
  rw [hvalue]
  generalize n.child? .pattern = pattern? at hpattern ⊢
  generalize Node.child? { n with children } .pattern = pattern?' at hpattern ⊢
  generalize n.child? .left = left? at hleft ⊢
  generalize Node.child? { n with children } .left = left?' at hleft ⊢
  cases hpattern with
  | none =>
    cases hleft with
    | none => rfl
    | some hl =>
      obtain ⟨_, -, rfl⟩ := hl
      rfl
  | some hp =>
    obtain ⟨_, -, rfl⟩ := hp
    cases hleft with
    | none => rfl
    | some hl =>
      obtain ⟨_, -, rfl⟩ := hl
      rfl

end Names

structure Frame.Commented (f f' : Frame) : Prop where
  parent : f.parent.Commented f'.parent
  slot : f'.slot = f.slot

theorem Frame.Commented.sameRole {f f' : Frame} (h : f.Commented f') : f.SameRole f' := by
  have hkind : f'.parent.kind = f.parent.kind := h.parent.kind_eq
  refine ⟨by rw [hkind], by rw [hkind], fun s => ?_⟩
  apply Frame.role_congr hkind h.slot
  · intro _
    exact Source.keyName_commented (h.parent.child? .key)
  · intro _
    exact Source.keyName_commented (or_of_rel (h.parent.child? .property) (h.parent.child? .name))
  · intro _
    exact Source.identifierName_commented (h.parent.child? .name)
  · intro _
    exact Source.identifierName_commented (h.parent.child? .left)

structure Occurrence.Commented (o o' : Occurrence) : Prop where
  kind : o'.kind = o.kind
  node : o.node.Commented o'.node
  above : List.Forall₂ Frame.Commented o.above o'.above

namespace Occurrence

variable {s : Source} {o o' : Occurrence}

theorem Commented.ownName (h : o.Commented o') : o'.ownName s = o.ownName s := by
  have hname := Source.identifierName_commented (s := s) (h.node.child? .name)
  unfold Occurrence.ownName
  rw [h.kind, hname]

theorem Commented.paramNodes (h : o.Commented o') :
    List.Forall₂ Node.Commented o.paramNodes o'.paramNodes := by
  have hlisted : List.Forall₂ Node.Commented
      ((o.node.child? .parameters).elim [] Node.listedParams)
      ((o'.node.child? .parameters).elim [] Node.listedParams) := by
    have hlist := h.node.child? .parameters
    generalize o.node.child? .parameters = list? at hlist ⊢
    generalize o'.node.child? .parameters = list?' at hlist ⊢
    cases hlist with
    | none => exact .nil
    | some hlist => exact hlist.listedParams
  have hsingle := h.node.child? .parameter
  generalize hnode : o.node.child? .parameter = single? at hsingle
  generalize hnode' : o'.node.child? .parameter = single?' at hsingle
  cases hsingle with
  | none =>
    rw [paramNodes_of_list fun _ => hnode, paramNodes_of_list fun _ => hnode']
    exact hlisted
  | some hsingle =>
    by_cases hkind : o.kind = .arrowFunction
    · have hkind' : o'.kind = .arrowFunction := h.kind.trans hkind
      rw [paramNodes_of_single hkind hnode, paramNodes_of_single hkind' hnode']
      exact .cons hsingle .nil
    · have hkind' : o'.kind ≠ .arrowFunction := h.kind ▸ hkind
      rw [paramNodes_of_list (absurd · hkind), paramNodes_of_list (absurd · hkind')]
      exact hlisted

theorem Commented.methodParent (h : o.Commented o') : o'.methodParent s = o.methodParent s := by
  have hname := h.node.child? .name
  apply methodParent_congr
  · exact h.above.imp fun _ _ => Frame.Commented.sameRole
  · obtain ⟨children, hchildren, hnode⟩ := h.node
    rw [hnode]
    exact hchildren.any (fun _ _ => rfl) fun _ _ => rfl
  · generalize o.node.child? .name = key? at hname ⊢
    generalize o'.node.child? .name = key?' at hname ⊢
    cases hname with
    | none => rfl
    | some hkey => simp [hkey.kind_eq]
  · exact Source.keyName_commented hname

theorem Commented.site (h : o.Commented o') : o'.site s = o.site s := by
  have habove : List.Forall₂ Frame.SameRole o.above o'.above :=
    h.above.imp fun _ _ => Frame.Commented.sameRole
  apply site_congr h.kind
  · obtain ⟨_, -, hnode⟩ := h.node
    rw [hnode]
  · exact h.ownName
  · exact mapM_eq_of_forall₂ (fun _ _ h => Param.ofNode_commented h) h.paramNodes
  · exact parent_congr h.kind habove fun _ => h.methodParent

end Occurrence

namespace Node

theorem Commented.asFunction {n n' : Node} {above above' : List Frame} (h : n.Commented n')
    (habove : List.Forall₂ Frame.Commented above above') :
    List.Forall₂ Occurrence.Commented (n.asFunction above) (n'.asFunction above') := by
  have hkind := h.kind_eq
  unfold Node.asFunction
  rw [hkind]
  split
  · exact .cons ⟨rfl, h, habove⟩ .nil
  · exact .nil

/-- The functions below a node are the same ones, in the same order. -/
theorem Interspersed.functionsIn {l l' : List Node} (h : Interspersed l l')
    {above above' : List Frame} {parent parent' : Node} (taken : List Field)
    (habove : List.Forall₂ Frame.Commented above above') (hparent : parent.Commented parent') :
    List.Forall₂ Occurrence.Commented (functionsIn above parent taken l)
      (functionsIn above' parent' taken l') := by
  induction h generalizing above above' parent parent' taken with
  | nil =>
    rw [Node.functionsIn, Node.functionsIn]
    exact .nil
  | comment start stop _ ih =>
    -- a comment is no function, holds none and takes no field from a later sibling
    have hrest := ih taken habove hparent
    rw [Node.functionsIn, if_pos rfl, functions_eq, Node.functionsIn]
    exact hrest
  | @node n children l l' hn _ ihn ih =>
    have hcommented : n.Commented { n with children } := ⟨children, hn, rfl⟩
    have hrest := ih (n.field.toList ++ taken) habove hparent
    rw [Node.functionsIn, Node.functionsIn]
    refine List.rel_append ?_ hrest
    by_cases hnamed : n.isNamed
    · have hframes : List.Forall₂ Frame.Commented (⟨parent, slotAfter taken n⟩ :: above)
          (⟨parent', slotAfter taken { n with children }⟩ :: above') :=
        .cons ⟨hparent, rfl⟩ habove
      rw [if_pos hnamed, if_pos hnamed, functions_eq, functions_eq]
      exact List.rel_append (hcommented.asFunction hframes) (ihn [] hframes hcommented)
    · rw [if_neg hnamed, if_neg hnamed]
      exact .nil

theorem Commented.occurrences {root root' : Node} (h : root.Commented root') :
    List.Forall₂ Occurrence.Commented root.occurrences root'.occurrences := by
  rw [occurrences_eq_functions, occurrences_eq_functions, functions_eq, functions_eq]
  refine List.rel_append (h.asFunction .nil) ?_
  have hroot := h
  obtain ⟨children, hchildren, rfl⟩ := h
  exact hchildren.functionsIn [] .nil hroot

end Node

theorem Site.map_commented {s : Source} {l l' : List Occurrence}
    (h : List.Forall₂ Occurrence.Commented l l') : l'.map (·.site s) = l.map (·.site s) := by
  induction h with
  | nil => rfl
  | cons ho _ ih => rw [List.map_cons, List.map_cons, ho.site, ih]

theorem Findings.ofOccurrences_commented {s : Source} {l l' : List Occurrence}
    (h : List.Forall₂ Occurrence.Commented l l') (c : Configuration) (path : Text) :
    Findings.ofOccurrences c path s l' = Findings.ofOccurrences c path s l := by
  induction h with
  | nil => rfl
  | cons ho _ ih => rw [Findings.ofOccurrences, Findings.ofOccurrences, ho.site, ih]

namespace Node

/-- Comments are invisible: wherever they are put in a tree, it has the same sites in the same order
and the same findings, and a source that reads as the tree without them has those findings too. -/
theorem comments_are_invisible {root root' : Node} (h : root.Commented root') (s : Source) :
    root'.occurrences.map (·.site s) = root.occurrences.map (·.site s) ∧
    Site.ofTree s root' = Site.ofTree s root ∧
    (∀ c path, Findings.ofTree c path s root' = Findings.ofTree c path s root) ∧
    ∀ (parse : Parser) c (file : FileContext) cs, s = .ofChars cs → file.isExempt = false →
      parse (Path.dialect file.path) cs = some root →
        Findings.ofSource parse c file cs = Findings.ofTree c file.path s root' := by
  have hoccurrences := h.occurrences
  have hfindings : ∀ c path, Findings.ofTree c path s root' = Findings.ofTree c path s root :=
    Findings.ofOccurrences_commented hoccurrences
  refine ⟨Site.map_commented hoccurrences, ?_, hfindings, ?_⟩
  · exact mapM_eq_of_forall₂ (fun _ _ ho => ho.site) hoccurrences
  · rintro parse c file cs rfl hexempt hparse
    rw [hfindings, Findings.ofSource, hexempt, hparse]
    rfl

def memberSource : List Char := "(\x7b['a']: (x, y) => x\x7d)".toList

/-- The pair of `memberSource`, with `between` put into it, its key, the string in that and the list
of parameters. -/
def memberTree (between : List Node) : Node :=
  let text : Node :=
    { kind := .string, start := 3, stop := 6,
      children := between ++ [{ kind := .stringFragment, start := 4, stop := 5 }] }
  let key : Node :=
    { kind := .computedPropertyName, field := some .key, start := 2, stop := 7,
      children := text :: between }
  let params : Node :=
    { kind := .other "formal_parameters", field := some .parameters, start := 9, stop := 15,
      children := [{ kind := .identifier, start := 10, stop := 11 }] ++ between ++
        [{ kind := .identifier, start := 13, stop := 14 }] }
  let arrow : Node :=
    { kind := .function .arrowFunction, field := some .value, start := 9, stop := 20,
      children := [params] }
  { kind := .pair, start := 2, stop := 20, children := between ++ [key] ++ between ++ [arrow] }

def sampleComment : Node := { kind := .comment, start := 8, stop := 8 }

theorem commented_memberTree : (memberTree []).Commented (memberTree [sampleComment]) := by
  refine ⟨_, .comment 8 8 (.node ?key (.comment 8 8 (.node ?arrow .nil))), rfl⟩
  case key => exact .node (.comment 8 8 (.node .nil .nil)) (.comment 8 8 .nil)
  case arrow => exact .node (.node .nil (.comment 8 8 (.node .nil .nil))) .nil

theorem comments_in_memberTree_are_invisible :
    (memberTree []).Commented (memberTree [sampleComment]) ∧
    Site.ofTree (.ofChars memberSource) (memberTree [sampleComment]) =
      Site.ofTree (.ofChars memberSource) (memberTree []) ∧
    ((Site.ofTree (.ofChars memberSource) (memberTree [sampleComment])).toOption.map fun sites =>
        sites.map fun site => (site.parent, site.params.map (·.name))) =
      some [(⟨.propertyValue, some (Text.ofString "a")⟩,
        [some (Text.ofString "x"), some (Text.ofString "y")])] := by
  obtain ⟨-, hsites, -⟩ := comments_are_invisible commented_memberTree (.ofChars memberSource)
  refine ⟨commented_memberTree, hsites, ?_⟩
  rw [hsites, Site.ofTree, occurrences_eq_functions]
  decide +kernel

end Node

end ParamLint

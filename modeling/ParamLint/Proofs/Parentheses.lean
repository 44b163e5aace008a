import ParamLint.Proofs.Retyping

/-!
# Functions in parentheses

A function may be put into any number of parentheses where it stands. What it is there for is looked
up past them, so its site stays what it was.
-/
namespace ParamLint

namespace Frame

theorem pastParentheses_append {frames above : List Frame}
    (h : ∀ f ∈ frames, f.parent.kind = .parenthesizedExpression) :
    pastParentheses (frames ++ above) = pastParentheses above := by
  apply List.dropWhile_append_of_pos
  simpa using h

end Frame

namespace Node

/-- A tree with `new` in the place that a way down leads to. -/
def replaceAt (new : Node) : Node → List Nat → Node
  | _, [] => new
  | n, i :: path => { n with children := n.children.modify i fun m => replaceAt new m path }

/-- `w` is `f` in parentheses, as many as the way from `w` down to `f` has steps. Other children of
the parentheses do not matter, nor does the field of `f` among them. -/
inductive InParentheses (f : Node) : List Nat → Node → Prop
  | bare (field : Option Field) : InParentheses f [] { f with field }
  | parenthesis (before after : List Node) {p inner : Node} {path : List Nat}
      (hkind : p.kind = .parenthesizedExpression) (hp : p.children = before ++ inner :: after)
      (h : InParentheses f path inner) : InParentheses f (before.length :: path) p

variable {above above' : List Frame} {n f w : Node} {path : List Nat}

theorem exists_replaceAt_cons (w : Node) (path : List Nat) {i : Nat} {m : Node}
    (hm : n.children[i]? = some m) :
    ∃ before after, before.length = i ∧ n.children = before ++ m :: after ∧
      replaceAt w n (i :: path) =
        { n with children := before ++ replaceAt w m path :: after } := by
  obtain ⟨hi, rfl⟩ := List.getElem?_eq_some_iff.mp hm
  refine ⟨n.children.take i, n.children.drop (i + 1), by simp [hi.le], by simp, ?_⟩
  rw [replaceAt, List.modify_eq_take_cons_drop hi]

theorem replaceAt_field {v : Visit} (hv : descend above n path = some v)
    (hfield : w.field = v.node.field) : (replaceAt w n path).field = n.field := by
  cases path with
  | nil =>
    rw [descend, Option.some.injEq] at hv
    subst v
    exact hfield
  | cons i path => rfl

theorem exists_descend_replaceAt (habove : List.Forall₂ Frame.SameRole above above') {v : Visit}
    (hv : descend above n path = some v) (hfield : w.field = v.node.field) :
    ∃ above₁, descend above' (replaceAt w n path) path = some ⟨w, above₁⟩ ∧
      List.Forall₂ Frame.SameRole v.above above₁ := by
  induction path generalizing above above' n with
  | nil =>
    rw [descend, Option.some.injEq] at hv
    subst v
    exact ⟨above', rfl, habove⟩
  | cons i path ih =>
    rw [descend, Option.bind_eq_some_iff] at hv
    obtain ⟨m, hm, hv⟩ := hv
    obtain ⟨before, after, rfl, hn, hreplace⟩ := exists_replaceAt_cons w path hm
    have hframe := replaced_sameRole hn (replaceAt_field hv hfield)
    obtain ⟨above₁, hdescend, hsame⟩ := ih (.cons hframe habove) hv
    refine ⟨above₁, ?_, hsame⟩
    have hchild : (before ++ replaceAt w m path :: after)[before.length]? =
        some (replaceAt w m path) := by simp
    rw [hreplace, descend, hchild, Option.bind_some]
    exact hdescend

theorem InParentheses.exists_descend (h : InParentheses f path w) (above : List Frame) :
    ∃ field frames, descend above w path = some ⟨{ f with field }, frames ++ above⟩ ∧
      ∀ a ∈ frames, a.parent.kind = .parenthesizedExpression := by
  induction h generalizing above with
  | bare field => exact ⟨field, [], rfl, by simp⟩
  | @parenthesis before after p inner path hkind hp h ih =>
    have hchild : p.children[before.length]? = some inner := by simp [hp]
    obtain ⟨field, frames, hdescend, hframes⟩ := ih (⟨p, p.slotAt before.length⟩ :: above)
    refine ⟨field, frames ++ [⟨p, p.slotAt before.length⟩], ?_, ?_⟩
    · rw [descend, hchild, Option.bind_some, hdescend, List.append_assoc, List.singleton_append]
    · simpa [or_imp, forall_and, hkind] using hframes

theorem site_of_parenthesized {s : Source} {o : Occurrence} {frames : List Frame}
    (field : Option Field) (hkind : o.kind ≠ .methodDefinition)
    (habove : List.Forall₂ Frame.SameRole o.above above)
    (hframes : ∀ a ∈ frames, a.parent.kind = .parenthesizedExpression) :
    Occurrence.site s ⟨o.kind, { o.node with field }, frames ++ above⟩ = o.site s := by
  have hparent : Occurrence.parent s ⟨o.kind, { o.node with field }, above⟩ = o.parent s :=
    Occurrence.parent_congr rfl habove fun hmethod => absurd hmethod hkind
  refine Occurrence.site_congr rfl rfl rfl rfl ?_
  rw [← hparent, Occurrence.parent, Occurrence.parent, Frame.pastParentheses_append hframes]
  split
  · rename_i hmethod
    exact absurd hmethod hkind
  · rfl

/-- A function that is no method and is put into parentheses where it stands, any number of them, is
the same function with the same site, so the rule says the same about it under every
configuration. -/
theorem site_eq_of_inParentheses {root : Node} {inner : List Nat} {o : Occurrence}
    (ho : root.functionAt? path = some o) (hkind : o.kind ≠ .methodDefinition)
    (hw : InParentheses o.node inner w) (hfield : w.field = o.node.field) :
    ∃ o', (replaceAt w root path).functionAt? (path ++ inner) = some o' ∧
      o'.node = { o.node with field := o'.node.field } ∧ ∀ s, o'.site s = o.site s ∧
        ∀ c, (o'.site s).map (fun site => (site.isExempt c, site.verdict c, site.displayName)) =
          (o.site s).map fun site => (site.isExempt c, site.verdict c, site.displayName) := by
  obtain ⟨hdescend, hnode⟩ := functionAt?_eq_some_iff.mp ho
  obtain ⟨above₁, houter, hsame⟩ := exists_descend_replaceAt .nil hdescend hfield
  obtain ⟨field, frames, hinner, hframes⟩ := hw.exists_descend above₁
  have hsite : ∀ s, Occurrence.site s ⟨o.kind, { o.node with field }, frames ++ above₁⟩ =
      o.site s := fun s => site_of_parenthesized field hkind hsame hframes
  refine ⟨⟨o.kind, { o.node with field }, frames ++ above₁⟩, ?_, rfl, fun s => ⟨hsite s, ?_⟩⟩
  · rw [functionAt?_eq_some_iff, descend_append, houter, Option.bind_some, hinner]
    exact ⟨rfl, hnode⟩
  · intro c
    rw [hsite s]

def arrowSource : List Char := "f = ((x => x))".toList

def arrow (field : Option Field) : Node :=
  { kind := .function .arrowFunction, field, start := 6, stop := 12, children := [
    { kind := .identifier, field := some .parameter, start := 6, stop := 7 }] }

def assignmentOf (value : Node) : Node :=
  { kind := .assignmentExpression, start := 0, stop := 14, children := [
    { kind := .identifier, field := some .left, start := 0, stop := 1 }, value] }

def parenthesisAt (start stop : Nat) (field : Option Field) (inner : Node) : Node :=
  { kind := .parenthesizedExpression, field, start, stop, children := [
    { kind := .other "(", isNamed := false, start, stop := start + 1 }, inner,
    { kind := .other ")", isNamed := false, start := stop - 1, stop }] }

def doubled : Node :=
  parenthesisAt 4 14 (some .right) (parenthesisAt 5 13 none (arrow none))

theorem inParentheses_doubled : InParentheses (arrow (some .right)) [1, 1] doubled :=
  .parenthesis [_] [_] rfl rfl (.parenthesis [_] [_] rfl rfl (.bare none))

/-- An arrow function on the right of an assignment, bare and in two pairs of parentheses. -/
theorem site_eq_of_inParentheses_doubled :
    ∃ o o', (assignmentOf (arrow (some .right))).functionAt? [1] = some o ∧
      o.kind ≠ .methodDefinition ∧ InParentheses o.node [1, 1] doubled ∧
      (assignmentOf doubled).functionAt? [1, 1, 1] = some o' ∧
      (o'.site (.ofChars arrowSource)).toOption =
        some { kind := .arrowFunction, ownName := none, location := ⟨1, 7⟩,
               params := [⟨.plain, some (Text.ofString "x"), ⟨1, 7⟩, none⟩],
               parent := ⟨.assignment, some (Text.ofString "f")⟩ } := by
  obtain ⟨o, ho, hkind, hnode⟩ :
      ∃ o, (assignmentOf (arrow (some .right))).functionAt? [1] = some o ∧
        o.kind ≠ .methodDefinition ∧ o.node = arrow (some .right) := ⟨_, rfl, by decide, rfl⟩
  have hplain : ∀ o ∈ (assignmentOf (arrow (some .right))).functionAt? [1],
      (o.site (.ofChars arrowSource)).toOption =
        some { kind := .arrowFunction, ownName := none, location := ⟨1, 7⟩,
               params := [⟨.plain, some (Text.ofString "x"), ⟨1, 7⟩, none⟩],
               parent := ⟨.assignment, some (Text.ofString "f")⟩ } := by
    decide +kernel
  have hdoubled : InParentheses o.node [1, 1] doubled := hnode ▸ inParentheses_doubled
  have hfield : doubled.field = o.node.field := by
    rw [hnode]
    rfl
  obtain ⟨o', ho', -, hsite⟩ := site_eq_of_inParentheses ho hkind hdoubled hfield
  refine ⟨o, o', ho, hkind, hdoubled, ho', ?_⟩
  rw [(hsite (.ofChars arrowSource)).1]
  exact hplain o ho

end Node

end ParamLint

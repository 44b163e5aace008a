import ParamLint.Syntax.Parameter

/-!
# Targets of assignments

An object or an array in front of an equals sign is a pattern. It is read as an expression first and
turned into a pattern when the sign comes. A name with a default inside an object is good for a
pattern only.
-/
namespace ParamLint.Syntax

variable {src : List Char}

/-- The kinds that the parts of a literal have in a pattern. -/
def patternKind? (k : Kind) : Option Kind :=
  match k with
  | .other "object" => some .objectPattern
  | .other "array" => some .arrayPattern
  | .pair => some (.other "pair_pattern")
  | .assignmentExpression => some .assignmentPattern
  | .other "spread_element" => some .restPattern
  | .other "shorthand_property_identifier" => some (.other "shorthand_property_identifier_pattern")
  | .other "object_assignment_pattern" => some k
  | .objectPattern | .arrayPattern => some k
  | k => if isPlace k then some k else none

/-- The parts of a literal that are patterns themselves. -/
def isTargetPart (parent : Kind) (n : Node) : Bool :=
  n.isNamed && !isComment n &&
    match parent with
    | .pair => n.field = some .value
    | .other "object" | .other "array" | .other "spread_element" => true
    | _ => false

mutual

/-- An expression as the pattern that its text also is. -/
def toPattern : Node → Option Node
  | ⟨kind, isNamed, field, start, stop, children⟩ =>
    match patternKind? kind, targetParts kind children with
    | some kind', some children' => some ⟨kind', isNamed, field, start, stop, children'⟩
    | _, _ => none

def targetParts (parent : Kind) : List Node → Option (List Node)
  | [] => some []
  | n :: rest =>
    match targetParts parent rest with
    | none => none
    | some rest' =>
      if isTargetPart parent n then (toPattern n).map (· :: rest') else some (n :: rest')

end

mutual

/-- A pattern has the extent of the expression, and so have its parts. -/
theorem onBoundaries_toPattern {n pattern : Node} (h : toPattern n = some pattern)
    (hn : n.OnBoundaries src) : pattern.OnBoundaries src := by
  obtain ⟨kind, isNamed, field, start, stop, children⟩ := n
  simp only [toPattern] at h
  split at h
  · next kind' children' _ hparts =>
    cases h
    exact ⟨hn.start, hn.stop, onBoundaries_targetParts hparts fun _ hm => hn.of_mem hm⟩
  · cases h

theorem onBoundaries_targetParts {parent : Kind} {nodes parts : List Node}
    (h : targetParts parent nodes = some parts) (hnodes : ∀ n ∈ nodes, n.OnBoundaries src) :
    ∀ n ∈ parts, n.OnBoundaries src := by
  cases nodes with
  | nil =>
    cases h
    exact hnodes
  | cons n rest =>
    obtain ⟨hn, hrest⟩ := List.forall_mem_cons.mp hnodes
    simp only [targetParts] at h
    split at h
    · cases h
    · next rest' hparts =>
      have hrest' := onBoundaries_targetParts hparts hrest
      split at h
      · obtain ⟨pattern, hpattern, rfl⟩ := Option.map_eq_some_iff.mp h
        exact List.forall_mem_cons.mpr ⟨onBoundaries_toPattern hpattern hn, hrest'⟩
      · cases h
        exact List.forall_mem_cons.mpr ⟨hn, hrest'⟩

end

def treeToPattern (t : Tree src) : Option (Tree src) :=
  (toPattern t.node).pmap Tree.mk fun _ h => onBoundaries_toPattern h t.onBoundaries

/-- What is left of an equals sign: the last tree read, as a pattern, behind its comments. -/
def target? (nodes : Forest src) : Option (Forest src) :=
  match nodes.getLast? with
  | none => none
  | some t =>
    if t.node.kind = .parenthesizedExpression then some nodes
    else
      match t.node.kind with
      | .other "object" | .other "array" =>
        (treeToPattern t).map fun pattern => nodes.dropLast ++ [pattern]
      | k => if isPlace k then some nodes else none

/-- What is left of an operator that assigns. -/
def isAugmentable (k : Kind) : Bool :=
  k = .parenthesizedExpression || isPlace k && k ≠ .undefined

mutual

/-- No object in the tree has a name with a default. -/
def isSettled : Node → Bool
  | ⟨kind, _, _, _, _, children⟩ => areSettled kind children

def areSettled (parent : Kind) : List Node → Bool
  | [] => true
  | n :: rest =>
    !(parent = .other "object" && n.kind = .other "object_assignment_pattern") &&
      isSettled n && areSettled parent rest

end

end ParamLint.Syntax

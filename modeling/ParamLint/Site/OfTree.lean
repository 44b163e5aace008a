import ParamLint.Key.Name
import ParamLint.Site.Basic

/-!
# From trees to sites

Every function of a tree in document order, each with the nodes above it, and the site it makes.
Parentheses around a function do not count as its parent.
-/
namespace ParamLint

/-- A step from a node to one of its children. The slot is the field by which the parent reaches the
child; a child whose field an earlier child has is reached by none. -/
structure Frame where
  parent : Node
  slot : Option Field

/-- A function of a tree and the way down to it, the nearest frame first. -/
structure Occurrence where
  kind : FunctionKind
  node : Node
  above : List Frame

structure Visit where
  node : Node
  above : List Frame

namespace Node

def asFunction (n : Node) (above : List Frame) : List Occurrence :=
  match n.kind with
  | .function kind => [⟨kind, n, above⟩]
  | _ => []

/-- The slot of a child after siblings with the fields `taken`. -/
def slotAfter (taken : List Field) (n : Node) : Option Field := n.field.filter (· ∉ taken)

/-- The named children among `children` of `parent`, in order, that come after siblings with the
fields `taken`. -/
def visits (above : List Frame) (parent : Node) (taken : List Field) : List Node → List Visit
  | [] => []
  | n :: rest =>
    let more := visits above parent (n.field.toList ++ taken) rest
    if n.isNamed then ⟨n, ⟨parent, slotAfter taken n⟩ :: above⟩ :: more else more

mutual

def size : Node → Nat
  | ⟨_, _, _, _, _, children⟩ => sizeIn children + 1

def sizeIn : List Node → Nat
  | [] => 0
  | n :: rest => n.size + sizeIn rest

end

theorem size_eq (n : Node) : n.size = sizeIn n.children + 1 := by
  cases n
  rw [size]

end Node

namespace Visit

/-- What is put on top when a node is left: its named children, the first one uppermost. -/
def below (v : Visit) : List Visit := v.node.visits v.above [] v.node.children

def pending (stack : List Visit) : Nat := stack.foldr (fun v n => v.node.size + n) 0

theorem pending_append (stack more : List Visit) :
    pending (stack ++ more) = pending stack + pending more := by
  induction stack with
  | nil => simp [pending]
  | cons v stack ih =>
    simp only [pending, List.cons_append, List.foldr_cons] at ih ⊢
    omega

theorem pending_visits_le (above : List Frame) (parent : Node) (taken : List Field)
    (children : List Node) :
    pending (Node.visits above parent taken children) ≤ Node.sizeIn children := by
  induction children generalizing taken with
  | nil => simp [Node.visits, Node.sizeIn, pending]
  | cons n rest ih =>
    have hrest := ih (n.field.toList ++ taken)
    simp only [pending] at hrest
    simp only [Node.visits, Node.sizeIn]
    split <;> simp only [pending, List.foldr_cons] <;> omega

theorem pending_below_lt (v : Visit) : pending v.below < v.node.size := by
  rw [Node.size_eq]
  exact Nat.lt_succ_of_le (pending_visits_le v.above v.node [] v.node.children)

/-- The functions in what is still to be visited: the uppermost node is looked at, and its named
children take its place. -/
def walk : List Visit → List Occurrence
  | [] => []
  | v :: stack => v.node.asFunction v.above ++ walk (v.below ++ stack)
termination_by stack => pending stack
decreasing_by
  have h := pending_below_lt v
  rw [pending_append]
  simp only [pending, List.foldr_cons] at h ⊢
  omega

end Visit

def Node.occurrences (root : Node) : List Occurrence := Visit.walk [⟨root, []⟩]

namespace Param

/-- The shape of a pattern, and its text where it has no other name. -/
def shape (s : Source) (n : Node) : Except ReadError (ParamKind × Option Text) :=
  match n.kind with
  | .identifier | .undefined => (s.text n).map fun cs => (.plain, some (Text.ofChars cs))
  | .objectPattern => .ok (.object, none)
  | .arrayPattern => .ok (.array, none)
  | .restPattern => .ok (.rest, none)
  | .this => .ok (.this, none)
  | _ => (s.text n).map fun cs => (.unknown, some (Text.ofChars cs))

/-- A parameter that is no pattern known here, named by its text. -/
def unknown (s : Source) (n : Node) : Except ReadError Param := do
  return ⟨.unknown, some (Text.ofChars (← s.text n)), s.location n.start, none⟩

/-- A pattern, with a default or without, whose parameter starts at `start`. -/
def ofPattern (s : Source) (start : Nat) (pattern : Node) (defaulted : Bool) :
    Except ReadError Param := do
  let (kind, name) ← shape s pattern
  if defaulted then return ⟨.defaulted, name, s.location start, some kind⟩
  else return ⟨kind, name, s.location start, none⟩

/-- One parameter: a bare pattern, a pattern with a default, or a typed parameter around either. -/
def ofNode (s : Source) (n : Node) : Except ReadError Param :=
  match n.kind with
  | .requiredParameter | .optionalParameter =>
    match n.child? .pattern with
    | none => unknown s n
    | some pattern =>
      if pattern.kind = .this then .ok ⟨.this, none, s.location n.start, none⟩
      else ofPattern s n.start pattern (n.child? .value).isSome
  | .assignmentPattern =>
    match n.child? .left with
    | none => unknown s n
    | some left => ofPattern s n.start left true
  | _ => ofPattern s n.start n false

end Param

def Source.identifierName (s : Source) : Option Node → Except ReadError (Option Text)
  | some n =>
    if n.kind = .identifier then (s.text n).map fun cs => some (Text.ofChars cs) else .ok none
  | none => .ok none

def Source.keyName (s : Source) : Option Node → Except ReadError (Option Text)
  | some n => Key.name s n
  | none => .ok none

def Frame.role (s : Source) (f : Frame) : Except ReadError Parent :=
  match f.parent.kind, f.slot with
  | .pair, some .value => do
    return ⟨.propertyValue, ← s.keyName (f.parent.child? .key)⟩
  | .fieldDefinition, some .value | .publicFieldDefinition, some .value => do
    let key := (f.parent.child? .property).or (f.parent.child? .name)
    return ⟨.classProperty, ← s.keyName key⟩
  | .variableDeclarator, some .value => do
    return ⟨.variableDeclarator, ← s.identifierName (f.parent.child? .name)⟩
  | .assignmentExpression, some .right | .augmentedAssignmentExpression, some .right => do
    return ⟨.assignment, ← s.identifierName (f.parent.child? .left)⟩
  | _, _ => .ok ⟨.other, none⟩

/-- The frames above a function, parentheses around it left out. -/
def Frame.pastParentheses (above : List Frame) : List Frame :=
  above.dropWhile fun f => f.parent.kind = .parenthesizedExpression

namespace Occurrence

def paramNodes (o : Occurrence) : List Node :=
  let listed := match o.node.child? .parameters with
    | none => []
    | some list => list.namedChildren.filter fun n => n.kind ≠ .comment && n.kind ≠ .decorator
  match o.kind, o.node.child? .parameter with
  | .arrowFunction, some single => [single]
  | _, _ => listed

/-- The name a function binds itself; methods and arrow functions bind none. -/
def ownName (s : Source) (o : Occurrence) : Except ReadError (Option Text) :=
  match o.kind with
  | .methodDefinition | .arrowFunction => .ok none
  | _ => s.identifierName (o.node.child? .name)

/-- A method stands directly in a class body, is not static, and has a key that is not computed. -/
def mayConstruct (o : Occurrence) : Bool :=
  (o.above.head?.any fun f => f.parent.kind = .classBody) &&
    !(o.node.children.any fun n => n.kind = .staticMark) &&
    (o.node.child? .name).any fun n => n.kind ≠ .computedPropertyName

def methodParent (s : Source) (o : Occurrence) : Except ReadError Parent := do
  let key ← s.keyName (o.node.child? .name)
  if mayConstruct o && key = some (Text.ofString "constructor") then return ⟨.constructor, key⟩
  else return ⟨.method, key⟩

def parent (s : Source) (o : Occurrence) : Except ReadError Parent :=
  match o.kind with
  | .methodDefinition => methodParent s o
  | _ =>
    match Frame.pastParentheses o.above with
    | [] => .ok ⟨.other, none⟩
    | f :: _ => f.role s

def site (s : Source) (o : Occurrence) : Except ReadError Site := do
  let ownName ← o.ownName s
  let params ← o.paramNodes.mapM (Param.ofNode s)
  let parent ← o.parent s
  return ⟨o.kind, ownName, params, parent, s.location o.node.start⟩

end Occurrence

def Site.ofTree (s : Source) (root : Node) : Except ReadError (List Site) :=
  root.occurrences.mapM (·.site s)

end ParamLint

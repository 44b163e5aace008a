import ParamLint.Syntax.Dialect
import ParamLint.Syntax.Node

/-!
# Positions

A position in a source lies between two of its characters: so many bytes are before it, and these
characters come after it. A tree over a source has all its nodes start and stop at positions, so
what is read from a source never cuts a character in two.
-/
namespace ParamLint

def byteLength (cs : List Char) : Nat := cs.foldr (fun c n => c.utf8Size + n) 0

theorem byteLength_append (cs ds : List Char) :
    byteLength (cs ++ ds) = byteLength cs + byteLength ds := by
  induction cs with
  | nil => simp [byteLength]
  | cons c cs ih =>
    simp only [byteLength, List.cons_append, List.foldr_cons] at ih ⊢
    omega

/-- The place after `offset` bytes of a source, with `rest` behind it, cuts no character. -/
def Divides (src : List Char) (offset : Nat) (rest : List Char) : Prop :=
  ∃ before, src = before ++ rest ∧ offset = byteLength before

theorem Divides.drop {src rest : List Char} {offset : Nat} (h : Divides src offset rest) (n : Nat) :
    Divides src (offset + byteLength (rest.take n)) (rest.drop n) := by
  obtain ⟨before, rfl, rfl⟩ := h
  refine ⟨before ++ rest.take n, ?_, ?_⟩
  · rw [List.append_assoc, List.take_append_drop]
  · rw [byteLength_append]

structure Position (src : List Char) where
  offset : Nat
  rest : List Char
  divides : Divides src offset rest

/-- Some position of a source is after so many bytes. -/
def IsBoundary (src : List Char) (offset : Nat) : Prop := ∃ rest, Divides src offset rest

namespace Position

variable {src : List Char}

def start (src : List Char) : Position src := ⟨0, src, [], rfl, rfl⟩

def advance (p : Position src) (n : Nat) : Position src :=
  ⟨p.offset + byteLength (p.rest.take n), p.rest.drop n, p.divides.drop n⟩

theorem isBoundary (p : Position src) : IsBoundary src p.offset := ⟨p.rest, p.divides⟩

end Position

/-- All nodes of a tree start and stop between characters of the source. -/
inductive Node.OnBoundaries (src : List Char) : Node → Prop
  | intro {n : Node} (start : IsBoundary src n.start) (stop : IsBoundary src n.stop)
      (children : ∀ m ∈ n.children, OnBoundaries src m) : OnBoundaries src n

namespace Node.OnBoundaries

variable {src : List Char} {n m : Node}

theorem start (h : n.OnBoundaries src) : IsBoundary src n.start := by
  cases h with
  | intro start _ _ => exact start

theorem stop (h : n.OnBoundaries src) : IsBoundary src n.stop := by
  cases h with
  | intro _ stop _ => exact stop

theorem of_mem (h : n.OnBoundaries src) (hm : m ∈ n.children) : m.OnBoundaries src := by
  cases h with
  | intro _ _ children => exact children m hm

end Node.OnBoundaries

/-- What gives a source its tree in a dialect, and none to a source with syntax errors. -/
abbrev Parser := Dialect → List Char → Option Node

def Parser.KeepsBoundaries (parse : Parser) : Prop :=
  ∀ d cs root, parse d cs = some root → root.OnBoundaries cs

/-- A tree over a source. -/
structure Tree (src : List Char) where
  node : Node
  onBoundaries : node.OnBoundaries src

abbrev Forest (src : List Char) := List (Tree src)

namespace Tree

variable {src : List Char}

theorem onBoundaries_of_mem_map {trees : Forest src} {n : Node}
    (h : n ∈ trees.map Tree.node) : n.OnBoundaries src := by
  obtain ⟨tree, -, rfl⟩ := List.mem_map.mp h
  exact tree.onBoundaries

def token (kind : Kind) (isNamed : Bool) (start stop : Position src) : Tree src where
  node := { kind, isNamed, start := start.offset, stop := stop.offset }
  onBoundaries := ⟨start.isBoundary, stop.isBoundary, fun _ h => nomatch h⟩

def spanning (kind : Kind) (first last : Tree src) (children : Forest src) : Tree src where
  node :=
    { kind, start := first.node.start, stop := last.node.stop
      children := children.map Tree.node }
  onBoundaries :=
    ⟨first.onBoundaries.start, last.onBoundaries.stop, fun _ h => onBoundaries_of_mem_map h⟩

def withKind (t : Tree src) (kind : Kind) : Tree src where
  node := { t.node with kind }
  onBoundaries := ⟨t.onBoundaries.start, t.onBoundaries.stop, fun _ h => t.onBoundaries.of_mem h⟩

/-- The same tree under a field of what it will be part of. -/
def under (t : Tree src) (f : Field) : Tree src where
  node := { t.node with field := some f }
  onBoundaries := ⟨t.onBoundaries.start, t.onBoundaries.stop, fun _ h => t.onBoundaries.of_mem h⟩

end Tree

end ParamLint

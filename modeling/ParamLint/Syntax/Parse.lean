import ParamLint.Syntax.Source
import ParamLint.Syntax.Statement

/-!
# Parsing

The knot that ties the categories of syntax together, and the tree of a whole source. A source that
does not read to its end has no tree.

This parser restates what the tree-sitter grammars of the three dialects do, as far as the rule looks
at their trees. It is one parser that a run can be given: what a run does is proved for all of them,
and that trees start and stop between characters is assumed where it is needed.
-/
namespace ParamLint.Syntax

variable {src : List Char}

def Category.reader : Category → Read src (Forest src)
  | .statement => ParamLint.Syntax.statement
  | .declaration => ParamLint.Syntax.declaration
  | .expression => ParamLint.Syntax.expression
  | .binary level => ParamLint.Syntax.binary level
  | .unary => ParamLint.Syntax.unary
  | .operand => ParamLint.Syntax.operand true
  | .constructed => ParamLint.Syntax.operand false
  | .pattern certain => ParamLint.Syntax.pattern certain
  | .type => fullType
  | .typeOperand => ParamLint.Syntax.typeOperand
  | .markup => element

def readCategory (d : Dialect) (repeats : Nat) :
    Nat → Mode → Category → Cursor src → Option (Forest src × Cursor src)
  | 0, _, _, _ => none
  | n + 1, mode, c, cursor => c.reader ⟨d, mode, repeats, readCategory d repeats n⟩ cursor

def program : Read src (Forest src) := upTo (return (← get).rest.isEmpty) (recur .statement)

/-- Where reading begins: a line for the shell is not part of it. Blanks, with the byte order mark
among them, and comments may come before that line. -/
def start (src : List Char) : Cursor src :=
  let first := Cursor.after true (Position.start src)
  if "#!".toList.isPrefixOf first.rest then
    let line := first.rest.takeWhile (· ≠ '\n')
    let next := Cursor.after true (first.next.advance line.length)
    { next with comments := first.comments ++ next.comments }
  else first

/-- The tree of a source; none where it does not read. -/
def parse (d : Dialect) (src : List Char) : Option Node :=
  let repeats := src.length + 1
  let depth := 12 * (src.length + 2)
  match program ⟨d, ⟨true, true⟩, repeats, readCategory d repeats depth⟩ (start src) with
  | some (nodes, last) =>
    let root : Node :=
      { kind := .other "program", start := 0, stop := byteLength src
        children := (nodes ++ last.comments).map Tree.node }
    if isSettled root then some root else none
  | none => none

/-- A tree that was read starts and stops at positions of the source throughout. -/
theorem keepsBoundaries_parse : Parser.KeepsBoundaries parse := by
  intro d src root h
  simp only [parse] at h
  split at h
  · split at h
    · cases h
      exact ⟨⟨src, [], rfl, rfl⟩, ⟨[], src, (List.append_nil src).symm, rfl⟩,
        fun _ hm => Tree.onBoundaries_of_mem_map hm⟩
    · cases h
  · cases h

end ParamLint.Syntax

import ParamLint.Syntax.Node
import ParamLint.Text.Utf8

/-!
# Sources and locations

A source is the bytes a tree points into. Locations count lines at line feeds and columns in bytes,
both from one.
-/
namespace ParamLint

structure Location where
  line : Nat
  column : Nat
deriving DecidableEq, Inhabited

structure Source where
  bytes : List UInt8

inductive ReadError
  /-- A node covers bytes that are no text. -/
  | undecodable (fault : Utf8.Fault)
  /-- An escape names a code point beyond the numbers that are looked at. -/
  | overflow
deriving DecidableEq

namespace Source

def ofChars (cs : List Char) : Source := ⟨Utf8.encode cs⟩

def location (s : Source) (offset : Nat) : Location :=
  let before := s.bytes.take offset
  { line := before.count 10 + 1
    column := (before.reverse.takeWhile (· ≠ 10)).length + 1 }

def text (s : Source) (n : Node) : Except ReadError (List Char) :=
  (Utf8.decode ((s.bytes.take n.stop).drop n.start)).mapError .undecodable

end Source

end ParamLint

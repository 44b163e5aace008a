import ParamLint.Syntax.Position

/-!
# Cursors

A place between two tokens of a source. It knows the position right after the last token, where line
ends and raw text matter, and the position of the next token, with the comments in between.
-/
namespace ParamLint

structure Cursor (src : List Char) where
  behind : Position src
  comments : Forest src
  next : Position src

namespace Cursor

variable {src : List Char}

def rest (c : Cursor src) : List Char := c.next.rest

def isBlank (c : Char) : Bool :=
  c = ' ' || 0x09 ≤ c.toNat && c.toNat ≤ 0x0d || 0x2000 ≤ c.toNat && c.toNat ≤ 0x200b ||
    c.toNat ∈ [0xa0, 0x1680, 0x2028, 0x2029, 0x202f, 0x205f, 0x2060, 0x3000, 0xfeff]

/-- The line ends of the language, of which only the line feed and the separators end a markup
comment. -/
def isLineSeparator (c : Char) : Bool := c = '\n' || c = '\u2028' || c = '\u2029'

def isLineEnd (c : Char) : Bool := c = '\r' || isLineSeparator c

/-- Where the skipping of blanks and comments is. A comment remembers where it began. -/
inductive Skip
  | between
  | line (start : Nat)
  | block (start : Nat) (opening : List Char)
  | markup (start : Nat)

def commentNode (kind : Kind) (start stop : Nat) : Node := { kind, start, stop }

def markupComment : Kind := .other "html_comment"

/-- Skips blanks and comments from `offset` on: the comments, and what comes after them. A block
that is never closed is no comment. -/
def skip (markup : Bool) : Skip → Nat → List Char → List Node × Nat × List Char
  | .between, o, [] => ([], o, [])
  | .between, o, '/' :: '/' :: rest => skip markup (.line o) (o + 2) rest
  | .between, o, '/' :: '*' :: rest => skip markup (.block o ('/' :: '*' :: rest)) (o + 2) rest
  | .between, o, '<' :: '!' :: '-' :: '-' :: rest =>
    if markup then skip markup (.markup o) (o + 4) rest
    else ([], o, '<' :: '!' :: '-' :: '-' :: rest)
  | .between, o, '-' :: '-' :: '>' :: rest =>
    if markup then skip markup (.markup o) (o + 3) rest else ([], o, '-' :: '-' :: '>' :: rest)
  | .between, o, c :: rest =>
    if isBlank c then skip markup .between (o + c.utf8Size) rest else ([], o, c :: rest)
  | .line s, o, [] => ([commentNode .comment s o], o, [])
  | .line s, o, c :: rest =>
    if isLineEnd c then
      let (more, o', rest') := skip markup .between (o + c.utf8Size) rest
      (commentNode .comment s o :: more, o', rest')
    else skip markup (.line s) (o + c.utf8Size) rest
  | .block s opening, _, [] => ([], s, opening)
  | .block s _, o, '*' :: '/' :: rest =>
    let (more, o', rest') := skip markup .between (o + 2) rest
    (commentNode .comment s (o + 2) :: more, o', rest')
  | .block s opening, o, c :: rest => skip markup (.block s opening) (o + c.utf8Size) rest
  | .markup s, o, [] => ([commentNode markupComment s o], o, [])
  | .markup s, o, c :: rest =>
    if isLineSeparator c then
      let (more, o', rest') := skip markup .between (o + c.utf8Size) rest
      (commentNode markupComment s o :: more, o', rest')
    else skip markup (.markup s) (o + c.utf8Size) rest

/-- What comes after blanks and comments, of which those of markup are none. -/
def pastBlanks (cs : List Char) : List Char := (skip false .between 0 cs).2.2

def Skip.Began (src : List Char) : Skip → Prop
  | .between => True
  | .line start | .markup start => IsBoundary src start
  | .block start opening => Divides src start opening

/-- The comments are over the source, and what comes after them divides it. -/
def Skipped (src : List Char) (r : List Node × Nat × List Char) : Prop :=
  (∀ n ∈ r.1, n.OnBoundaries src) ∧ Divides src r.2.1 r.2.2

theorem Skipped.nil {o : Nat} {cs : List Char} (h : Divides src o cs) : Skipped src ([], o, cs) :=
  ⟨by simp, h⟩

theorem Skipped.cons {kind : Kind} {start stop : Nat} {r : List Node × Nat × List Char}
    (hstart : IsBoundary src start) (hstop : IsBoundary src stop) (h : Skipped src r) :
    Skipped src (commentNode kind start stop :: r.1, r.2) := by
  refine ⟨fun n hn => ?_, h.2⟩
  rcases List.mem_cons.mp hn with rfl | hn
  · exact ⟨hstart, hstop, fun _ hm => nomatch hm⟩
  · exact h.1 n hn

/-- Skipping goes from one position to another, and so does each comment on the way. -/
theorem skipped_skip (markup : Bool) {state : Skip} {o : Nat} {cs : List Char}
    (hstate : state.Began src) (h : Divides src o cs) :
    Skipped src (skip markup state o cs) := by
  fun_induction skip markup state o cs with
  | case1 | case5 | case7 | case9 => exact .nil h
  | case2 o rest ih => exact ih ⟨_, h⟩ (h.drop 2)
  | case3 o rest ih => exact ih h (h.drop 2)
  | case4 o rest _ ih => exact ih ⟨_, h⟩ (h.drop 4)
  | case6 o rest _ ih => exact ih ⟨_, h⟩ (h.drop 3)
  | case8 | case12 | case15 | case18 => rename_i ih; exact ih hstate (h.drop 1)
  | case10 | case16 => exact .cons hstate ⟨_, h⟩ (.nil h)
  | case13 => exact .nil hstate
  | case11 | case17 =>
    rename_i hskip ih
    rw [hskip] at ih
    exact (ih trivial (h.drop 1)).cons hstate ⟨_, h⟩
  | case14 s opening o rest more o' rest' hskip ih =>
    rw [hskip] at ih
    exact (ih trivial (h.drop 2)).cons ⟨_, hstate⟩ ⟨_, h.drop 2⟩

/-- The place after a token. Markup comments count only where `markup` says so. -/
def after (markup : Bool) (p : Position src) : Cursor src :=
  let r := skip markup .between p.offset p.rest
  have h : Skipped src r := skipped_skip markup trivial p.divides
  ⟨p, r.1.pmap Tree.mk h.1, r.2.1, r.2.2, h.2⟩

/-- The next `n` characters as a token: its node after the comments before it, and the place behind.
-/
def token (c : Cursor src) (n : Nat) (kind : Kind) (isNamed : Bool) :
    Forest src × Cursor src :=
  let stop := c.next.advance n
  (c.comments ++ [.token kind isNamed c.next stop], after true stop)

def withoutMarkup (c : Cursor src) : Cursor src := after false c.behind

def withMarkup (c : Cursor src) : Cursor src := after true c.behind

end Cursor

end ParamLint

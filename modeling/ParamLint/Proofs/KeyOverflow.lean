import Mathlib.Tactic.SplitIfs
import ParamLint.Proofs.Boundaries
import ParamLint.Proofs.DocumentOrder

/-!
# Keys that overflow

The one reason for which a function of a well-placed tree has no site: the string that is its key
holds an escape whose number needs more than 32 bits. Everything else that is read for a site is
there, so every function without such a key has one.
-/
namespace ParamLint

/-- A reading that overflows if `p`, and gives something otherwise. -/
structure OverflowsIff {α : Type} (p : Prop) (x : Except ReadError α) : Prop where
  fails : p → x = .error .overflow
  reads : ¬ p → ∃ a, x = .ok a

namespace OverflowsIff

variable {α β : Type} {p : Prop} {x : Except ReadError α}

theorem of_ok (h : ∃ a, x = .ok a) (hp : ¬ p) : OverflowsIff p x :=
  ⟨fun h => absurd h hp, fun _ => h⟩

theorem congr {q : Prop} (h : OverflowsIff p x) (hpq : q ↔ p) : OverflowsIff q x :=
  ⟨fun hq => h.fails (hpq.mp hq), fun hq => h.reads fun hp => hq (hpq.mpr hp)⟩

theorem map (h : OverflowsIff p x) (f : α → β) : OverflowsIff p (x.map f) where
  fails hp := by
    rw [h.fails hp]
    rfl
  reads hp := by
    obtain ⟨a, ha⟩ := h.reads hp
    exact ⟨f a, by rw [ha]; rfl⟩

theorem bind (h : OverflowsIff p x) {f : α → Except ReadError β} (hf : ∀ a, ∃ b, f a = .ok b) :
    OverflowsIff p (x >>= f) where
  fails hp := by
    rw [h.fails hp]
    rfl
  reads hp := by
    obtain ⟨a, ha⟩ := h.reads hp
    obtain ⟨b, hb⟩ := hf a
    exact ⟨b, by rw [ha]; exact hb⟩

theorem bind_ok (hx : ∃ a, x = .ok a) {f : α → Except ReadError β}
    (hf : ∀ a, x = .ok a → OverflowsIff p (f a)) : OverflowsIff p (x >>= f) := by
  obtain ⟨a, ha⟩ := hx
  have h := hf a ha
  rw [ha]
  exact h

theorem mapM {f : α → Except ReadError β} {q : α → Prop} {l : List α}
    (h : ∀ a ∈ l, OverflowsIff (q a) (f a)) : OverflowsIff (∃ a ∈ l, q a) (l.mapM f) := by
  induction l with
  | nil => exact of_ok ⟨[], rfl⟩ (by simp)
  | cons a l ih =>
    have ha := h a List.mem_cons_self
    have hl := ih fun b hb => h b (List.mem_cons_of_mem a hb)
    rw [List.mapM_cons]
    by_cases hq : q a
    · refine ⟨fun _ => ?_, fun hno => absurd ⟨a, List.mem_cons_self, hq⟩ hno⟩
      rw [ha.fails hq]
      rfl
    · refine (bind_ok (ha.reads hq) fun b _ => hl.bind fun bs => ⟨b :: bs, rfl⟩).congr ?_
      simp [hq]

end OverflowsIff

namespace Escape

/-- The number that an escape gives needs more than 32 bits. -/
def IsTooLarge (sequence : List Char) : Prop :=
  ∃ base digits n, numeral? sequence.tail = some (base, digits) ∧
    Integer.read? base digits = some n ∧ (n < -0x80000000 ∨ 0x80000000 ≤ n)

theorem overflowsIff_codePoint (body : List Char) (n : Int) :
    OverflowsIff (n < -0x80000000 ∨ 0x80000000 ≤ n) (codePoint body n) := by
  unfold codePoint
  by_cases hn : n < -0x80000000 ∨ 0x80000000 ≤ n
  · exact ⟨fun _ => if_pos hn, fun h => absurd hn h⟩
  · refine ⟨fun h => absurd h hn, fun _ => ?_⟩
    rw [if_neg hn]
    split
    · exact ⟨_, rfl⟩
    · split <;> exact ⟨_, rfl⟩

/-- The letters that are looked up before numbers are read stand for no number but zero. -/
theorem read?_of_lookup {c d : Char} (h : singles.lookup c = some d) {base : Nat}
    {digits : List Char} (hnumeral : numeral? [c] = some (base, digits)) :
    Integer.read? base digits = some 0 := by
  have hall : ∀ e ∈ singles, (numeral? [e.1]).all (fun m => Integer.read? m.1 m.2 = some 0) := by
    decide
  obtain ⟨before, after, hsingles, -⟩ := List.lookup_eq_some_iff.mp h
  have hmem : (c, d) ∈ singles := by
    rw [hsingles]
    exact List.mem_append_right before List.mem_cons_self
  have hc := hall (c, d) hmem
  rw [hnumeral] at hc
  simpa using hc

theorem numeral?_of_mem_lineContinuations {body : List Char} (h : body ∈ lineContinuations) :
    numeral? body = none := by
  have hall : ∀ body ∈ lineContinuations, numeral? body = none := by decide
  exact hall body h

theorem isTooLarge_iff {sequence : List Char} {base : Nat} {digits : List Char} {n : Int}
    (hnumeral : numeral? sequence.tail = some (base, digits))
    (hread : Integer.read? base digits = some n) :
    IsTooLarge sequence ↔ n < -0x80000000 ∨ 0x80000000 ≤ n := by
  constructor
  · rintro ⟨base', digits', m, hnumeral', hread', hm⟩
    rw [hnumeral, Option.some.injEq, Prod.mk.injEq] at hnumeral'
    obtain ⟨rfl, rfl⟩ := hnumeral'
    rw [hread, Option.some.injEq] at hread'
    subst m
    exact hm
  · intro hn
    exact ⟨base, digits, n, hnumeral, hread, hn⟩

instance (sequence : List Char) : Decidable (IsTooLarge sequence) :=
  match hnumeral : numeral? sequence.tail with
  | none => .isFalse fun ⟨_, _, _, h, _⟩ => by simp [hnumeral] at h
  | some (base, digits) =>
    match hread : Integer.read? base digits with
    | none => .isFalse fun ⟨_, _, _, h, h', _⟩ => by simp_all
    | some _ => decidable_of_iff _ (isTooLarge_iff hnumeral hread).symm

theorem overflowsIff_value (sequence : List Char) :
    OverflowsIff (IsTooLarge sequence) (value sequence) := by
  simp only [value]
  split
  · rename_i c hsingle
    refine .of_ok ⟨_, rfl⟩ ?_
    split at hsingle
    · rename_i d hbody
      rintro ⟨base, digits, n, hnumeral, hread, hn⟩
      rw [hbody] at hnumeral
      rw [read?_of_lookup hsingle hnumeral, Option.some.injEq] at hread
      omega
    · cases hsingle
  · by_cases hline : sequence.tail ∈ lineContinuations
    · rw [if_pos hline]
      refine .of_ok ⟨_, rfl⟩ ?_
      rintro ⟨base, digits, n, hnumeral, -, -⟩
      rw [numeral?_of_mem_lineContinuations hline] at hnumeral
      cases hnumeral
    · rw [if_neg hline]
      split
      · rename_i hnumeral
        exact .of_ok ⟨_, rfl⟩ (by simp [IsTooLarge, hnumeral])
      · rename_i base digits hnumeral
        split
        · rename_i hread
          refine .of_ok ⟨_, rfl⟩ ?_
          rintro ⟨base', digits', n, hnumeral', hread', -⟩
          rw [hnumeral, Option.some.injEq, Prod.mk.injEq] at hnumeral'
          rw [← hnumeral'.1, ← hnumeral'.2, hread] at hread'
          cases hread'
        · rename_i n hread
          exact (overflowsIff_codePoint sequence.tail n).congr (isTooLarge_iff hnumeral hread)

example : IsTooLarge "\\u\x7b80000000\x7d".toList ∧ ¬ IsTooLarge "\\u\x7b7FFFFFFF\x7d".toList := by
  decide +kernel

end Escape

namespace Key

/-- The literal that a key is, or that stands alone between its brackets. -/
def literal? (n : Node) : Option Node :=
  if n.kind = .computedPropertyName then
    match n.namedChildren.filter (·.kind ≠ .comment) with
    | [inner] => if isLiteral inner.kind then some inner else none
    | _ => none
  else if isLiteral n.kind then some n else none

/-- A part of a string is an escape that is too large. -/
def PartOverflows (s : Source) (part : Node) : Prop :=
  part.kind = .escapeSequence ∧ ∃ text, s.text part = .ok text ∧ Escape.IsTooLarge text

instance (s : Source) (part : Node) : Decidable (PartOverflows s part) :=
  match htext : s.text part with
  | .error _ => .isFalse fun ⟨_, _, h, _⟩ => by simp [htext] at h
  | .ok text =>
    decidable_of_iff (part.kind = .escapeSequence ∧ Escape.IsTooLarge text)
      (by simp [PartOverflows, htext])

def LiteralOverflows (s : Source) (n : Node) : Prop :=
  n.kind = .string ∧ ∃ part ∈ n.namedChildren, PartOverflows s part

instance (s : Source) (n : Node) : Decidable (LiteralOverflows s n) :=
  inferInstanceAs (Decidable (n.kind = .string ∧ ∃ part ∈ n.namedChildren, PartOverflows s part))

/-- The key is a string with an escape that is too large. -/
def Overflows (s : Source) (n : Node) : Prop :=
  ∃ literal, literal? n = some literal ∧ LiteralOverflows s literal

instance (s : Source) (n : Node) : Decidable (Overflows s n) :=
  inferInstanceAs (Decidable (∃ literal ∈ literal? n, LiteralOverflows s literal))

variable {cs : List Char} {n : Node}

theorem overflowsIff_stringPart (h : n.OnBoundaries cs) :
    OverflowsIff (PartOverflows (.ofChars cs) n) (stringPart (.ofChars cs) n) := by
  obtain ⟨text, htext⟩ := h.exists_text
  unfold stringPart
  split
  · rename_i hkind
    rw [htext]
    exact .of_ok ⟨_, rfl⟩ (by simp [PartOverflows, hkind])
  · rename_i hkind
    rw [htext]
    exact (Escape.overflowsIff_value text).congr (by simp [PartOverflows, hkind, htext])
  · rename_i hkind
    exact .of_ok ⟨_, rfl⟩ fun hpart => hkind hpart.1

theorem overflowsIff_stringValue (h : n.OnBoundaries cs) :
    OverflowsIff (∃ part ∈ n.namedChildren, PartOverflows (.ofChars cs) part)
      (stringValue (.ofChars cs) n) :=
  (OverflowsIff.mapM fun _ hpart => overflowsIff_stringPart (h.of_mem_named hpart)).bind
    fun _ => ⟨_, rfl⟩

theorem overflowsIff_literalValue (h : n.OnBoundaries cs) :
    OverflowsIff (LiteralOverflows (.ofChars cs) n) (literalValue (.ofChars cs) n) := by
  obtain ⟨text, htext⟩ := h.exists_text
  unfold literalValue
  split
  · rename_i hkind
    exact ((overflowsIff_stringValue h).map some).congr (by simp [LiteralOverflows, hkind])
  · rename_i hkind
    rw [htext]
    exact .of_ok ⟨_, rfl⟩ (by simp [LiteralOverflows, hkind])
  · rename_i hkind
    exact .of_ok ⟨_, rfl⟩ (by simp [LiteralOverflows, hkind])
  · rename_i hkind
    exact .of_ok ⟨_, rfl⟩ (by simp [LiteralOverflows, hkind])
  · rename_i hkind
    exact .of_ok ⟨_, rfl⟩ (by simp [LiteralOverflows, hkind])
  · rename_i hkind _ _ _ _
    exact .of_ok ⟨_, rfl⟩ fun hliteral => hkind hliteral.1

/-- The literal of a key is the key itself, or the one child between its brackets. -/
theorem literal?_cases {literal : Node} (h : literal? n = some literal) :
    isLiteral literal.kind ∧
      (n.kind ≠ .computedPropertyName ∧ literal = n ∨
        n.kind = .computedPropertyName ∧
          n.namedChildren.filter (·.kind ≠ .comment) = [literal]) := by
  unfold literal? at h
  split_ifs at h with hkind hliteral
  · split at h
    · rename_i inner hinner
      split_ifs at h with hliteral
      cases h
      exact ⟨hliteral, .inr ⟨hkind, hinner⟩⟩
    · cases h
  · cases h
    exact ⟨hliteral, .inl ⟨hkind, rfl⟩⟩

theorem onBoundaries_literal {literal : Node} (h : literal? n = some literal)
    (hn : n.OnBoundaries cs) : literal.OnBoundaries cs := by
  obtain ⟨-, ⟨-, rfl⟩ | ⟨-, hinner⟩⟩ := literal?_cases h
  · exact hn
  · have hmem : literal ∈ n.namedChildren.filter (·.kind ≠ .comment) := by
      rw [hinner]
      exact List.mem_singleton_self literal
    exact hn.of_mem_named (List.mem_filter.mp hmem).1

theorem name_of_literal (s : Source) {literal : Node} (h : literal? n = some literal) :
    name s n = literalValue s literal := by
  obtain ⟨hliteral, ⟨hkind, rfl⟩ | ⟨hkind, hinner⟩⟩ := literal?_cases h
  · unfold name
    split <;> simp_all [isLiteral]
  · simp only [name, hkind, hinner, if_pos hliteral]

theorem exists_name_of_no_literal (hn : n.OnBoundaries cs) (h : literal? n = none) :
    ∃ a, name (.ofChars cs) n = .ok a := by
  obtain ⟨text, htext⟩ := hn.exists_text
  unfold literal? at h
  unfold name
  split
  · exact ⟨_, by rw [htext]; rfl⟩
  · exact ⟨_, by rw [htext]; rfl⟩
  · exact ⟨_, by rw [htext]; rfl⟩
  · rename_i hkind
    rw [if_pos hkind] at h
    split
    · rename_i inner hinner
      rw [hinner] at h
      by_cases hliteral : isLiteral inner.kind
      · simp [hliteral] at h
      · exact ⟨_, if_neg hliteral⟩
    · exact ⟨_, rfl⟩
  · rename_i hkind
    rw [if_neg hkind] at h
    by_cases hliteral : isLiteral n.kind
    · simp [hliteral] at h
    · exact ⟨_, if_neg hliteral⟩

theorem overflowsIff_name (h : n.OnBoundaries cs) :
    OverflowsIff (Overflows (.ofChars cs) n) (name (.ofChars cs) n) := by
  cases hliteral : literal? n with
  | none => exact .of_ok (exists_name_of_no_literal h hliteral) (by simp [Overflows, hliteral])
  | some literal =>
    rw [name_of_literal (.ofChars cs) hliteral]
    exact (overflowsIff_literalValue (onBoundaries_literal hliteral h)).congr
      (by simp [Overflows, hliteral])

end Key

section Reading

variable {cs : List Char} {n : Node}

theorem Param.exists_shape (h : n.OnBoundaries cs) :
    ∃ shape, Param.shape (.ofChars cs) n = .ok shape := by
  obtain ⟨text, htext⟩ := h.exists_text
  unfold Param.shape
  split <;> first | exact ⟨_, rfl⟩ | exact ⟨_, by rw [htext]; rfl⟩

theorem Param.exists_unknown (h : n.OnBoundaries cs) :
    ∃ p, Param.unknown (.ofChars cs) n = .ok p := by
  obtain ⟨text, htext⟩ := h.exists_text
  exact ⟨_, by rw [Param.unknown, htext]; rfl⟩

theorem Param.exists_ofPattern (h : n.OnBoundaries cs) (start : Nat) (defaulted : Bool) :
    ∃ p, Param.ofPattern (.ofChars cs) start n defaulted = .ok p := by
  obtain ⟨⟨kind, name⟩, hshape⟩ := Param.exists_shape h
  cases defaulted with
  | false => exact ⟨_, by rw [Param.ofPattern, hshape]; rfl⟩
  | true => exact ⟨_, by rw [Param.ofPattern, hshape]; rfl⟩

theorem Param.exists_ofNode (h : n.OnBoundaries cs) :
    ∃ p, Param.ofNode (.ofChars cs) n = .ok p := by
  unfold Param.ofNode
  split
  · split
    · exact Param.exists_unknown h
    · rename_i pattern hpattern
      split
      · exact ⟨_, rfl⟩
      · exact Param.exists_ofPattern (h.of_child hpattern) _ _
  · split
    · exact Param.exists_unknown h
    · rename_i pattern hpattern
      split
      · exact ⟨_, rfl⟩
      · exact Param.exists_ofPattern (h.of_child hpattern) _ _
  · split
    · exact Param.exists_unknown h
    · rename_i left hleft
      exact Param.exists_ofPattern (h.of_child hleft) _ _
  · exact Param.exists_ofPattern h _ _

theorem Source.exists_identifierName {o : Option Node} (h : ∀ m, o = some m → m.OnBoundaries cs) :
    ∃ name, (Source.ofChars cs).identifierName o = .ok name := by
  cases o with
  | none => exact ⟨_, rfl⟩
  | some m =>
    obtain ⟨text, htext⟩ := (h m rfl).exists_text
    by_cases hkind : m.kind = .identifier
    · exact ⟨_, by rw [Source.identifierName, if_pos hkind, htext]; rfl⟩
    · exact ⟨_, by rw [Source.identifierName, if_neg hkind]⟩

theorem Source.overflowsIff_keyName {o : Option Node} (h : ∀ m, o = some m → m.OnBoundaries cs) :
    OverflowsIff (∃ key, o = some key ∧ Key.Overflows (.ofChars cs) key)
      ((Source.ofChars cs).keyName o) := by
  cases o with
  | none => exact .of_ok ⟨_, rfl⟩ (by simp)
  | some m => exact (Key.overflowsIff_name (h m rfl)).congr (by simp)

end Reading

/-- The key under which a frame holds the function in it, if it is a pair or a field. -/
def Frame.memberKey? (f : Frame) : Option Node :=
  match f.parent.kind, f.slot with
  | .pair, some .value => f.parent.child? .key
  | .fieldDefinition, some .value | .publicFieldDefinition, some .value =>
    (f.parent.child? .property).or (f.parent.child? .name)
  | _, _ => none

theorem Frame.overflowsIff_role {cs : List Char} {f : Frame} (h : f.parent.OnBoundaries cs) :
    OverflowsIff (∃ key, f.memberKey? = some key ∧ Key.Overflows (.ofChars cs) key)
      (f.role (.ofChars cs)) := by
  have hfield : ∀ key, (f.parent.child? .property).or (f.parent.child? .name) = some key →
      key.OnBoundaries cs := by
    intro key hkey
    rcases Option.or_eq_some_iff.mp hkey with hkey | ⟨-, hkey⟩
    · exact h.of_child hkey
    · exact h.of_child hkey
  unfold Frame.role
  split
  · rename_i hkind hslot
    simp only [Frame.memberKey?, hkind, hslot]
    exact (Source.overflowsIff_keyName fun _ hkey => h.of_child hkey).bind fun _ => ⟨_, rfl⟩
  · rename_i hkind hslot
    simp only [Frame.memberKey?, hkind, hslot]
    exact (Source.overflowsIff_keyName hfield).bind fun _ => ⟨_, rfl⟩
  · rename_i hkind hslot
    simp only [Frame.memberKey?, hkind, hslot]
    exact (Source.overflowsIff_keyName hfield).bind fun _ => ⟨_, rfl⟩
  · rename_i hkind hslot
    obtain ⟨name, hname⟩ := Source.exists_identifierName fun _ hm => h.of_child (f := .name) hm
    exact .of_ok ⟨_, by rw [hname]; rfl⟩ (by simp [Frame.memberKey?, hkind])
  · rename_i hkind hslot
    obtain ⟨name, hname⟩ := Source.exists_identifierName fun _ hm => h.of_child (f := .left) hm
    exact .of_ok ⟨_, by rw [hname]; rfl⟩ (by simp [Frame.memberKey?, hkind])
  · rename_i hkind hslot
    obtain ⟨name, hname⟩ := Source.exists_identifierName fun _ hm => h.of_child (f := .left) hm
    exact .of_ok ⟨_, by rw [hname]; rfl⟩ (by simp [Frame.memberKey?, hkind])
  · rename_i hpair hfield hpublic _ _ _
    refine .of_ok ⟨_, rfl⟩ ?_
    rintro ⟨key, hkey, -⟩
    unfold Frame.memberKey? at hkey
    split at hkey
    · rename_i hkind hslot
      exact hpair hkind hslot
    · rename_i hkind hslot
      exact hfield hkind hslot
    · rename_i hkind hslot
      exact hpublic hkind hslot
    · cases hkey

namespace Occurrence

/-- The key under which a function is a member: its own if it is a method, else that of the pair or
the field that it is the value of. -/
def memberKey? (o : Occurrence) : Option Node :=
  match o.kind with
  | .methodDefinition => o.node.child? .name
  | _ => (Frame.pastParentheses o.above).head?.bind Frame.memberKey?

/-- The key of the function is a string with an escape that is too large. -/
def KeyOverflows (s : Source) (o : Occurrence) : Prop :=
  ∃ key, o.memberKey? = some key ∧ Key.Overflows s key

instance (s : Source) (o : Occurrence) : Decidable (o.KeyOverflows s) :=
  inferInstanceAs (Decidable (∃ key ∈ o.memberKey?, Key.Overflows s key))

structure OnBoundaries (cs : List Char) (o : Occurrence) : Prop where
  node : o.node.OnBoundaries cs
  above : ∀ f ∈ o.above, f.parent.OnBoundaries cs

variable {cs : List Char} {o : Occurrence}

theorem mem_paramNodes {n : Node} (hn : n ∈ o.paramNodes) :
    o.node.child? .parameter = some n ∨
      ∃ list, o.node.child? .parameters = some list ∧ n ∈ list.namedChildren := by
  simp only [paramNodes] at hn
  split at hn
  · rename_i single _ hsingle
    rw [List.mem_singleton] at hn
    subst n
    exact .inl hsingle
  · split at hn
    · simp at hn
    · rename_i list hlist
      exact .inr ⟨list, hlist, (List.mem_filter.mp hn).1⟩

theorem OnBoundaries.of_mem_paramNodes (h : o.OnBoundaries cs) {n : Node}
    (hn : n ∈ o.paramNodes) : n.OnBoundaries cs := by
  rcases mem_paramNodes hn with hsingle | ⟨list, hlist, hmem⟩
  · exact h.node.of_child hsingle
  · exact (h.node.of_child hlist).of_mem_named hmem

theorem exists_ownName (h : o.OnBoundaries cs) : ∃ name, o.ownName (.ofChars cs) = .ok name := by
  unfold ownName
  split
  · exact ⟨_, rfl⟩
  · exact ⟨_, rfl⟩
  · exact Source.exists_identifierName fun _ hm => h.node.of_child hm

theorem overflowsIff_methodParent (h : o.OnBoundaries cs) :
    OverflowsIff (∃ key, o.node.child? .name = some key ∧ Key.Overflows (.ofChars cs) key)
      (o.methodParent (.ofChars cs)) := by
  refine (Source.overflowsIff_keyName fun _ hkey => h.node.of_child hkey).bind fun key => ?_
  split <;> exact ⟨_, rfl⟩

theorem overflowsIff_parent (h : o.OnBoundaries cs) :
    OverflowsIff (o.KeyOverflows (.ofChars cs)) (o.parent (.ofChars cs)) := by
  unfold parent
  split
  · rename_i hkind
    exact (overflowsIff_methodParent h).congr (by simp [KeyOverflows, memberKey?, hkind])
  · rename_i hkind
    have hkey : o.memberKey? = (Frame.pastParentheses o.above).head?.bind Frame.memberKey? := by
      unfold memberKey?
      split
      · rename_i hmethod
        exact absurd hmethod hkind
      · rfl
    split
    · rename_i habove
      exact .of_ok ⟨_, rfl⟩ (by simp [KeyOverflows, hkey, habove])
    · rename_i f rest habove
      have hf : f ∈ o.above := by
        have hmem : f ∈ Frame.pastParentheses o.above := by simp [habove]
        exact (List.dropWhile_sublist _).subset hmem
      exact (Frame.overflowsIff_role (h.above f hf)).congr (by simp [KeyOverflows, hkey, habove])

theorem exists_params (h : o.OnBoundaries cs) :
    ∃ params, o.paramNodes.mapM (Param.ofNode (.ofChars cs)) = .ok params := by
  have hmap : OverflowsIff (∃ n ∈ o.paramNodes, False)
      (o.paramNodes.mapM (Param.ofNode (.ofChars cs))) :=
    .mapM fun n hn => .of_ok (Param.exists_ofNode (h.of_mem_paramNodes hn)) not_false
  exact hmap.reads (by simp)

/-- A function in a tree on boundaries has a site unless its key overflows. -/
theorem overflowsIff_site (h : o.OnBoundaries cs) :
    OverflowsIff (o.KeyOverflows (.ofChars cs)) (o.site (.ofChars cs)) := by
  refine .bind_ok (exists_ownName h) fun ownName _ => ?_
  refine .bind_ok (exists_params h) fun params _ => ?_
  exact (overflowsIff_parent h).bind fun parent => ⟨_, rfl⟩

end Occurrence

theorem Node.onBoundaries_of_mem_occurrences {cs : List Char} {root : Node}
    (h : root.OnBoundaries cs) {o : Occurrence} (ho : o ∈ root.occurrences) :
    o.OnBoundaries cs := by
  have hbelow : ∀ v : Visit, v.node.OnBoundaries cs ∧ (∀ f ∈ v.above, f.parent.OnBoundaries cs) →
      ∀ w ∈ v.below, w.node.OnBoundaries cs ∧ ∀ f ∈ w.above, f.parent.OnBoundaries cs := by
    intro v hv w hw
    obtain ⟨⟨hmem, -⟩, slot, habove⟩ := Visit.mem_visits hw
    rw [habove]
    exact ⟨hv.1.of_mem hmem, by simpa using ⟨hv.1, hv.2⟩⟩
  have hwalk := Visit.forall_mem_walk hbelow [⟨root, []⟩] (by simpa using h) o ho
  exact ⟨hwalk.2.1, hwalk.2.2⟩

end ParamLint

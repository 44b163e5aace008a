import ParamLint.Proofs.JsonNumbers

/-!
# JSON values

A text that is read as a value is read as the same value before every rest that cannot belong to it.
-/
namespace ParamLint.Json

/-! Blanks -/

variable {blanks cs rest : List Char}

theorem skipBlanks_append (hblanks : ∀ c ∈ blanks, isBlank c) (hcs : ∀ c ∈ cs.head?, ¬ isBlank c) :
    skipBlanks (blanks ++ cs) = cs := by
  rw [skipBlanks, List.dropWhile_append_of_pos hblanks]
  cases cs with
  | nil => rfl
  | cons c cs => exact List.dropWhile_cons_of_neg (hcs c rfl)

theorem exists_blanks (cs : List Char) :
    ∃ blanks, cs = blanks ++ skipBlanks cs ∧ (∀ c ∈ blanks, isBlank c) ∧
      ∀ c ∈ (skipBlanks cs).head?, ¬ isBlank c := by
  refine ⟨cs.takeWhile isBlank, List.takeWhile_append_dropWhile.symm,
    fun c hc => List.mem_takeWhile_imp hc, fun c hc hblank => ?_⟩
  have hnot := List.head?_dropWhile_not isBlank cs
  rw [show (cs.dropWhile isBlank).head? = some c from hc] at hnot
  simp [hblank] at hnot

/-! What comes before and after a value -/

/-- Nothing here belongs to the value before it. -/
def Closes (rest : List Char) : Prop :=
  ∀ c ∈ rest.head?, isBlank c ∨ c = ',' ∨ c = ']' ∨ c = '\x7d'

/-- Neither a blank nor the end of a list comes first. -/
def Opens (cs : List Char) : Prop := ∀ c ∈ cs.head?, ¬ isBlank c ∧ c ≠ ']'

theorem Closes.endsNumber (h : Closes rest) : EndsNumber rest := by
  intro c hc
  rcases h c hc with hblank | rfl | rfl | rfl
  · simp only [isBlank, Bool.or_eq_true, decide_eq_true_eq] at hblank
    rcases hblank with ((rfl | rfl) | rfl) | rfl <;> decide
  all_goals decide

theorem closes_blanks {c : Char} (hblanks : ∀ c ∈ blanks, isBlank c)
    (hc : c = ',' ∨ c = ']' ∨ c = '\x7d') : Closes (blanks ++ c :: rest) := by
  intro d hd
  cases blanks with
  | nil =>
    obtain rfl := Option.some.inj hd
    exact .inr hc
  | cons b blanks =>
    obtain rfl := Option.some.inj hd
    exact .inl (hblanks b List.mem_cons_self)

theorem Opens.append (h : Opens cs) (hrest : Opens rest) : Opens (cs ++ rest) := by
  cases cs with
  | nil => exact hrest
  | cons c cs => exact h

theorem Opens.skipBlanks_append (h : Opens cs) (hblanks : ∀ c ∈ blanks, isBlank c) :
    skipBlanks (blanks ++ cs) = cs :=
  Json.skipBlanks_append hblanks fun c hc => (h c hc).1

theorem opens_cons {c : Char} (h : ¬ isBlank c ∧ c ≠ ']') : Opens (c :: cs) := by
  intro d hd
  obtain rfl := Option.some.inj hd
  exact h

theorem opens_of_startsScalar {c : Char} (h : startsScalar c) : Opens (c :: cs) := by
  apply opens_cons
  constructor
  · intro hblank
    simp only [isBlank, Bool.or_eq_true, decide_eq_true_eq] at hblank
    rcases hblank with ((rfl | rfl) | rfl) | rfl <;> exact absurd h (by decide)
  · rintro rfl
    exact absurd h (by decide)

theorem readFrom_of_startsScalar {c : Char} (h : startsScalar c) (m : Nat) :
    readFrom (m + 1) (c :: cs) = readScalar (c :: cs) := by
  have hne : ∀ d, ¬ startsScalar d → c ≠ d := by
    rintro d hd rfl
    exact hd h
  rw [readFrom]
  · exact List.cons_ne_nil c cs
  · exact fun tail htail => hne '"' (by decide) (List.cons.inj htail).1
  · exact fun rest hrest => hne '[' (by decide) (List.cons.inj hrest).1
  · exact fun rest hrest => hne '\x7b' (by decide) (List.cons.inj hrest).1

/-! One item and one member -/

section Steps

variable {value : List Char → Except Fault (Json × List Char)} {k : Nat} {v : Json}
  {name : Text} {known : List (Text × Json)} {after more : List Char}

theorem readItems_last (hvalue : value cs = .ok (v, after))
    (hafter : skipBlanks after = ']' :: rest) :
    readItems value (k + 1) cs = .ok ([v], rest) := by
  rw [readItems, hvalue, ok_bind]
  dsimp only
  rw [hafter]
  rfl

theorem readItems_more (hvalue : value cs = .ok (v, after))
    (hafter : skipBlanks after = ',' :: more) :
    readItems value (k + 1) cs =
      (readItems value k (skipBlanks more)).map fun r => (v :: r.1, r.2) := by
  rw [readItems, hvalue, ok_bind]
  dsimp only
  rw [hafter]
  exact bind_pure_eq_map _

theorem readItems_of_error {e : Fault} (hvalue : value cs = .error e) :
    readItems value (k + 1) cs = .error e := by
  rw [readItems, hvalue]
  rfl

theorem readItems_cases (value : List Char → Except Fault (Json × List Char)) (k : Nat)
    (cs : List Char) :
    (∃ e, value cs = .error e ∧ readItems value (k + 1) cs = .error e) ∨
      ∃ v after, value cs = .ok (v, after) ∧
        ((∃ rest, skipBlanks after = ']' :: rest ∧ readItems value (k + 1) cs = .ok ([v], rest)) ∨
          (∃ more, skipBlanks after = ',' :: more ∧ readItems value (k + 1) cs =
            (readItems value k (skipBlanks more)).map fun r => (v :: r.1, r.2)) ∨
          readItems value (k + 1) cs = .error ⟨.expectingComma, skipBlanks after⟩) := by
  cases hvalue : value cs with
  | error e => exact .inl ⟨e, rfl, readItems_of_error hvalue⟩
  | ok r =>
    obtain ⟨v, after⟩ := r
    refine .inr ⟨v, after, rfl, ?_⟩
    by_cases hlast : ∃ rest, skipBlanks after = ']' :: rest
    · obtain ⟨rest, hrest⟩ := hlast
      exact .inl ⟨rest, hrest, readItems_last hvalue hrest⟩
    · by_cases hmore : ∃ more, skipBlanks after = ',' :: more
      · obtain ⟨more, hmore⟩ := hmore
        exact .inr (.inl ⟨more, hmore, readItems_more hvalue hmore⟩)
      · refine .inr (.inr ?_)
        rw [readItems, hvalue, ok_bind]
        dsimp only
        split
        · rename_i heq
          exact absurd ⟨_, heq⟩ hlast
        · rename_i heq
          exact absurd ⟨_, heq⟩ hmore
        · rfl

theorem readMember_eq (hname : readString ('"' :: cs) = .ok (name, after))
    (hafter : skipBlanks after = ':' :: more) :
    readMember value ('"' :: cs) =
      (value (skipBlanks more)).map fun r => ((name, r.1), r.2) := by
  rw [readMember, hname, ok_bind]
  dsimp only
  rw [hafter]
  exact bind_pure_eq_map _

theorem readMember_cases (value : List Char → Except Fault (Json × List Char)) (cs : List Char) :
    readMember value cs = .error ⟨.expectingName, cs⟩ ∨
      ∃ cs', cs = '"' :: cs' ∧
        ((∃ e, readString cs = .error e ∧ readMember value cs = .error e) ∨
          ∃ name after, readString cs = .ok (name, after) ∧
            (readMember value cs = .error ⟨.expectingColon, skipBlanks after⟩ ∨
              ∃ more, skipBlanks after = ':' :: more ∧
                readMember value cs =
                  (value (skipBlanks more)).map fun r => ((name, r.1), r.2))) := by
  by_cases hquote : ∃ cs', cs = '"' :: cs'
  · obtain ⟨cs', rfl⟩ := hquote
    refine .inr ⟨cs', rfl, ?_⟩
    cases hname : readString ('"' :: cs') with
    | error e =>
      refine .inl ⟨e, rfl, ?_⟩
      rw [readMember, hname]
      rfl
    | ok r =>
      obtain ⟨name, after⟩ := r
      refine .inr ⟨name, after, rfl, ?_⟩
      by_cases hcolon : ∃ more, skipBlanks after = ':' :: more
      · obtain ⟨more, hmore⟩ := hcolon
        exact .inr ⟨more, hmore, readMember_eq hname hmore⟩
      · refine .inl ?_
        rw [readMember, hname, ok_bind]
        dsimp only
        split
        · rename_i heq
          exact absurd ⟨_, heq⟩ hcolon
        · rfl
  · refine .inl ?_
    unfold readMember
    split
    · exact absurd ⟨_, rfl⟩ hquote
    · rfl

theorem readMembers_last (hmember : readMember value cs = .ok ((name, v), after))
    (hafter : skipBlanks after = '\x7d' :: rest) :
    readMembers value (k + 1) known cs = .ok (Entries.put name v known, rest) := by
  rw [readMembers, hmember, ok_bind]
  dsimp only
  rw [hafter]
  rfl

theorem readMembers_more (hmember : readMember value cs = .ok ((name, v), after))
    (hafter : skipBlanks after = ',' :: more) :
    readMembers value (k + 1) known cs =
      readMembers value k (Entries.put name v known) (skipBlanks more) := by
  rw [readMembers, hmember, ok_bind]
  dsimp only
  rw [hafter]
  rfl

theorem readMembers_of_error {e : Fault} (hmember : readMember value cs = .error e) :
    readMembers value (k + 1) known cs = .error e := by
  rw [readMembers, hmember]
  rfl

theorem readMembers_cases (value : List Char → Except Fault (Json × List Char)) (k : Nat)
    (known : List (Text × Json)) (cs : List Char) :
    (∃ e, readMember value cs = .error e ∧ readMembers value (k + 1) known cs = .error e) ∨
      ∃ name v after, readMember value cs = .ok ((name, v), after) ∧
        ((∃ rest, skipBlanks after = '\x7d' :: rest ∧
            readMembers value (k + 1) known cs = .ok (Entries.put name v known, rest)) ∨
          (∃ more, skipBlanks after = ',' :: more ∧ readMembers value (k + 1) known cs =
            readMembers value k (Entries.put name v known) (skipBlanks more)) ∨
          readMembers value (k + 1) known cs = .error ⟨.expectingComma, skipBlanks after⟩) := by
  cases hmember : readMember value cs with
  | error e => exact .inl ⟨e, rfl, readMembers_of_error hmember⟩
  | ok r =>
    obtain ⟨⟨name, v⟩, after⟩ := r
    refine .inr ⟨name, v, after, rfl, ?_⟩
    by_cases hlast : ∃ rest, skipBlanks after = '\x7d' :: rest
    · obtain ⟨rest, hrest⟩ := hlast
      exact .inl ⟨rest, hrest, readMembers_last hmember hrest⟩
    · by_cases hmore : ∃ more, skipBlanks after = ',' :: more
      · obtain ⟨more, hmore⟩ := hmore
        exact .inr (.inl ⟨more, hmore, readMembers_more hmember hmore⟩)
      · refine .inr (.inr ?_)
        rw [readMembers, hmember, ok_bind]
        dsimp only
        split
        · rename_i heq
          exact absurd ⟨_, heq⟩ hlast
        · rename_i heq
          exact absurd ⟨_, heq⟩ hmore
        · rfl

theorem readArray_nil (h : skipBlanks cs = ']' :: rest) :
    readArray value cs = .ok (.array [], rest) := by
  rw [readArray, h]
  rfl

theorem readArray_items (h : ∀ rest, skipBlanks cs ≠ ']' :: rest) :
    readArray value cs =
      (readItems value (skipBlanks cs).length (skipBlanks cs)).map fun r => (.array r.1, r.2) := by
  unfold readArray
  split
  · rename_i heq
    exact absurd heq (h _)
  · rfl

theorem readObject_nil (h : skipBlanks cs = '\x7d' :: rest) :
    readObject value cs = .ok (.object [], rest) := by
  rw [readObject, h]
  rfl

theorem readObject_members (h : ∀ rest, skipBlanks cs ≠ '\x7d' :: rest) :
    readObject value cs = (readMembers value ((skipBlanks cs).length + 1) [] (skipBlanks cs)).map
      fun r => (.object r.1, r.2) := by
  unfold readObject
  split
  · rename_i heq
    exact absurd heq (h _)
  · rfl

end Steps

/-! Values -/

/-- The text is read as this value wherever the value ends with it. -/
structure Spells (used : List Char) (v : Json) : Prop where
  opens : Opens used
  ne_nil : used ≠ []
  read : ∀ m rest, (used ++ rest).length < m → Closes rest →
    readFrom m (used ++ rest) = .ok (v, rest)

/-- The text is read as the items of a list, with the bracket at its end. -/
structure SpellsItems (used : List Char) (vs : List Json) : Prop where
  opens : Opens used
  ne_nil : used ≠ []
  read : ∀ m k rest, (used ++ rest).length < m → (used ++ rest).length ≤ k →
    readItems (readFrom m) k (used ++ rest) = .ok (vs, rest)

structure SpellsMember (used : List Char) (e : Text × Json) : Prop where
  head : ∃ cs, used = '"' :: cs
  read : ∀ m rest, (used ++ rest).length < m → Closes rest →
    readMember (readFrom m) (used ++ rest) = .ok (e, rest)

/-- The text is read as the members of an object, with the brace at its end. -/
structure SpellsMembers (used : List Char) (es : List (Text × Json)) : Prop where
  head : ∃ cs, used = '"' :: cs
  read : ∀ m k known rest, (used ++ rest).length < m → (used ++ rest).length ≤ k →
    readMembers (readFrom m) k known (used ++ rest) =
      .ok (es.foldl (fun known e => Entries.put e.1 e.2 known) known, rest)

theorem Opens.of_append {used cs : List Char} (h : Opens used) (hne : used ≠ []) :
    Opens (used ++ cs) := by
  obtain ⟨c, ds, rfl⟩ := List.exists_cons_of_ne_nil hne
  exact opens_cons (h c rfl)

variable {used used' blanks' : List Char} {v : Json}

theorem skipBlanks_append_cons {c : Char} (hblanks : ∀ c ∈ blanks, isBlank c) (hc : ¬ isBlank c) :
    skipBlanks (blanks ++ c :: cs) = c :: cs := by
  refine skipBlanks_append hblanks fun d hd => ?_
  obtain rfl := Option.some.inj hd
  exact hc

theorem SpellsItems.last (h : Spells used v) (hblanks : ∀ c ∈ blanks, isBlank c) :
    SpellsItems (used ++ (blanks ++ [']'])) [v] := by
  refine ⟨h.opens.of_append h.ne_nil, by simp, fun m k rest hm hk => ?_⟩
  simp only [List.append_assoc, List.singleton_append] at hm hk ⊢
  cases k with
  | zero => simp at hk
  | succ k =>
    exact readItems_last (h.read m _ hm (closes_blanks hblanks (.inr (.inl rfl))))
      (skipBlanks_append_cons hblanks (by decide))

theorem SpellsItems.cons {vs : List Json} (h : Spells used v)
    (hblanks : ∀ c ∈ blanks, isBlank c) (hblanks' : ∀ c ∈ blanks', isBlank c)
    (h' : SpellsItems used' vs) :
    SpellsItems (used ++ (blanks ++ ',' :: (blanks' ++ used'))) (v :: vs) := by
  refine ⟨h.opens.of_append h.ne_nil, by simp, fun m k rest hm hk => ?_⟩
  simp only [List.append_assoc, List.cons_append] at hm hk ⊢
  cases k with
  | zero => simp at hk
  | succ k =>
    rw [readItems_more (h.read m _ hm (closes_blanks hblanks (.inl rfl)))
      (skipBlanks_append_cons hblanks (by decide)),
      (h'.opens.of_append h'.ne_nil).skipBlanks_append hblanks', h'.read m k rest]
    · rfl
    · simp at hm ⊢
      omega
    · simp at hk ⊢
      omega

theorem SpellsMember.of_name {name : Text} (hname : SpellsString ('"' :: used) name)
    (hblanks : ∀ c ∈ blanks, isBlank c) (hblanks' : ∀ c ∈ blanks', isBlank c) (h : Spells used' v) :
    SpellsMember ('"' :: used ++ (blanks ++ ':' :: (blanks' ++ used'))) (name, v) := by
  refine ⟨⟨_, rfl⟩, fun m rest hm hrest => ?_⟩
  have hread := hname (blanks ++ ':' :: (blanks' ++ used') ++ rest)
  have hvalue := h.read m rest (by simp at hm ⊢; omega) hrest
  simp only [List.append_assoc, List.cons_append] at hread ⊢
  rw [readMember_eq hread (skipBlanks_append_cons hblanks (by decide)),
    (h.opens.of_append h.ne_nil).skipBlanks_append hblanks', hvalue]
  rfl

theorem SpellsMembers.last {e : Text × Json} (h : SpellsMember used e)
    (hblanks : ∀ c ∈ blanks, isBlank c) : SpellsMembers (used ++ (blanks ++ ['\x7d'])) [e] := by
  obtain ⟨cs, hcs⟩ := h.head
  refine ⟨⟨cs ++ (blanks ++ ['\x7d']), by rw [hcs]; rfl⟩, fun m k known rest hm hk => ?_⟩
  simp only [List.append_assoc, List.singleton_append] at hm hk ⊢
  cases k with
  | zero => simp at hk
  | succ k =>
    exact readMembers_last (h.read m _ hm (closes_blanks hblanks (.inr (.inr rfl))))
      (skipBlanks_append_cons hblanks (by decide))

theorem SpellsMembers.cons {e : Text × Json} {es : List (Text × Json)} (h : SpellsMember used e)
    (hblanks : ∀ c ∈ blanks, isBlank c) (hblanks' : ∀ c ∈ blanks', isBlank c)
    (h' : SpellsMembers used' es) :
    SpellsMembers (used ++ (blanks ++ ',' :: (blanks' ++ used'))) (e :: es) := by
  obtain ⟨cs, hcs⟩ := h.head
  obtain ⟨cs', hcs'⟩ := h'.head
  refine ⟨⟨cs ++ (blanks ++ ',' :: (blanks' ++ used')), by rw [hcs]; rfl⟩,
    fun m k known rest hm hk => ?_⟩
  have hskip : skipBlanks (blanks' ++ (used' ++ rest)) = used' ++ rest := by
    rw [hcs']
    exact skipBlanks_append_cons hblanks' (by decide)
  simp only [List.append_assoc, List.cons_append] at hm hk ⊢
  cases k with
  | zero => simp at hk
  | succ k =>
    rw [readMembers_more (h.read m _ hm (closes_blanks hblanks (.inl rfl)))
      (skipBlanks_append_cons hblanks (by decide)), hskip, h'.read m k _ rest]
    · rfl
    · simp at hm ⊢
      omega
    · simp at hk ⊢
      omega

namespace Spells

theorem string {t : Text} (h : SpellsString ('"' :: used) t) : Spells ('"' :: used) (.string t) := by
  refine ⟨opens_cons (by decide), List.cons_ne_nil _ _, fun m rest hm _ => ?_⟩
  cases m with
  | zero => simp at hm
  | succ m =>
    rw [List.cons_append, readFrom]
    exact map_eq_ok_iff.mpr ⟨_, h rest, rfl⟩

theorem scalar (h : SpellsScalar used v) : Spells used v := by
  obtain ⟨c, cs, rfl, hc⟩ := h.head
  refine ⟨opens_of_startsScalar hc, List.cons_ne_nil c cs, fun m rest hm hrest => ?_⟩
  cases m with
  | zero => simp at hm
  | succ m =>
    rw [List.cons_append, readFrom_of_startsScalar hc]
    exact h.read rest hrest.endsNumber

theorem nil_array (hblanks : ∀ c ∈ blanks, isBlank c) :
    Spells ('[' :: (blanks ++ [']'])) (.array []) := by
  refine ⟨opens_cons (by decide), List.cons_ne_nil _ _, fun m rest hm _ => ?_⟩
  cases m with
  | zero => simp at hm
  | succ m =>
    rw [List.cons_append, List.append_assoc, readFrom]
    exact readArray_nil (skipBlanks_append_cons hblanks (by decide))

theorem array {vs : List Json} (hblanks : ∀ c ∈ blanks, isBlank c) (h : SpellsItems used vs) :
    Spells ('[' :: (blanks ++ used)) (.array vs) := by
  refine ⟨opens_cons (by decide), List.cons_ne_nil _ _, fun m rest hm _ => ?_⟩
  have hopens : Opens (used ++ rest) := h.opens.of_append h.ne_nil
  have hskip := hopens.skipBlanks_append hblanks
  cases m with
  | zero => simp at hm
  | succ m =>
    rw [List.cons_append, List.append_assoc, readFrom, readArray_items, hskip, h.read m _ rest]
    · rfl
    · simp at hm ⊢
      omega
    · exact le_rfl
    · rw [hskip]
      intro more hmore
      exact (hopens ']' (by rw [hmore]; rfl)).2 rfl

theorem nil_object (hblanks : ∀ c ∈ blanks, isBlank c) :
    Spells ('\x7b' :: (blanks ++ ['\x7d'])) (.object []) := by
  refine ⟨opens_cons (by decide), List.cons_ne_nil _ _, fun m rest hm _ => ?_⟩
  cases m with
  | zero => simp at hm
  | succ m =>
    rw [List.cons_append, List.append_assoc, readFrom]
    exact readObject_nil (skipBlanks_append_cons hblanks (by decide))

theorem object {es : List (Text × Json)} (hblanks : ∀ c ∈ blanks, isBlank c)
    (h : SpellsMembers used es) :
    Spells ('\x7b' :: (blanks ++ used))
      (.object (es.foldl (fun known e => Entries.put e.1 e.2 known) [])) := by
  obtain ⟨cs, rfl⟩ := h.head
  refine ⟨opens_cons (by decide), List.cons_ne_nil _ _, fun m rest hm _ => ?_⟩
  have hskip : skipBlanks (blanks ++ ('"' :: cs ++ rest)) = '"' :: cs ++ rest :=
    skipBlanks_append_cons hblanks (by decide)
  cases m with
  | zero => simp at hm
  | succ m =>
    rw [List.cons_append, List.append_assoc, readFrom, readObject_members, hskip,
      h.read m _ _ rest]
    · rfl
    · simp at hm ⊢
      omega
    · exact Nat.le_succ _
    · rw [hskip]
      intro more hmore
      exact absurd (List.cons.inj hmore).1 (by decide)

end Spells

/-! What is read is spelled -/

section Inversion

variable {value : List Char → Except Fault (Json × List Char)} {k : Nat}

theorem exists_spellsItems
    (hvalue : ∀ cs v rest, value cs = .ok (v, rest) → ∃ used, cs = used ++ rest ∧ Spells used v)
    {vs : List Json} (h : readItems value k cs = .ok (vs, rest)) :
    ∃ used, cs = used ++ rest ∧ SpellsItems used vs := by
  induction k generalizing cs vs with
  | zero => cases h
  | succ k ih =>
    rcases readItems_cases value k cs with ⟨e, -, hread⟩ | ⟨v, after, hv, hread⟩
    · rw [hread] at h
      cases h
    · obtain ⟨used, rfl, hused⟩ := hvalue cs v after hv
      obtain ⟨blanks, hafter, hblanks, -⟩ := exists_blanks after
      rcases hread with ⟨rest', hrest', hread⟩ | ⟨more, hmore, hread⟩ | hread
      · rw [hread] at h
        cases h
        rw [hrest'] at hafter
        exact ⟨used ++ (blanks ++ [']']), by simp [hafter], .last hused hblanks⟩
      · rw [hread] at h
        obtain ⟨⟨vs', rest'⟩, hvs', heq⟩ := map_eq_ok_iff.mp h
        cases heq
        obtain ⟨used', hused', hspells⟩ := ih hvs'
        obtain ⟨blanks', hmore', hblanks', -⟩ := exists_blanks more
        rw [hmore, hmore', hused'] at hafter
        exact ⟨used ++ (blanks ++ ',' :: (blanks' ++ used')), by simp [hafter],
          .cons hused hblanks hblanks' hspells⟩
      · rw [hread] at h
        cases h

theorem exists_spellsMember
    (hvalue : ∀ cs v rest, value cs = .ok (v, rest) → ∃ used, cs = used ++ rest ∧ Spells used v)
    {e : Text × Json} (h : readMember value cs = .ok (e, rest)) :
    ∃ used, cs = used ++ rest ∧ SpellsMember used e := by
  rcases readMember_cases value cs with hread |
    ⟨cs', rfl, ⟨f, -, hread⟩ | ⟨name, after, hname, hread | ⟨more, hmore, hread⟩⟩⟩
  · rw [hread] at h
    cases h
  · rw [hread] at h
    cases h
  · rw [hread] at h
    cases h
  · rw [hread] at h
    obtain ⟨⟨v, rest'⟩, hv, heq⟩ := map_eq_ok_iff.mp h
    cases heq
    obtain ⟨used, rfl, hused⟩ := exists_spellsString hname
    obtain ⟨used', hused', hspells⟩ := hvalue _ _ _ hv
    obtain ⟨blanks, hafter, hblanks, -⟩ := exists_blanks after
    obtain ⟨blanks', hmore', hblanks', -⟩ := exists_blanks more
    rw [hmore, hmore', hused'] at hafter
    exact ⟨'"' :: used ++ (blanks ++ ':' :: (blanks' ++ used')), by simp [hafter],
      .of_name hused hblanks hblanks' hspells⟩

theorem exists_spellsMembers
    (hvalue : ∀ cs v rest, value cs = .ok (v, rest) → ∃ used, cs = used ++ rest ∧ Spells used v)
    {known es : List (Text × Json)} (h : readMembers value k known cs = .ok (es, rest)) :
    ∃ used es', cs = used ++ rest ∧ SpellsMembers used es' ∧
      es = es'.foldl (fun known e => Entries.put e.1 e.2 known) known := by
  induction k generalizing cs known with
  | zero => cases h
  | succ k ih =>
    rcases readMembers_cases value k known cs with ⟨e, -, hread⟩ | ⟨name, v, after, he, hread⟩
    · rw [hread] at h
      cases h
    · obtain ⟨used, rfl, hused⟩ := exists_spellsMember hvalue he
      obtain ⟨blanks, hafter, hblanks, -⟩ := exists_blanks after
      rcases hread with ⟨rest', hrest', hread⟩ | ⟨more, hmore, hread⟩ | hread
      · rw [hread] at h
        cases h
        rw [hrest'] at hafter
        exact ⟨used ++ (blanks ++ ['\x7d']), [(name, v)], by simp [hafter], .last hused hblanks, rfl⟩
      · rw [hread] at h
        obtain ⟨used', es', hused', hspells, rfl⟩ := ih h
        obtain ⟨blanks', hmore', hblanks', -⟩ := exists_blanks more
        rw [hmore, hmore', hused'] at hafter
        exact ⟨used ++ (blanks ++ ',' :: (blanks' ++ used')), (name, v) :: es', by simp [hafter],
          .cons hused hblanks hblanks' hspells, rfl⟩
      · rw [hread] at h
        cases h

end Inversion

theorem exists_spells {m : Nat} (h : readFrom m cs = .ok (v, rest)) :
    ∃ used, cs = used ++ rest ∧ Spells used v := by
  induction m generalizing cs v rest with
  | zero => cases h
  | succ m ih =>
    have hvalue : ∀ cs v rest, readFrom m cs = .ok (v, rest) →
        ∃ used, cs = used ++ rest ∧ Spells used v := fun cs v rest h => ih h
    unfold readFrom at h
    split at h
    · cases h
    · obtain ⟨⟨t, rest'⟩, ht, heq⟩ := map_eq_ok_iff.mp h
      cases heq
      obtain ⟨used, rfl, hused⟩ := exists_spellsString ht
      exact ⟨'"' :: used, rfl, .string hused⟩
    · rename_i cs
      obtain ⟨blanks, hcs, hblanks, -⟩ := exists_blanks cs
      by_cases hnil : ∃ rest, skipBlanks cs = ']' :: rest
      · obtain ⟨rest', hrest'⟩ := hnil
        rw [readArray_nil hrest'] at h
        cases h
        rw [hrest'] at hcs
        exact ⟨'[' :: (blanks ++ [']']), by simp [hcs], .nil_array hblanks⟩
      · rw [readArray_items fun rest hrest => hnil ⟨rest, hrest⟩] at h
        obtain ⟨⟨vs, rest'⟩, hvs, heq⟩ := map_eq_ok_iff.mp h
        cases heq
        obtain ⟨used, hused, hspells⟩ := exists_spellsItems hvalue hvs
        rw [hused] at hcs
        exact ⟨'[' :: (blanks ++ used), by simp [hcs], .array hblanks hspells⟩
    · rename_i cs
      obtain ⟨blanks, hcs, hblanks, -⟩ := exists_blanks cs
      by_cases hnil : ∃ rest, skipBlanks cs = '\x7d' :: rest
      · obtain ⟨rest', hrest'⟩ := hnil
        rw [readObject_nil hrest'] at h
        cases h
        rw [hrest'] at hcs
        exact ⟨'\x7b' :: (blanks ++ ['\x7d']), by simp [hcs], .nil_object hblanks⟩
      · rw [readObject_members fun rest hrest => hnil ⟨rest, hrest⟩] at h
        obtain ⟨⟨es, rest'⟩, hes, heq⟩ := map_eq_ok_iff.mp h
        cases heq
        obtain ⟨used, es', hused, hspells, rfl⟩ := exists_spellsMembers hvalue hes
        rw [hused] at hcs
        exact ⟨'\x7b' :: (blanks ++ used), by simp [hcs], .object hblanks hspells⟩
    · obtain ⟨used, rfl, hused⟩ := exists_spellsScalar h
      exact ⟨used, rfl, .scalar hused⟩

end ParamLint.Json

import ParamLint.Proofs.JsonValues

/-!
# Where reading JSON stops

Reading stops at a value that is missing or at an integer with too many digits. What comes before
such a place leaves the reader waiting for a value, and any other text that is no value fails there
in its own way.
-/
namespace ParamLint.Json

inductive Problem.OfValue : Problem → Prop
  | missing : OfValue .expectingValue
  | long (n : Nat) : OfValue (.integerTooLong n)

theorem not_ofValue_of_readStringFrom {start cs : List Char} {fuel : Nat} {f : Fault}
    (h : readStringFrom start fuel cs = .error f) : ¬ f.problem.OfValue := by
  fun_induction readStringFrom start fuel cs with
  | case1 =>
    cases h
    rintro ⟨⟩
  | case2 =>
    cases h
    rintro ⟨⟩
  | case3 => cases h
  | case4 =>
    cases h
    rintro ⟨⟩
  | case5 =>
    cases h
    rintro ⟨⟩
  | case6 fuel cs p r hp ih => exact ih (map_eq_error_iff.mp h)
  | case7 =>
    cases h
    rintro ⟨⟩
  | case8 fuel c cs hu d hd ih => exact ih (map_eq_error_iff.mp h)
  | case9 =>
    cases h
    rintro ⟨⟩
  | case10 fuel c cs hquote hend hu hescape hcontrol ih => exact ih (map_eq_error_iff.mp h)

/-! A text that is no value -/

/-- Reading a value here fails here. -/
structure Stuck (x : List Char) (p : Problem) : Prop where
  opens : Opens x
  read : ∀ m, readFrom (m + 1) x = .error ⟨p, x⟩

theorem stuck_nil : Stuck [] .expectingValue := ⟨by simp [Opens], fun _ => rfl⟩

theorem LongInteger.stuck {n : Nat} {x : List Char} (h : LongInteger n x) :
    Stuck x (.integerTooLong n) := by
  obtain ⟨c, cs, rfl, hc⟩ := h.exists_start
  refine ⟨opens_of_startsScalar hc, fun m => ?_⟩
  rw [readFrom_of_startsScalar hc]
  exact readScalar_of_longInteger h

theorem LongInteger.head?_ne {n : Nat} {x : List Char} (h : LongInteger n x) :
    x.head? ≠ some '\ufeff' := by
  obtain ⟨c, cs, rfl, hc⟩ := h.exists_start
  intro hmark
  obtain rfl := Option.some.inj hmark
  exact absurd hc (by decide)

theorem Stuck.of_nil {p : Problem} (h : Stuck [] p) : p = .expectingValue := by
  have hread := h.read 0
  cases hread
  rfl

/-! A text that leaves a value to come -/

/-- A value is to come after this. -/
structure Awaits (used : List Char) : Prop where
  opens : Opens used
  read : ∀ m x p, (used ++ x).length < m → Stuck x p → readFrom m (used ++ x) = .error ⟨p, x⟩

structure AwaitsItem (used : List Char) : Prop where
  opens : Opens used
  read : ∀ m k x p, (used ++ x).length < m → (used ++ x).length ≤ k → Stuck x p →
    readItems (readFrom m) k (used ++ x) = .error ⟨p, x⟩

structure AwaitsMember (used : List Char) : Prop where
  head : ∃ cs, used = '"' :: cs
  read : ∀ m x p, (used ++ x).length < m → Stuck x p →
    readMember (readFrom m) (used ++ x) = .error ⟨p, x⟩

structure AwaitsMembers (used : List Char) : Prop where
  head : ∃ cs, used = '"' :: cs
  read : ∀ m k known x p, (used ++ x).length < m → (used ++ x).length ≤ k → Stuck x p →
    readMembers (readFrom m) k known (used ++ x) = .error ⟨p, x⟩

variable {blanks blanks' cs used used' x : List Char} {v : Json} {p : Problem}

theorem Awaits.nil : Awaits [] := by
  refine ⟨by simp [Opens], fun m x p hm hx => ?_⟩
  cases m with
  | zero => simp at hm
  | succ m => exact hx.read m

theorem AwaitsItem.first (h : Awaits used) : AwaitsItem used := by
  refine ⟨h.opens, fun m k x p hm hk hx => ?_⟩
  cases k with
  | zero =>
    -- no fuel is left only where no text is left
    obtain ⟨rfl, rfl⟩ : used = [] ∧ x = [] := by simpa using hk
    rw [hx.of_nil]
    rfl
  | succ k => exact readItems_of_error (h.read m x p hm hx)

theorem AwaitsItem.cons (h : Spells used v) (hblanks : ∀ c ∈ blanks, isBlank c)
    (hblanks' : ∀ c ∈ blanks', isBlank c) (h' : AwaitsItem used') :
    AwaitsItem (used ++ (blanks ++ ',' :: (blanks' ++ used'))) := by
  refine ⟨h.opens.of_append h.ne_nil, fun m k x p hm hk hx => ?_⟩
  simp only [List.append_assoc, List.cons_append] at hm hk ⊢
  cases k with
  | zero => simp at hk
  | succ k =>
    rw [readItems_more (h.read m _ hm (closes_blanks hblanks (.inl rfl)))
      (skipBlanks_append_cons hblanks (by decide)),
      (h'.opens.append hx.opens).skipBlanks_append hblanks', h'.read m k x p]
    · rfl
    · simp at hm ⊢
      omega
    · simp at hk ⊢
      omega
    · exact hx

theorem AwaitsMember.of_name {name : Text} (hname : SpellsString ('"' :: used) name)
    (hblanks : ∀ c ∈ blanks, isBlank c) (hblanks' : ∀ c ∈ blanks', isBlank c) (h : Awaits used') :
    AwaitsMember ('"' :: used ++ (blanks ++ ':' :: (blanks' ++ used'))) := by
  refine ⟨⟨_, rfl⟩, fun m x p hm hx => ?_⟩
  have hread := hname (blanks ++ ':' :: (blanks' ++ used') ++ x)
  have hvalue := h.read m x p (by simp at hm ⊢; omega) hx
  simp only [List.append_assoc, List.cons_append] at hread ⊢
  rw [readMember_eq hread (skipBlanks_append_cons hblanks (by decide)),
    (h.opens.append hx.opens).skipBlanks_append hblanks', hvalue]
  rfl

theorem AwaitsMembers.first (h : AwaitsMember used) : AwaitsMembers used := by
  refine ⟨h.head, fun m k known x p hm hk hx => ?_⟩
  cases k with
  | zero =>
    obtain ⟨cs, rfl⟩ := h.head
    simp at hk
  | succ k => exact readMembers_of_error (h.read m x p hm hx)

theorem AwaitsMembers.cons {e : Text × Json} (h : SpellsMember used e)
    (hblanks : ∀ c ∈ blanks, isBlank c) (hblanks' : ∀ c ∈ blanks', isBlank c)
    (h' : AwaitsMembers used') :
    AwaitsMembers (used ++ (blanks ++ ',' :: (blanks' ++ used'))) := by
  obtain ⟨cs, hcs⟩ := h.head
  obtain ⟨cs', hcs'⟩ := h'.head
  refine ⟨⟨cs ++ (blanks ++ ',' :: (blanks' ++ used')), by rw [hcs]; rfl⟩,
    fun m k known x p hm hk hx => ?_⟩
  have hskip : skipBlanks (blanks' ++ (used' ++ x)) = used' ++ x := by
    rw [hcs']
    exact skipBlanks_append_cons hblanks' (by decide)
  simp only [List.append_assoc, List.cons_append] at hm hk ⊢
  cases k with
  | zero => simp at hk
  | succ k =>
    rw [readMembers_more (h.read m _ hm (closes_blanks hblanks (.inl rfl)))
      (skipBlanks_append_cons hblanks (by decide)), hskip, h'.read m k _ x p]
    · simp at hm ⊢
      omega
    · simp at hk ⊢
      omega
    · exact hx

theorem Awaits.array (hblanks : ∀ c ∈ blanks, isBlank c) (h : AwaitsItem used) :
    Awaits ('[' :: (blanks ++ used)) := by
  refine ⟨opens_cons (by decide), fun m x p hm hx => ?_⟩
  have hopens : Opens (used ++ x) := h.opens.append hx.opens
  have hskip := hopens.skipBlanks_append hblanks
  cases m with
  | zero => simp at hm
  | succ m =>
    rw [List.cons_append, List.append_assoc, readFrom, readArray_items, hskip, h.read m _ x p]
    · rfl
    · simp at hm ⊢
      omega
    · exact le_rfl
    · exact hx
    · rw [hskip]
      intro more hmore
      exact (hopens ']' (by rw [hmore]; rfl)).2 rfl

theorem Awaits.object (hblanks : ∀ c ∈ blanks, isBlank c) (h : AwaitsMembers used) :
    Awaits ('\x7b' :: (blanks ++ used)) := by
  obtain ⟨cs, rfl⟩ := h.head
  refine ⟨opens_cons (by decide), fun m x p hm hx => ?_⟩
  have hskip : skipBlanks (blanks ++ ('"' :: cs ++ x)) = '"' :: cs ++ x :=
    skipBlanks_append_cons hblanks (by decide)
  cases m with
  | zero => simp at hm
  | succ m =>
    rw [List.cons_append, List.append_assoc, readFrom, readObject_members, hskip, h.read m _ _ x p]
    · rfl
    · simp at hm ⊢
      omega
    · exact Nat.le_succ _
    · exact hx
    · rw [hskip]
      intro more hmore
      exact absurd (List.cons.inj hmore).1 (by decide)

/-! What fails at a value leaves it to come -/

section Inversion

variable {value : List Char → Except Fault (Json × List Char)} {k : Nat}

/-- `x` is where a value was to come, and what is wrong with it. -/
def FailsAt (Before : List Char → Prop) (cs x : List Char) (p : Problem) : Prop :=
  (∃ used, cs = used ++ x ∧ Before used) ∧ ∀ n, p = .integerTooLong n → LongInteger n x

theorem failsAt_of_readItems
    (hok : ∀ cs v rest, value cs = .ok (v, rest) → ∃ used, cs = used ++ rest ∧ Spells used v)
    (herror : ∀ cs p x, value cs = .error ⟨p, x⟩ → p.OfValue → FailsAt Awaits cs x p)
    (hp : p.OfValue) (h : readItems value k cs = .error ⟨p, x⟩) :
    FailsAt AwaitsItem cs x p := by
  induction k generalizing cs with
  | zero =>
    cases h
    exact ⟨⟨[], rfl, .first .nil⟩, by simp⟩
  | succ k ih =>
    rcases readItems_cases value k cs with ⟨e, he, hread⟩ | ⟨v, after, hv, hread⟩
    · rw [hread] at h
      cases h
      obtain ⟨⟨used, rfl, hused⟩, hlong⟩ := herror cs p x he hp
      exact ⟨⟨used, rfl, .first hused⟩, hlong⟩
    · obtain ⟨used, rfl, hused⟩ := hok cs v after hv
      obtain ⟨blanks, hafter, hblanks, -⟩ := exists_blanks after
      rcases hread with ⟨rest, -, hread⟩ | ⟨more, hmore, hread⟩ | hread
      · rw [hread] at h
        cases h
      · rw [hread] at h
        obtain ⟨⟨used', hused', hawaits⟩, hlong⟩ := ih (map_eq_error_iff.mp h)
        obtain ⟨blanks', hmore', hblanks', -⟩ := exists_blanks more
        rw [hmore, hmore', hused'] at hafter
        exact ⟨⟨used ++ (blanks ++ ',' :: (blanks' ++ used')), by simp [hafter],
          .cons hused hblanks hblanks' hawaits⟩, hlong⟩
      · rw [hread] at h
        cases h
        cases hp

theorem failsAt_of_readMember
    (herror : ∀ cs p x, value cs = .error ⟨p, x⟩ → p.OfValue → FailsAt Awaits cs x p)
    (hp : p.OfValue) (h : readMember value cs = .error ⟨p, x⟩) :
    FailsAt AwaitsMember cs x p := by
  rcases readMember_cases value cs with hread |
    ⟨cs', rfl, ⟨f, hf, hread⟩ | ⟨name, after, hname, hread | ⟨more, hmore, hread⟩⟩⟩
  · rw [hread] at h
    cases h
    cases hp
  · rw [hread] at h
    cases h
    exact absurd hp (not_ofValue_of_readStringFrom hf)
  · rw [hread] at h
    cases h
    cases hp
  · rw [hread] at h
    obtain ⟨used, rfl, hused⟩ := exists_spellsString hname
    obtain ⟨⟨used', hused', hawaits⟩, hlong⟩ := herror _ _ _ (map_eq_error_iff.mp h) hp
    obtain ⟨blanks, hafter, hblanks, -⟩ := exists_blanks after
    obtain ⟨blanks', hmore', hblanks', -⟩ := exists_blanks more
    rw [hmore, hmore', hused'] at hafter
    exact ⟨⟨'"' :: used ++ (blanks ++ ':' :: (blanks' ++ used')), by simp [hafter],
      .of_name hused hblanks hblanks' hawaits⟩, hlong⟩

theorem failsAt_of_readMembers {known : List (Text × Json)}
    (hok : ∀ cs v rest, value cs = .ok (v, rest) → ∃ used, cs = used ++ rest ∧ Spells used v)
    (herror : ∀ cs p x, value cs = .error ⟨p, x⟩ → p.OfValue → FailsAt Awaits cs x p)
    (hp : p.OfValue) (h : readMembers value k known cs = .error ⟨p, x⟩) :
    FailsAt AwaitsMembers cs x p := by
  induction k generalizing cs known with
  | zero =>
    cases h
    cases hp
  | succ k ih =>
    rcases readMembers_cases value k known cs with ⟨e, he, hread⟩ | ⟨name, v, after, he, hread⟩
    · rw [hread] at h
      cases h
      obtain ⟨⟨used, rfl, hused⟩, hlong⟩ := failsAt_of_readMember herror hp he
      exact ⟨⟨used, rfl, .first hused⟩, hlong⟩
    · obtain ⟨used, rfl, hused⟩ := exists_spellsMember hok he
      obtain ⟨blanks, hafter, hblanks, -⟩ := exists_blanks after
      rcases hread with ⟨rest, -, hread⟩ | ⟨more, hmore, hread⟩ | hread
      · rw [hread] at h
        cases h
      · rw [hread] at h
        obtain ⟨⟨used', hused', hawaits⟩, hlong⟩ := ih h
        obtain ⟨blanks', hmore', hblanks', -⟩ := exists_blanks more
        rw [hmore, hmore', hused'] at hafter
        exact ⟨⟨used ++ (blanks ++ ',' :: (blanks' ++ used')), by simp [hafter],
          .cons hused hblanks hblanks' hawaits⟩, hlong⟩
      · rw [hread] at h
        cases h
        cases hp

end Inversion

theorem failsAt_of_readScalar (h : readScalar cs = .error ⟨p, x⟩) : FailsAt Awaits cs x p := by
  unfold readScalar at h
  split at h
  · cases h
  · have hx : x = cs := by
      rcases readNumber_cases cs with hread |
        ⟨_, _, _, _, _, _, -, -, ⟨v, -, hread⟩ | ⟨-, -, -, hread⟩⟩
      · rw [hread] at h
        cases h
        rfl
      · rw [hread] at h
        cases h
      · rw [hread] at h
        cases h
        rfl
    subst hx
    refine ⟨⟨[], rfl, .nil⟩, ?_⟩
    rintro n rfl
    exact (longInteger_of_readNumber h).1

theorem failsAt_of_readFrom {m : Nat} (h : readFrom m cs = .error ⟨p, x⟩) (hp : p.OfValue) :
    FailsAt Awaits cs x p := by
  induction m generalizing cs p x with
  | zero =>
    cases h
    exact ⟨⟨[], rfl, .nil⟩, by simp⟩
  | succ m ih =>
    have hok : ∀ cs v rest, readFrom m cs = .ok (v, rest) →
        ∃ used, cs = used ++ rest ∧ Spells used v := fun cs v rest h => exists_spells h
    have herror : ∀ cs p x, readFrom m cs = .error ⟨p, x⟩ → p.OfValue → FailsAt Awaits cs x p :=
      fun cs p x h hp => ih h hp
    unfold readFrom at h
    split at h
    · cases h
      exact ⟨⟨[], rfl, .nil⟩, by simp⟩
    · exact absurd hp (not_ofValue_of_readStringFrom (map_eq_error_iff.mp h))
    · rename_i cs
      obtain ⟨blanks, hcs, hblanks, -⟩ := exists_blanks cs
      by_cases hnil : ∃ rest, skipBlanks cs = ']' :: rest
      · obtain ⟨rest, hrest⟩ := hnil
        rw [readArray_nil hrest] at h
        cases h
      · rw [readArray_items fun rest hrest => hnil ⟨rest, hrest⟩] at h
        obtain ⟨⟨used, hused, hawaits⟩, hlong⟩ :=
          failsAt_of_readItems hok herror hp (map_eq_error_iff.mp h)
        rw [hused] at hcs
        exact ⟨⟨'[' :: (blanks ++ used), by simp [hcs], .array hblanks hawaits⟩, hlong⟩
    · rename_i cs
      obtain ⟨blanks, hcs, hblanks, -⟩ := exists_blanks cs
      by_cases hnil : ∃ rest, skipBlanks cs = '\x7d' :: rest
      · obtain ⟨rest, hrest⟩ := hnil
        rw [readObject_nil hrest] at h
        cases h
      · rw [readObject_members fun rest hrest => hnil ⟨rest, hrest⟩] at h
        obtain ⟨⟨used, hused, hawaits⟩, hlong⟩ :=
          failsAt_of_readMembers hok herror hp (map_eq_error_iff.mp h)
        rw [hused] at hcs
        exact ⟨⟨'\x7b' :: (blanks ++ used), by simp [hcs], .object hblanks hawaits⟩, hlong⟩
    · exact failsAt_of_readScalar h

/-! Whole texts -/

theorem parse_of_error {e : Fault} (hmark : cs.head? ≠ some '\ufeff')
    (h : readFrom (cs.length + 1) (skipBlanks cs) = .error e) : parse cs = .error e := by
  rw [parse, if_neg hmark, h]
  rfl

theorem readFrom_of_parse_error (h : parse cs = .error ⟨p, x⟩) (hp : p.OfValue) :
    cs.head? ≠ some '\ufeff' ∧ readFrom (cs.length + 1) (skipBlanks cs) = .error ⟨p, x⟩ := by
  unfold parse at h
  split at h
  · cases h
    cases hp
  · rename_i hmark
    refine ⟨hmark, ?_⟩
    rcases bind_eq_error_iff.mp h with hread | ⟨⟨v, rest⟩, -, hrest⟩
    · exact hread
    · dsimp only at hrest
      split at hrest
      · cases hrest
      · cases hrest
        cases hp

theorem exists_awaits_of_parse (h : parse cs = .error ⟨p, x⟩) (hp : p.OfValue) :
    ∃ blanks used, cs = blanks ++ (used ++ x) ∧ (∀ c ∈ blanks, isBlank c) ∧ Awaits used ∧
      ∀ n, p = .integerTooLong n → LongInteger n x := by
  obtain ⟨-, hread⟩ := readFrom_of_parse_error h hp
  obtain ⟨⟨used, hused, hawaits⟩, hlong⟩ := failsAt_of_readFrom hread hp
  obtain ⟨blanks, hcs, hblanks, -⟩ := exists_blanks cs
  rw [hused] at hcs
  exact ⟨blanks, used, hcs, hblanks, hawaits, hlong⟩

theorem Awaits.parse_eq (h : Awaits used) (hblanks : ∀ c ∈ blanks, isBlank c) (hx : Stuck x p)
    (hmark : (blanks ++ (used ++ x)).head? ≠ some '\ufeff') :
    parse (blanks ++ (used ++ x)) = .error ⟨p, x⟩ := by
  apply parse_of_error hmark
  rw [(h.opens.append hx.opens).skipBlanks_append hblanks]
  exact h.read _ x p (by simp only [List.length_append]; omega) hx

/-- An integer is too long where the text before it leaves a value to come. -/
theorem parse_eq_integerTooLong_iff {n : Nat} :
    parse cs = .error ⟨.integerTooLong n, x⟩ ↔
      ∃ before, cs = before ++ x ∧ parse before = .error ⟨.expectingValue, []⟩ ∧
        LongInteger n x := by
  constructor
  · intro h
    obtain ⟨hmark, -⟩ := readFrom_of_parse_error h (.long n)
    obtain ⟨blanks, used, rfl, hblanks, hawaits, hlong⟩ := exists_awaits_of_parse h (.long n)
    refine ⟨blanks ++ used, by simp, ?_, hlong n rfl⟩
    have hbefore := hawaits.parse_eq hblanks stuck_nil
    rw [List.append_nil] at hbefore
    apply hbefore
    intro hhead
    apply hmark
    rw [← List.append_assoc, List.head?_append, hhead]
    rfl
  · rintro ⟨before, rfl, hbefore, hlong⟩
    obtain ⟨hmark, -⟩ := readFrom_of_parse_error hbefore .missing
    obtain ⟨blanks, used, heq, hblanks, hawaits, -⟩ := exists_awaits_of_parse hbefore .missing
    rw [List.append_nil] at heq
    subst heq
    rw [List.append_assoc]
    apply hawaits.parse_eq hblanks hlong.stuck
    rw [← List.append_assoc, List.head?_append]
    cases hhead : (blanks ++ used).head? with
    | none => exact hlong.head?_ne
    | some c => rwa [hhead] at hmark

end ParamLint.Json

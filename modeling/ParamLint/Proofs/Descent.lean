import ParamLint.Proofs.KeyOverflow

/-!
# Ways down a tree

A node of a tree is reached from the root by the numbers of the children on the way. The frames that
the walk keeps above a function are those of such a way, and the slot of a frame is the field under
which the parent finds that very child.
-/
namespace ParamLint

namespace Node

/-- The field by which a node reaches its child number `i`: the first child under it is that one. -/
def slotAt (n : Node) (i : Nat) : Option Field :=
  (n.children[i]?.bind Node.field).filter fun f =>
    n.children.findIdx? (·.field = some f) = some i

theorem slotAt_eq_some_iff {n : Node} {i : Nat} {f : Field} :
    n.slotAt i = some f ↔ n.children.findIdx? (·.field = some f) = some i := by
  rw [slotAt, Option.filter_eq_some_iff, decide_eq_true_eq]
  refine ⟨fun h => h.2, fun h => ⟨?_, h⟩⟩
  obtain ⟨hi, hfield, -⟩ := List.findIdx?_eq_some_iff_getElem.mp h
  rw [List.getElem?_eq_getElem hi]
  simpa using hfield

/-- Where a list of child numbers leads from a node with `above` above it. -/
def descend : List Frame → Node → List Nat → Option Visit
  | above, n, [] => some ⟨n, above⟩
  | above, n, i :: path =>
    n.children[i]?.bind fun m => descend (⟨n, n.slotAt i⟩ :: above) m path

/-- The function at the end of a way down from the root. -/
def functionAt? (root : Node) (path : List Nat) : Option Occurrence :=
  (descend [] root path).bind fun v => (v.node.asFunction v.above).head?

theorem descend_append (above : List Frame) (n : Node) (path more : List Nat) :
    descend above n (path ++ more) =
      (descend above n path).bind fun v => descend v.above v.node more := by
  induction path generalizing above n with
  | nil => rfl
  | cons i path ih =>
    rw [List.cons_append, descend, descend, Option.bind_assoc]
    simp only [ih]

theorem functionAt?_eq_some_iff {root : Node} {path : List Nat} {o : Occurrence} :
    root.functionAt? path = some o ↔
      descend [] root path = some ⟨o.node, o.above⟩ ∧ o.node.kind = .function o.kind := by
  simp only [functionAt?, Option.bind_eq_some_iff]
  constructor
  · rintro ⟨v, hv, ho⟩
    obtain ⟨hkind, hnode, habove⟩ := Visit.mem_asFunction (List.mem_of_head? ho)
    rw [hnode, habove]
    exact ⟨hv, hkind⟩
  · rintro ⟨hv, hkind⟩
    refine ⟨_, hv, ?_⟩
    rw [asFunction, hkind]
    rfl

end Node

namespace Visit

theorem exists_slotAt_of_mem_visits {above : List Frame} {parent : Node} {children : List Node}
    {v : Visit} (before : List Node) (taken : List Field)
    (hchildren : parent.children = before ++ children)
    (htaken : ∀ f, f ∈ taken ↔ ∃ m ∈ before, m.field = some f)
    (hv : v ∈ Node.visits above parent taken children) :
    ∃ i, parent.children[i]? = some v.node ∧ v.above = ⟨parent, parent.slotAt i⟩ :: above := by
  induction children generalizing before taken with
  | nil => simp [Node.visits] at hv
  | cons n rest ih =>
    have hmore : v ∈ Node.visits above parent (n.field.toList ++ taken) rest →
        ∃ i, parent.children[i]? = some v.node ∧
          v.above = ⟨parent, parent.slotAt i⟩ :: above := by
      apply ih (before ++ [n])
      · rw [hchildren, List.append_assoc, List.singleton_append]
      · intro f
        simp [htaken, or_comm]
    rw [Node.visits] at hv
    by_cases hn : n.isNamed
    · rw [if_pos hn] at hv
      rcases List.mem_cons.mp hv with rfl | hv
      · have hn : parent.children[before.length]? = some n := by simp [hchildren]
        refine ⟨before.length, hn, ?_⟩
        have hslot : ∀ f, n.field = some f → (f ∉ taken ↔
            parent.children.findIdx? (·.field = some f) = some before.length) := by
          intro f hf
          rw [hchildren, List.findIdx?_append, List.findIdx?_cons, hf]
          cases hbefore : before.findIdx? (·.field = some f) with
          | none =>
            have hnone : ∀ m ∈ before, m.field ≠ some f := by
              simpa using List.findIdx?_eq_none_iff.mp hbefore
            simpa [htaken] using hnone
          | some i =>
            obtain ⟨hi, hfield, -⟩ := List.findIdx?_eq_some_iff_getElem.mp hbefore
            have hmem : ∃ m ∈ before, m.field = some f :=
              ⟨before[i], List.getElem_mem hi, by simpa using hfield⟩
            have hne : i ≠ before.length := by omega
            simp [htaken, hmem, hne]
        cases hfield : n.field with
        | none => simp [Node.slotAt, Node.slotAfter, hn, hfield]
        | some f =>
          have hf := hslot f hfield
          simp [Node.slotAt, Node.slotAfter, hn, hfield, Option.filter, hf]
      · exact hmore hv
    · rw [if_neg hn] at hv
      exact hmore hv

end Visit

namespace Node

/-- Every function that the walk finds is at the end of a way down from the root. -/
theorem exists_functionAt?_of_mem_occurrences {root : Node} {o : Occurrence}
    (ho : o ∈ root.occurrences) : ∃ path, root.functionAt? path = some o := by
  have hbelow : ∀ v : Visit, (∃ path, descend [] root path = some v) →
      ∀ w ∈ v.below, ∃ path, descend [] root path = some w := by
    rintro v ⟨path, hv⟩ w hw
    obtain ⟨i, hi, habove⟩ :=
      Visit.exists_slotAt_of_mem_visits [] [] rfl (by simp) hw
    refine ⟨path ++ [i], ?_⟩
    rw [descend_append, hv, Option.bind_some, descend, hi, Option.bind_some, descend, ← habove]
  obtain ⟨hkind, path, hpath⟩ :=
    Visit.forall_mem_walk hbelow [⟨root, []⟩] (by simpa using ⟨[], rfl⟩) o ho
  exact ⟨path, functionAt?_eq_some_iff.mpr ⟨hpath, hkind⟩⟩

theorem onBoundaries_of_descend {cs : List Char} {above : List Frame} {n : Node} {path : List Nat}
    {v : Visit} (hn : n.OnBoundaries cs) (habove : ∀ f ∈ above, f.parent.OnBoundaries cs)
    (h : descend above n path = some v) :
    v.node.OnBoundaries cs ∧ ∀ f ∈ v.above, f.parent.OnBoundaries cs := by
  induction path generalizing above n with
  | nil =>
    rw [descend, Option.some.injEq] at h
    subst v
    exact ⟨hn, habove⟩
  | cons i path ih =>
    rw [descend, Option.bind_eq_some_iff] at h
    obtain ⟨m, hm, h⟩ := h
    apply ih (hn.of_mem (List.mem_of_getElem? hm)) _ h
    simpa using ⟨hn, habove⟩

theorem onBoundaries_of_functionAt? {cs : List Char} {root : Node} {path : List Nat}
    {o : Occurrence} (hroot : root.OnBoundaries cs) (ho : root.functionAt? path = some o) :
    o.OnBoundaries cs := by
  obtain ⟨hdescend, -⟩ := functionAt?_eq_some_iff.mp ho
  obtain ⟨hnode, habove⟩ := onBoundaries_of_descend hroot (by simp) hdescend
  exact ⟨hnode, habove⟩

end Node

end ParamLint

import ParamLint.Site.OfTree

/-!
# Document order

The functions of a tree in recursive pre-order: a node before what is in it, the named children from
the first to the last, each with the way down to it. The walk keeps its own stack instead of
recursing, and finds the same functions in the same order.
-/
namespace ParamLint

namespace Node

mutual

/-- The functions in a node, itself first, then those of its named children in order. -/
def functions (above : List Frame) : Node → List Occurrence
  | n@⟨_, _, _, _, _, children⟩ => n.asFunction above ++ functionsIn above n [] children

/-- The functions in the children of `parent` that come after siblings with the fields `taken`. -/
def functionsIn (above : List Frame) (parent : Node) (taken : List Field) :
    List Node → List Occurrence
  | [] => []
  | n :: rest =>
    (if n.isNamed then functions (⟨parent, slotAfter taken n⟩ :: above) n else []) ++
      functionsIn above parent (n.field.toList ++ taken) rest

end

theorem functions_eq (above : List Frame) (n : Node) :
    n.functions above = n.asFunction above ++ functionsIn above n [] n.children := by
  cases n
  rw [functions]

theorem functionsIn_eq_flatMap_visits (above : List Frame) (parent : Node) (taken : List Field)
    (children : List Node) :
    functionsIn above parent taken children =
      (visits above parent taken children).flatMap fun v => v.node.functions v.above := by
  induction children generalizing taken with
  | nil => simp [functionsIn, visits]
  | cons n rest ih =>
    rw [functionsIn, visits, ih]
    cases n.isNamed <;> simp

end Node

namespace Visit

/-- One step of the walk loses and adds nothing: a node on top of the stack has the functions that
it is itself and those of the visits that replace it. -/
theorem functions_eq_append_below (v : Visit) :
    v.node.functions v.above = v.node.asFunction v.above ++
      v.below.flatMap fun w => w.node.functions w.above := by
  rw [Node.functions_eq, Node.functionsIn_eq_flatMap_visits, below]

theorem walk_eq_flatMap_functions (stack : List Visit) :
    walk stack = stack.flatMap fun v => v.node.functions v.above := by
  fun_induction walk stack with
  | case1 => rfl
  | case2 v stack ih =>
    rw [ih, List.flatMap_append, List.flatMap_cons, functions_eq_append_below v, List.append_assoc]

theorem mem_visits {above : List Frame} {parent : Node} {taken : List Field}
    {children : List Node} {v : Visit} (h : v ∈ Node.visits above parent taken children) :
    (v.node ∈ children ∧ v.node.isNamed) ∧ ∃ slot, v.above = ⟨parent, slot⟩ :: above := by
  induction children generalizing taken with
  | nil => simp [Node.visits] at h
  | cons n rest ih =>
    rw [Node.visits] at h
    by_cases hn : n.isNamed
    · rw [if_pos hn] at h
      rcases List.mem_cons.mp h with rfl | hmore
      · exact ⟨⟨List.mem_cons_self, hn⟩, _, rfl⟩
      · obtain ⟨⟨hmem, hnamed⟩, hslot⟩ := ih hmore
        exact ⟨⟨List.mem_cons_of_mem n hmem, hnamed⟩, hslot⟩
    · rw [if_neg hn] at h
      obtain ⟨⟨hmem, hnamed⟩, hslot⟩ := ih h
      exact ⟨⟨List.mem_cons_of_mem n hmem, hnamed⟩, hslot⟩

theorem mem_asFunction {n : Node} {above : List Frame} {o : Occurrence}
    (h : o ∈ n.asFunction above) : n.kind = .function o.kind ∧ o.node = n ∧ o.above = above := by
  unfold Node.asFunction at h
  split at h
  · rename_i kind hkind
    rw [List.mem_singleton] at h
    subst o
    exact ⟨hkind, rfl, rfl⟩
  · simp at h

/-- What holds of the visits on the stack and is handed down to those that replace one of them holds
of every function that the walk finds. -/
theorem forall_mem_walk {p : Visit → Prop} (hbelow : ∀ v, p v → ∀ w ∈ v.below, p w)
    (stack : List Visit) (hstack : ∀ v ∈ stack, p v) :
    ∀ o ∈ walk stack, o.node.kind = .function o.kind ∧ p ⟨o.node, o.above⟩ := by
  fun_induction walk stack with
  | case1 => simp
  | case2 v stack ih =>
    have hv := hstack v List.mem_cons_self
    intro o ho
    rcases List.mem_append.mp ho with hhere | hlater
    · obtain ⟨hkind, hnode, habove⟩ := mem_asFunction hhere
      rw [hnode, habove]
      exact ⟨hkind, hv⟩
    · refine ih (fun w hw => ?_) o hlater
      rcases List.mem_append.mp hw with hw | hrest
      · exact hbelow v hv w hw
      · exact hstack w (List.mem_cons_of_mem v hrest)

end Visit

/-- The walk over a whole tree is the recursive pre-order. -/
theorem Node.occurrences_eq_functions (root : Node) : root.occurrences = root.functions [] := by
  rw [occurrences, Visit.walk_eq_flatMap_functions]
  simp

end ParamLint

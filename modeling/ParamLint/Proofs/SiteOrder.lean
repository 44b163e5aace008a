import Mathlib.Data.List.Chain
import Mathlib.Order.Defs.PartialOrder
import ParamLint.Proofs.SiteShapes

/-!
# Sites in document order

In a tree whose nodes hold their children, one after the other, the walk meets functions by the
place where they start. So sites come by location, the parameters of a site come by location and not
before it, and what is reported is anchored at the first of the parameters that offend.
-/
namespace ParamLint

namespace Location

/-- Lines first, then columns. -/
instance : LE Location := ⟨fun a b => a.line < b.line ∨ a.line = b.line ∧ a.column ≤ b.column⟩

theorem le_def {a b : Location} :
    a ≤ b ↔ a.line < b.line ∨ a.line = b.line ∧ a.column ≤ b.column := Iff.rfl

instance : DecidableLE Location := fun _ _ => decidable_of_iff' _ le_def

instance : Preorder Location where
  le_refl _ := .inr ⟨rfl, Nat.le_refl _⟩
  le_trans a b c hab hbc := by
    rw [le_def] at hab hbc ⊢
    omega

end Location

namespace Source

/-- Bytes between two offsets either hold a line feed, and the line grows, or they do not, and the
column grows with them. -/
theorem location_mono (s : Source) {a b : Nat} (h : a ≤ b) : s.location a ≤ s.location b := by
  obtain ⟨k, rfl⟩ := Nat.exists_eq_add_of_le h
  rw [Location.le_def]
  simp only [location, List.take_add, List.count_append, List.reverse_append]
  generalize s.bytes.take a = before
  generalize (s.bytes.drop a).take k = between
  by_cases hfeed : (10 : UInt8) ∈ between
  · have := List.count_pos_iff.mpr hfeed
    omega
  · have hplain : ∀ b ∈ between.reverse, decide (b ≠ 10) = true := by
      intro b hb
      rw [decide_eq_true_eq]
      rintro rfl
      exact hfeed (List.mem_reverse.mp hb)
    rw [List.count_eq_zero.mpr hfeed, List.takeWhile_append_of_pos hplain, List.length_append]
    omega

end Source

namespace Node

/-- Every node starts before it stops and holds its children, and these follow one another without
an overlap. -/
inductive InOrder : Node → Prop
  | intro {n : Node} (start_le_stop : n.start ≤ n.stop)
      (within : ∀ m ∈ n.children, n.start ≤ m.start ∧ m.stop ≤ n.stop)
      (successive : n.children.IsChain fun a b => a.stop ≤ b.start)
      (children : ∀ m ∈ n.children, InOrder m) : InOrder n

/-- The second node starts where the first has stopped, and does not stop before it starts: with
this the relation is transitive. -/
def Follows (a b : Node) : Prop := a.stop ≤ b.start ∧ b.start ≤ b.stop

instance : Trans Follows Follows Follows :=
  ⟨fun hab hbc => ⟨hab.1.trans (hab.2.trans hbc.1), hbc.2⟩⟩

namespace InOrder

variable {n m : Node}

theorem start_le_stop (h : n.InOrder) : n.start ≤ n.stop := by
  cases h with
  | intro start_le_stop _ _ _ => exact start_le_stop

theorem start_le_of_mem (h : n.InOrder) (hm : m ∈ n.children) : n.start ≤ m.start := by
  cases h with
  | intro _ within _ _ => exact (within m hm).1

theorem stop_le_of_mem (h : n.InOrder) (hm : m ∈ n.children) : m.stop ≤ n.stop := by
  cases h with
  | intro _ within _ _ => exact (within m hm).2

theorem of_mem (h : n.InOrder) (hm : m ∈ n.children) : m.InOrder := by
  cases h with
  | intro _ _ _ children => exact children m hm

theorem pairwise_children (h : n.InOrder) :
    n.children.Pairwise fun a b => a.stop ≤ b.start := by
  cases h with
  | intro _ _ successive children =>
    have hchain : n.children.IsChain Follows :=
      successive.imp_of_mem_imp fun a b _ hb hab => ⟨hab, (children b hb).start_le_stop⟩
    exact hchain.pairwise.imp And.left

theorem of_child (h : n.InOrder) {f : Field} (hm : n.child? f = some m) :
    n.start ≤ m.start ∧ m.InOrder :=
  ⟨h.start_le_of_mem (List.mem_of_find?_eq_some hm), h.of_mem (List.mem_of_find?_eq_some hm)⟩

end InOrder

theorem map_node_visits (above : List Frame) (parent : Node) (taken : List Field)
    (children : List Node) :
    (visits above parent taken children).map Visit.node = children.filter (·.isNamed) := by
  induction children generalizing taken with
  | nil => rfl
  | cons n rest ih =>
    rw [visits]
    by_cases hn : n.isNamed <;> simp [hn, ih]

end Node

namespace Visit

/-- What is on the stack of the walk: each node lies before those under it. -/
structure StackInOrder (stack : List Visit) : Prop where
  nodes : ∀ v ∈ stack, v.node.InOrder
  apart : stack.Pairwise fun v w => v.node.stop ≤ w.node.start

theorem stackInOrder_below {v : Visit} (h : v.node.InOrder) : StackInOrder v.below where
  nodes w hw := h.of_mem (mem_visits hw).1.1
  apart := by
    have hnamed : (v.below.map Visit.node).Pairwise fun a b => a.stop ≤ b.start := by
      rw [below, Node.map_node_visits]
      exact h.pairwise_children.sublist List.filter_sublist
    exact List.pairwise_map.mp hnamed

theorem StackInOrder.step {v : Visit} {stack : List Visit} (h : StackInOrder (v :: stack)) :
    StackInOrder (v.below ++ stack) := by
  have hv := h.nodes v List.mem_cons_self
  have hbelow := stackInOrder_below hv
  obtain ⟨hnext, hrest⟩ := List.pairwise_cons.mp h.apart
  constructor
  · intro w hw
    rcases List.mem_append.mp hw with hw | hw
    · exact hbelow.nodes w hw
    · exact h.nodes w (List.mem_cons_of_mem v hw)
  · refine List.pairwise_append.mpr ⟨hbelow.apart, hrest, fun w hw u hu => ?_⟩
    exact (hv.stop_le_of_mem (mem_visits hw).1.1).trans (hnext u hu)

theorem StackInOrder.start_le {v : Visit} {stack : List Visit} (h : StackInOrder (v :: stack)) :
    ∀ w ∈ v.below ++ stack, v.node.start ≤ w.node.start := by
  have hv := h.nodes v List.mem_cons_self
  intro w hw
  rcases List.mem_append.mp hw with hw | hw
  · exact hv.start_le_of_mem (mem_visits hw).1.1
  · exact hv.start_le_stop.trans ((List.pairwise_cons.mp h.apart).1 w hw)

theorem start_le_of_mem_walk {start : Nat} {stack : List Visit}
    (hnodes : ∀ v ∈ stack, v.node.InOrder) (hstart : ∀ v ∈ stack, start ≤ v.node.start)
    {o : Occurrence} (ho : o ∈ walk stack) : start ≤ o.node.start := by
  have hbelow : ∀ v : Visit, v.node.InOrder ∧ start ≤ v.node.start →
      ∀ w ∈ v.below, w.node.InOrder ∧ start ≤ w.node.start := by
    rintro v ⟨hv, hle⟩ w hw
    have hmem := (mem_visits hw).1.1
    exact ⟨hv.of_mem hmem, hle.trans (hv.start_le_of_mem hmem)⟩
  exact (forall_mem_walk hbelow stack (fun v hv => ⟨hnodes v hv, hstart v hv⟩) o ho).2.2

theorem StackInOrder.pairwise_walk {stack : List Visit} (h : StackInOrder stack) :
    (walk stack).Pairwise fun o p => o.node.start ≤ p.node.start := by
  fun_induction walk stack with
  | case1 => exact .nil
  | case2 v stack ih =>
    refine List.pairwise_append.mpr ⟨?_, ih h.step, fun o ho p hp => ?_⟩
    · unfold Node.asFunction
      split
      · exact List.pairwise_singleton _ _
      · exact .nil
    · rw [(mem_asFunction ho).2.1]
      exact start_le_of_mem_walk h.step.nodes h.start_le hp

end Visit

namespace Node.InOrder

variable {root : Node} {o : Occurrence}

theorem pairwise_occurrences (h : root.InOrder) :
    root.occurrences.Pairwise fun o p => o.node.start ≤ p.node.start := by
  apply Visit.StackInOrder.pairwise_walk
  exact ⟨by simpa using h, List.pairwise_singleton _ _⟩

theorem of_mem_occurrences (h : root.InOrder) (ho : o ∈ root.occurrences) : o.node.InOrder := by
  have hbelow : ∀ v : Visit, v.node.InOrder → ∀ w ∈ v.below, w.node.InOrder :=
    fun v hv w hw => hv.of_mem (Visit.mem_visits hw).1.1
  exact (Visit.forall_mem_walk hbelow [⟨root, []⟩] (by simpa using h) o ho).2

theorem paramNodes (h : o.node.InOrder) :
    o.paramNodes.Pairwise (fun n m => n.start ≤ m.start) ∧
      ∀ n ∈ o.paramNodes, o.node.start ≤ n.start := by
  by_cases hsingle : ∃ single, o.kind = .arrowFunction ∧ o.node.child? .parameter = some single
  · obtain ⟨single, hkind, hsingle⟩ := hsingle
    rw [Occurrence.paramNodes_of_single hkind hsingle]
    exact ⟨List.pairwise_singleton _ _, by simpa using (h.of_child hsingle).1⟩
  · rw [Occurrence.paramNodes_of_list fun hkind => by
      cases hparam : o.node.child? .parameter with
      | none => rfl
      | some single => exact absurd ⟨single, hkind, hparam⟩ hsingle]
    cases hlist : o.node.child? .parameters with
    | none => exact ⟨.nil, by simp⟩
    | some list =>
      obtain ⟨hle, horder⟩ := h.of_child hlist
      have hsub : list.listedParams.Sublist list.children :=
        List.filter_sublist.trans List.filter_sublist
      refine ⟨?_, fun n hn => hle.trans (horder.start_le_of_mem (hsub.subset hn))⟩
      refine (horder.pairwise_children.sublist hsub).imp_of_mem fun hn _ hnm => ?_
      exact (horder.of_mem (hsub.subset hn)).start_le_stop.trans hnm

end Node.InOrder

namespace Site

/-- What reading the functions of a tree one after the other gives up to some point: the sites of
the first ones. -/
def Yields (s : Source) (root : Node) (sites : List Site) : Prop :=
  ∃ os, os <+: root.occurrences ∧ os.mapM (·.site s) = .ok sites

theorem yields_of_ofTree {s : Source} {root : Node} {sites : List Site}
    (h : ofTree s root = .ok sites) : Yields s root sites := ⟨_, List.prefix_rfl, h⟩

variable {s : Source} {root : Node} {sites : List Site}

theorem Yields.exists_occurrences (h : Yields s root sites) :
    ∃ os, os <+: root.occurrences ∧ List.Forall₂ (fun o site => o.site s = .ok site) os sites := by
  obtain ⟨os, hos, hsites⟩ := h
  exact ⟨os, hos, mapM_eq_ok_iff.mp hsites⟩

theorem Yields.pairwise_location (h : Yields s root sites) (hroot : root.InOrder) :
    sites.Pairwise fun a b => a.location ≤ b.location := by
  obtain ⟨os, hos, hsites⟩ := h.exists_occurrences
  have hlocations : sites.map Site.location = os.map fun o => s.location o.node.start :=
    map_eq_map_of_forall₂ hsites fun o site ho => (Occurrence.site_eq_ok_iff.mp ho).2.2.2.2
  have hstarts := hroot.pairwise_occurrences.sublist hos.sublist
  rw [← List.pairwise_map, hlocations, List.pairwise_map]
  exact hstarts.imp s.location_mono

theorem params_in_order {o : Occurrence} (ho : o.node.InOrder) {site : Site}
    (h : o.site s = .ok site) :
    site.params.Pairwise (fun p q => p.location ≤ q.location) ∧
      ∀ p ∈ site.params, site.location ≤ p.location := by
  obtain ⟨-, hparams, -, -, hlocation⟩ := Occurrence.site_eq_ok_iff.mp h
  have hread := mapM_eq_ok_iff.mp hparams
  have hlocations : site.params.map Param.location = o.paramNodes.map fun n => s.location n.start :=
    map_eq_map_of_forall₂ hread fun n p hp => Param.location_of_ofNode hp
  obtain ⟨hstarts, hbefore⟩ := ho.paramNodes
  constructor
  · rw [← List.pairwise_map, hlocations, List.pairwise_map]
    exact hstarts.imp s.location_mono
  · intro p hp
    obtain ⟨n, hn, hnode⟩ := exists_mem_of_forall₂ hread hp
    rw [hlocation, Param.location_of_ofNode hnode]
    exact s.location_mono (hbefore n hn)

/-- A diagnostic is anchored at the first parameter that offends, and at the function if that has no
parameters. -/
theorem mem_diagnostics {site : Site} {c : Configuration} {path : Text} {d : Diagnostic}
    (h : d ∈ Findings.diagnostics c path site) :
    site.params = [] ∧ d.location = site.location ∨
      ∃ p rest, site.offending = p :: rest ∧ d.location = p.location := by
  rw [Findings.diagnostics_eq] at h
  split at h
  · cases h
  · rename_i hconforms
    rw [List.mem_singleton] at h
    subst d
    cases hoffending : site.offending with
    | nil =>
      refine .inl ⟨?_, by simp [diagnostic, anchor, hoffending]⟩
      by_contra hparams
      exact hconforms (.inr (.inr ⟨hparams, (offending_eq_nil_iff site).mp hoffending⟩))
    | cons p rest => exact .inr ⟨p, rest, rfl, by simp [diagnostic, anchor, hoffending]⟩

theorem exists_site_of_mem_result {c : Configuration} {path : Text} {ds : List Diagnostic}
    (h : (Findings.ofTree c path s root).result = .ok ds) {d : Diagnostic} (hd : d ∈ ds) :
    ∃ sites, ofTree s root = .ok sites ∧ ∃ site ∈ sites, d ∈ Findings.diagnostics c path site := by
  obtain ⟨sites, hsites, rfl⟩ := (Findings.result_ofOccurrences_eq_ok_iff c path s).mp h
  refine ⟨sites, mapM_eq_ok_iff.mpr hsites, ?_⟩
  simp only [reported, List.mem_map, List.mem_filter, decide_eq_true_eq] at hd
  obtain ⟨site, ⟨⟨hmem, -⟩, hconforms⟩, rfl⟩ := hd
  exact ⟨site, hmem, by rw [Findings.diagnostics_eq, if_neg hconforms]; simp⟩

/-- In a tree in order sites come by location, at whatever function reading stops. The parameters of
each site come by location and not before it, and what is reported of it is anchored at the earliest
parameter that offends, which is never before the function. -/
theorem yields_in_document_order (hroot : root.InOrder) :
    (∀ sites, Yields s root sites →
      sites.Pairwise (fun a b => a.location ≤ b.location) ∧
      ∀ site ∈ sites,
        site.params.Pairwise (fun p q => p.location ≤ q.location) ∧
        (∀ p ∈ site.params, site.location ≤ p.location) ∧
        ∀ c path, ∀ d ∈ Findings.diagnostics c path site,
          site.location ≤ d.location ∧ (∀ p ∈ site.offending, d.location ≤ p.location) ∧
          (site.params = [] ∨ ∃ p ∈ site.offending, d.location = p.location)) ∧
    ∀ c path ds, (Findings.ofTree c path s root).result = .ok ds → ∀ d ∈ ds,
      ∃ sites, Yields s root sites ∧ ∃ site ∈ sites, d ∈ Findings.diagnostics c path site := by
  refine ⟨fun sites hsites => ⟨hsites.pairwise_location hroot, fun site hsite => ?_⟩, ?_⟩
  · obtain ⟨os, hos, hread⟩ := hsites.exists_occurrences
    obtain ⟨o, ho, hosite⟩ := exists_mem_of_forall₂ hread hsite
    obtain ⟨hparams, hbefore⟩ := params_in_order (hroot.of_mem_occurrences (hos.subset ho)) hosite
    refine ⟨hparams, hbefore, fun c path d hd => ?_⟩
    rcases mem_diagnostics hd with ⟨hnone, hlocation⟩ | ⟨p, rest, hoffending, hlocation⟩
    · rw [hlocation]
      exact ⟨le_rfl, by simp [offending, hnone], .inl hnone⟩
    · have hmem : p ∈ site.offending := by rw [hoffending]; exact List.mem_cons_self
      have hsorted : (p :: rest).Pairwise fun p q => p.location ≤ q.location := by
        rw [← hoffending]
        exact hparams.sublist List.filter_sublist
      rw [hlocation]
      refine ⟨hbefore p (List.mem_filter.mp hmem).1, fun q hq => ?_, .inr ⟨p, hmem, rfl⟩⟩
      rw [hoffending] at hq
      rcases List.mem_cons.mp hq with rfl | hq
      · exact le_rfl
      · exact (List.pairwise_cons.mp hsorted).1 q hq
  · intro c path ds h d hd
    obtain ⟨sites, hsites, hsite⟩ := exists_site_of_mem_result h hd
    exact ⟨sites, yields_of_ofTree hsites, hsite⟩

/-- Two arrow functions behind a character of two bytes, the second one on a line of its own. -/
def curriedChars : List Char := "é\n(a, b) =>\n(c) => 1".toList

def outerParams : Node where
  kind := .other "formal_parameters"
  field := some .parameters
  start := 3
  stop := 9
  children :=
    [{ kind := .identifier, start := 4, stop := 5 }, { kind := .identifier, start := 7, stop := 8 }]

def innerArrow : Node where
  kind := .function .arrowFunction
  start := 13
  stop := 21
  children :=
    [{ kind := .other "formal_parameters", field := some .parameters, start := 13, stop := 16
       children := [{ kind := .identifier, start := 14, stop := 15 }] }]

def curriedTree : Node where
  kind := .other "program"
  start := 0
  stop := 21
  children :=
    [{ kind := .function .arrowFunction, start := 3, stop := 21
       children := [outerParams, innerArrow] }]

theorem inOrder_leaf {n : Node} (hn : n.start ≤ n.stop) (hleaf : n.children = []) : n.InOrder := by
  apply Node.InOrder.intro hn <;> simp [hleaf]

theorem inOrder_outerParams : outerParams.InOrder := by
  refine .intro (by decide) (by decide) (by decide) ?_
  simp only [outerParams, List.forall_mem_cons, List.not_mem_nil, false_imp_iff, implies_true,
    and_true]
  exact ⟨inOrder_leaf (by decide) rfl, inOrder_leaf (by decide) rfl⟩

theorem inOrder_innerArrow : innerArrow.InOrder := by
  refine .intro (by decide) (by decide) (by decide) (List.forall_mem_singleton.mpr ?_)
  refine .intro (by decide) (by decide) (by decide) (List.forall_mem_singleton.mpr ?_)
  exact inOrder_leaf (by decide) rfl

theorem inOrder_curriedTree : curriedTree.InOrder := by
  refine .intro (by decide) (by decide) (by decide) (List.forall_mem_singleton.mpr ?_)
  refine .intro (by decide) (by decide) (by decide) (List.forall_mem_cons.mpr ?_)
  exact ⟨inOrder_outerParams, List.forall_mem_singleton.mpr inOrder_innerArrow⟩

theorem yields_curriedTree_in_document_order :
    curriedTree.InOrder ∧ ∃ sites, ofTree (.ofChars curriedChars) curriedTree = .ok sites ∧
      sites.map Site.location = [⟨2, 1⟩, ⟨3, 1⟩] ∧
      sites.Pairwise (fun a b => a.location ≤ b.location) ∧
      ∀ site ∈ sites, ∀ d ∈ Findings.diagnostics {} [] site, site.location ≤ d.location := by
  refine ⟨inOrder_curriedTree, ?_⟩
  have hread : ∃ sites ∈ ((curriedTree.functions []).mapM
      fun o : Occurrence => o.site (.ofChars curriedChars)).toOption,
      sites.map Site.location = [⟨2, 1⟩, ⟨3, 1⟩] := by
    decide +kernel
  obtain ⟨sites, hsites, hlocations⟩ := hread
  rw [← Node.occurrences_eq_functions] at hsites
  have hsites := eq_ok_of_toOption hsites
  obtain ⟨hsorted, hparams⟩ :=
    (yields_in_document_order inOrder_curriedTree).1 sites (yields_of_ofTree hsites)
  exact ⟨sites, hsites, hlocations, hsorted, fun site hsite d hd =>
    ((hparams site hsite).2.2 {} [] d hd).1⟩

end Site

end ParamLint

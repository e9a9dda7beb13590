import ParallelArch.Concurrency.Machine
import ParallelArch.ModelChecker.CycleChanges

/-!
# Rolling back the changes of the cycle graph

`rollbackChanges` removes one edge for each entry of `rollbackvector`, always the one added
last, in the order in which the entries were made.  As many edges were added to each node as it
has entries, so what is left are the edges of the last commit (`rollback_restores`).
-/

namespace Nodes

/-! ### The removal of an edge -/

section Remove

variable {nodes base : Nodes} {size a b x : ℕ} {es pending : List ℕ}

/-- `removeEdge` takes the last edge of a node away, and one back edge to it. -/
theorem removeEdge_eq (h : (nodes a).edges = es ++ [b]) :
  nodes.removeEdge a
    = (nodes.modify a fun n => { n with edges := es }).modify b fun n =>
        { n with backEdges := n.backEdges.erase a }
  := by simp [removeEdge, h, modify]

/-- The edges after `removeEdge`. -/
theorem removeEdge_edges (h : (nodes a).edges = es ++ [b]) :
  (nodes.removeEdge a x).edges = if x = a then es else (nodes x).edges
  := by
  rw [removeEdge_eq h]
  simp only [modify_apply]
  grind

/-- The back edges after `removeEdge`. -/
theorem removeEdge_backEdges (h : (nodes a).edges = es ++ [b]) :
  (nodes.removeEdge a x).backEdges
    = if x = b then (nodes b).backEdges.erase a else (nodes x).backEdges
  := by
  rw [removeEdge_eq h]
  simp only [modify_apply]
  grind

theorem removeEdge_hasRMW (h : (nodes a).edges = es ++ [b]) :
  (nodes.removeEdge a x).hasRMW = (nodes x).hasRMW
  := by
  rw [removeEdge_eq h]
  simp only [modify_apply]
  grind

theorem removeEdge_object (h : (nodes a).edges = es ++ [b]) :
  (nodes.removeEdge a x).object = (nodes x).object
  := by
  rw [removeEdge_eq h]
  simp only [modify_apply]
  grind

/-- Edges and back edges stay mirrors of each other when the last edge of a node is removed. -/
theorem Mirrored.removeEdge (hM : nodes.Mirrored size) (h : (nodes a).edges = es ++ [b]) :
  (nodes.removeEdge a).Mirrored size
  := by
  have hnodup := hM.edges a
  rw [h] at hnodup
  have hb : b ∉ es := by
    intro hmem
    apply List.disjoint_of_nodup_append hnodup hmem List.mem_cons_self
  have hedge : ∀ x y, (nodes.removeEdge a).Edge x y → nodes.Edge x y := by
    intro x y hxy
    simp only [Edge, Worklist.Edge, removeEdge_edges h] at hxy ⊢
    split_ifs at hxy with hxa
    · rw [hxa, h]
      apply List.mem_append_left [b] hxy
    · apply hxy
  constructor
  · intro x y
    have hxy := hM.mirror x y
    have herase := (hM.backEdges b).mem_erase_iff (a := x) (b := a)
    rw [removeEdge_edges h, removeEdge_backEdges h]
    grind
  · intro x
    rw [removeEdge_edges h]
    split_ifs
    · apply hnodup.of_append_left
    · apply hM.edges
  · intro x
    rw [removeEdge_backEdges h]
    split_ifs
    · apply (hM.backEdges b).erase
    · apply hM.backEdges
  · intro x y hxy
    apply hM.source x y (hedge x y hxy)
  · intro x y hxy
    apply hM.target x y (hedge x y hxy)
  · intro x r hx
    rw [removeEdge_hasRMW h] at hx
    apply hM.read x r hx
  · intro x r hx
    rw [removeEdge_hasRMW h] at hx
    apply hM.rmw x r hx

/-! ### What was added -/

/-- The nodes have the edges of `base` and, behind these, as many more as there are entries
pending. -/
structure Grown (base nodes : Nodes) (pending : List ℕ) : Prop where
  edges : ∀ a, ∃ es, (nodes a).edges = (base a).edges ++ es ∧ es.length = pending.count a
  backEdges : ∀ a, (base a).backEdges <+: (nodes a).backEdges

theorem Grown.refl (base : Nodes) :
  base.Grown base []
  := by
  constructor
  · intro a
    use []
    simp
  · intro a
    apply List.prefix_rfl

/-- An edge that is added is one more to take away. -/
theorem Grown.link (h : base.Grown nodes pending) (a b : ℕ) :
  base.Grown (nodes.link a b) (pending ++ [a])
  := by
  constructor
  · intro x
    obtain ⟨es, hedges, hlen⟩ := h.edges x
    rw [link_edges]
    by_cases hx : x = a
    · subst hx
      use es ++ [b]
      simp [hedges, hlen]
    · use es
      simp [hx, hedges, hlen, Ne.symm hx]
  · intro x
    rw [link_backEdges]
    split_ifs with hx
    · subst hx
      apply (h.backEdges x).trans (List.prefix_append _ _)
    · apply h.backEdges

/-- What is to be taken away depends on edges and back edges only. -/
theorem Grown.congr {nodes' : Nodes} (h : base.Grown nodes pending)
    (hedges : ∀ a, (nodes' a).edges = (nodes a).edges)
    (hback : ∀ a, (nodes' a).backEdges = (nodes a).backEdges) :
  base.Grown nodes' pending
  := by
  constructor
  · intro a
    rw [hedges]
    apply h.edges
  · intro a
    rw [hback]
    apply h.backEdges

/-- The first of the entries pending is removed. -/
theorem Grown.removeEdge {size₀ : ℕ} (hB : base.Mirrored size₀) (hM : nodes.Mirrored size)
    (h : base.Grown nodes (a :: pending)) :
  ∃ es b, (nodes a).edges = es ++ [b] ∧ base.Grown (nodes.removeEdge a) pending
  := by
  obtain ⟨es, hedges, hlen⟩ := h.edges a
  rw [List.count_cons_self] at hlen
  rcases List.eq_nil_or_concat es with rfl | ⟨es, b, rfl⟩
  · simp at hlen
  rw [List.concat_eq_append] at hedges hlen
  rw [← List.append_assoc] at hedges
  use (base a).edges ++ es, b, hedges
  constructor
  · intro x
    rw [removeEdge_edges hedges]
    by_cases hx : x = a
    · subst hx
      use es
      simpa using hlen
    · obtain ⟨es', hedges', hlen'⟩ := h.edges x
      use es'
      simpa [hx, Ne.symm hx] using And.intro hedges' hlen'
  · intro x
    obtain ⟨back, hback⟩ := h.backEdges x
    rw [removeEdge_backEdges hedges]
    split_ifs with hx
    · subst hx
      have hnodup := hM.edges a
      rw [hedges] at hnodup
      have hnot : a ∉ (base x).backEdges := by
        intro hmem
        have hedge := (hB.mirror a x).mpr hmem
        apply List.disjoint_of_nodup_append hnodup (List.mem_append_left es hedge)
        apply List.mem_singleton_self
      rw [← hback, List.erase_append_right _ hnot]
      apply List.prefix_append
    · apply h.backEdges

/-- With nothing pending, the edges are those of `base`. -/
theorem Grown.restored {size₀ : ℕ} (hB : base.Mirrored size₀) (hM : nodes.Mirrored size)
    (h : base.Grown nodes []) (a : ℕ) :
  (nodes a).edges = (base a).edges ∧ (nodes a).backEdges = (base a).backEdges
  := by
  have hedges : ∀ a, (nodes a).edges = (base a).edges := by
    intro a
    obtain ⟨es, hedges, hlen⟩ := h.edges a
    rw [List.eq_nil_of_length_eq_zero hlen, List.append_nil] at hedges
    apply hedges
  use hedges a
  obtain ⟨back, hback⟩ := h.backEdges a
  have hnil : back = [] := by
    apply List.eq_nil_iff_forall_not_mem.mpr
    intro x hx
    have hmem : x ∈ (nodes a).backEdges := by
      rw [← hback]
      apply List.mem_append_right _ hx
    have hedge := (hM.mirror x a).mpr hmem
    rw [hedges x] at hedge
    have hnodup := hM.backEdges a
    rw [← hback] at hnodup
    apply List.disjoint_of_nodup_append hnodup ((hB.mirror x a).mp hedge) hx
  rw [← hback, hnil, List.append_nil]

/-- The loop over `rollbackvector`. -/
theorem Grown.removeEdges {size₀ : ℕ} (hB : base.Mirrored size₀) (hM : nodes.Mirrored size)
    (h : base.Grown nodes pending) (x : ℕ) :
  ((pending.foldl Nodes.removeEdge nodes) x).edges = (base x).edges ∧
    ((pending.foldl Nodes.removeEdge nodes) x).backEdges = (base x).backEdges ∧
    ((pending.foldl Nodes.removeEdge nodes) x).hasRMW = (nodes x).hasRMW ∧
    ((pending.foldl Nodes.removeEdge nodes) x).object = (nodes x).object
  := by
  induction pending generalizing nodes with
  | nil =>
      obtain ⟨hedges, hback⟩ := h.restored hB hM x
      exact ⟨hedges, hback, rfl, rfl⟩
  | cons a pending ih =>
      obtain ⟨es, b, hedges, hgrown⟩ := h.removeEdge hB hM
      rw [List.foldl_cons]
      obtain ⟨he, hb, hr, ho⟩ := ih (hM.removeEdge hedges) hgrown
      rw [hr, ho, removeEdge_hasRMW hedges, removeEdge_object hedges]
      exact ⟨he, hb, rfl, rfl⟩

end Remove

/-- The loop over `rmwrollbackvector`. -/
theorem clearRMWs (nodes : Nodes) (pending : List ℕ) (x : ℕ) :
  ((pending.foldl clearRMW nodes) x).edges = (nodes x).edges ∧
    ((pending.foldl clearRMW nodes) x).backEdges = (nodes x).backEdges ∧
    ((pending.foldl clearRMW nodes) x).hasRMW
      = (if x ∈ pending then none else (nodes x).hasRMW) ∧
    ((pending.foldl clearRMW nodes) x).object = (nodes x).object
  := by
  induction pending generalizing nodes with
  | nil => simp
  | cons a pending ih =>
      obtain ⟨he, hb, hr, ho⟩ := ih (nodes.clearRMW a)
      rw [List.foldl_cons, he, hb, hr, ho]
      simp only [clearRMW, modify_apply, List.mem_cons]
      grind

end Nodes

namespace CycleGraph

/-! ### Since the last commit -/

/-- What has become of the graph `g₀` by changes only. -/
structure Since (g₀ g : CycleGraph) : Prop where
  size : g₀.size ≤ g.size
  object : ∀ n, n ≤ g₀.size → (g.nodes n).object = (g₀.nodes n).object
  grown : g₀.nodes.Grown g.nodes g.rollbackvector
  same : ∀ a, a ∉ g.rmwrollbackvector → (g.nodes a).hasRMW = (g₀.nodes a).hasRMW
  unread : ∀ a, a ∈ g.rmwrollbackvector → (g₀.nodes a).hasRMW = none
  oldCycles : g.oldCycles = g₀.oldCycles

section Since

variable {g₀ g g' : CycleGraph} {a b r : ℕ}

/-- Nothing has changed when the changes start. -/
theorem Since.refl (hroll : g.rollbackvector = []) (hrmw : g.rmwrollbackvector = []) :
  g.Since g
  := by
  constructor
  · apply le_rfl
  · intro n _
    rfl
  · rw [hroll]
    apply Nodes.Grown.refl
  · intro a _
    rfl
  · intro a ha
    rw [hrmw] at ha
    cases ha
  · rfl

/-- New nodes are not rolled back. -/
theorem Since.extends (h : g₀.Since g) (hextends : g.Extends g') :
  g₀.Since g'
  := by
  constructor
  · apply h.size.trans hextends.size
  · intro n hn
    rw [hextends.object n (hn.trans h.size), h.object n hn]
  · rw [hextends.rollbackvector]
    apply h.grown.congr hextends.edges hextends.backEdges
  · intro a ha
    rw [hextends.rmwrollbackvector] at ha
    rw [hextends.hasRMW, h.same a ha]
  · intro a ha
    rw [hextends.rmwrollbackvector] at ha
    apply h.unread a ha
  · rw [hextends.oldCycles, h.oldCycles]

/-- A new edge is noted in `rollbackvector`. -/
theorem Since.linked (h : g₀.Since g) (hlinked : g.Linked a b g') :
  g₀.Since g'
  := by
  constructor
  · rw [hlinked.frame.size]
    apply h.size
  · intro n hn
    rw [hlinked.frame.object, h.object n hn]
  · rw [hlinked.nodes, hlinked.rollbackvector]
    apply h.grown.link
  · intro x hx
    rw [hlinked.rmwrollbackvector] at hx
    rw [hlinked.hasRMW, h.same x hx]
  · intro x hx
    rw [hlinked.rmwrollbackvector] at hx
    apply h.unread x hx
  · rw [hlinked.frame.oldCycles, h.oldCycles]

/-- A new RMW is noted in `rmwrollbackvector`. -/
theorem Since.rmw (h : g₀.Since g) (hrmw : g.Rmw a r g') :
  g₀.Since g'
  := by
  cases hrmw with
  | noted hnoted =>
      constructor
      · rw [hnoted.frame.size]
        apply h.size
      · intro n hn
        rw [hnoted.frame.object, h.object n hn]
      · rw [hnoted.nodes, hnoted.rollbackvector]
        apply h.grown.congr
        · simp
        · simp
      · intro x hx
        rw [hnoted.rmwrollbackvector, List.mem_append, List.mem_singleton, not_or] at hx
        rw [hnoted.nodes, Nodes.note_hasRMW, if_neg hx.2, h.same x hx.1]
      · intro x hx
        rw [hnoted.rmwrollbackvector, List.mem_append, List.mem_singleton] at hx
        by_cases hold : x ∈ g.rmwrollbackvector
        · apply h.unread x hold
        · obtain rfl := hx.resolve_left hold
          rw [← h.same x hold, hnoted.fresh]
      · rw [hnoted.frame.oldCycles, h.oldCycles]
  | second _ hsame =>
      subst hsame
      exact ⟨h.size, h.object, h.grown, h.same, h.unread, h.oldCycles⟩

/-- Edges handed on are noted in `rollbackvector`. -/
theorem Since.transferred {ts : List ℕ} (h : g₀.Since g) (ht : Transferred r ts g g') :
  g₀.Since g'
  := by
  induction ht with
  | done => apply h
  | old _ _ ih => apply ih h
  | link _ hlinked _ _ ih => apply ih (h.linked hlinked)

theorem Since.edged (h : g₀.Since g) (he : g.Edged a b g') :
  g₀.Since g'
  := by
  cases he with
  | old _ hsame =>
      rw [hsame]
      apply h
  | unread hlinked => apply h.linked hlinked
  | settled hlinked => apply h.linked hlinked
  | pushed hlinked _ _ _ _ hlinked' => apply (h.linked hlinked).linked hlinked'

/-- What `rollbackChanges` leaves. -/
structure Restored (g₀ g g' : CycleGraph) : Prop where
  size : g'.size = g.size
  object : ∀ n, (g'.nodes n).object = (g.nodes n).object
  edges : ∀ n, (g'.nodes n).edges = (g₀.nodes n).edges
  backEdges : ∀ n, (g'.nodes n).backEdges = (g₀.nodes n).backEdges
  hasRMW : ∀ n, (g'.nodes n).hasRMW = (g₀.nodes n).hasRMW

/-- `rollbackChanges` takes back all that has been noted. -/
theorem Since.rollback (h₀ : g₀.Sound) (hg : g.Sound) (h : g₀.Since g) :
  g₀.Restored g g.rollbackChanges
  := by
  have hremoved := h.grown.removeEdges h₀.mirrored hg.mirrored
  have hcleared := (g.rollbackvector.foldl Nodes.removeEdge g.nodes).clearRMWs g.rmwrollbackvector
  constructor
  · rfl
  · intro n
    exact (hcleared n).2.2.2.trans (hremoved n).2.2.2
  · intro n
    exact (hcleared n).1.trans (hremoved n).1
  · intro n
    exact (hcleared n).2.1.trans (hremoved n).2.1
  · intro n
    apply (hcleared n).2.2.1.trans
    rw [(hremoved n).2.2.1]
    split_ifs with hn
    · rw [h.unread n hn]
    · apply h.same n hn

/-- A restored graph is sound. -/
theorem Restored.sound (h : g₀.Restored g g') (hle : g₀.size ≤ g.size) (h₀ : g₀.Sound)
    (hg : g.Sound) (hdiscovered : g'.discovered = g.discovered)
    (hactions : g'.actionToNode = g.actionToNode)
    (hpromises : g'.promiseToNode = g.promiseToNode) :
  g'.Sound
  := by
  constructor
  · apply hg.tables.congr _ hactions hpromises h.size h.object
    rw [hdiscovered]
    apply hg.tables.discovered
  · apply h₀.mirrored.congr h.edges h.backEdges h.hasRMW
    rw [h.size]
    apply hle

/-- Rolled back, the graph is still what has become of `g₀`. -/
theorem Restored.since (h : g₀.Since g) (hr : g₀.Restored g g.rollbackChanges) :
  g₀.Since g.rollbackChanges
  := by
  constructor
  · apply h.size
  · intro n hn
    rw [hr.object, h.object n hn]
  · apply (Nodes.Grown.refl g₀.nodes).congr hr.edges hr.backEdges
  · intro a _
    apply hr.hasRMW
  · intro a ha
    cases ha
  · apply h.oldCycles

end Since

/-! ### Runs -/

section Runs

variable {g₀ g g' : CycleGraph} {op : Op} {h h₀ : List Op}

/-- `startChanges` returns when its assertions hold. -/
theorem startChanges_eq_some :
  g.startChanges = some g' ↔
    g' = g ∧ g.rollbackvector = [] ∧ g.rmwrollbackvector = [] ∧ g.oldCycles = g.hasCycles
  := by
  rw [startChanges]
  split_ifs with hclean
  · simp [hclean, eq_comm]
  · simp [hclean]

/-- The calls other than a commit, on a graph that has become of `g₀`. -/
theorem Since.apply (h₀ : g₀.Sound) (hg : g.Sound) (hsize : g.size + 1 < 2 ^ 29)
    (h : g₀.Since g) (hop : op ≠ .commitChanges) (happly : g.apply op = some g') :
  g'.Sound ∧ g'.size ≤ g.size + 2 ∧ g₀.Since g'
  := by
  cases op with
  | addEdge s t =>
      obtain ⟨⟨new, _⟩, hadd, rfl⟩ := Option.map_eq_some_iff.mp happly
      obtain ⟨a, b, g₁, hsound, hextends, hsize₁, ha, hb, hedged⟩ := addEdge_cases hg hsize hadd
      obtain ⟨hsound', hframe⟩ := hedged.sound hsound
      refine ⟨hsound', ?_, (h.extends hextends).edged hedged⟩
      rw [hframe.size]
      apply hsize₁
  | addRMWEdge s rmw =>
      obtain ⟨a, r, g₁, g₂, g₃, hsound, hextends, hsize₁, ha, hr, -, hrmw, ht, hsound₃, hframe₃,
        hedged⟩ := addRMWEdge_cases hg hsize happly
      obtain ⟨hsound', hframe⟩ := hedged.sound hsound₃
      obtain ⟨-, hframe₂, -⟩ := hrmw.sound hsound
      refine ⟨hsound', ?_, (((h.extends hextends).rmw hrmw).transferred ht).edged hedged⟩
      rw [hframe.size, hframe₃.size, hframe₂.size]
      apply hsize₁
  | startChanges =>
      obtain ⟨rfl, -⟩ := startChanges_eq_some.mp happly
      exact ⟨hg, Nat.le_add_right _ 2, h⟩
  | commitChanges => cases hop rfl
  | rollbackChanges =>
      cases happly
      have hrestored := h.rollback h₀ hg
      refine ⟨?_, Nat.le_add_right _ 2, hrestored.since h⟩
      apply hrestored.sound h.size h₀ hg rfl rfl rfl

/-- `commitChanges` forgets what has been noted. -/
theorem Sound.commit (hg : g.Sound) :
  g.commitChanges.Sound ∧ g.commitChanges.Since g.commitChanges
  := by
  constructor
  · constructor
    · exact hg.tables.congr hg.tables.discovered rfl rfl rfl (fun _ => rfl)
    · apply hg.mirrored
  · apply Since.refl
    · rfl
    · rfl

theorem machine_next {e : List Op} (h : machine.next g op = some (g', e)) :
  e = [op] ∧ g.apply op = some g'
  := by
  obtain ⟨g₁, happly, heq⟩ := Option.map_eq_some_iff.mp h
  cases heq
  exact ⟨rfl, happly⟩

/-- What holds of every graph that can come about. -/
structure Fit (g : CycleGraph) (h : List Op) : Prop where
  sound : g.Sound
  size : g.size ≤ 2 * h.length
  since : ∃ g₀ : CycleGraph, g₀.Sound ∧ g₀.Since g

/-- A state that a bounded run reaches is sound, and its nodes fit into the tables. -/
theorem reachable_fit {G : CycleGraph → Op → Prop} (hreach : machine.Reachable G h g)
    (hlen : h.length ≤ 2 ^ 28) :
  g.Fit h
  := by
  revert hlen
  apply hreach.invariant (I := fun g h => h.length ≤ 2 ^ 28 → g.Fit h)
  · rintro _ rfl _
    refine ⟨sound_new, Nat.zero_le _, new, sound_new, ?_⟩
    apply Since.refl
    · rfl
    · rfl
  · intro g h op g' e ih _ hnext hlen
    obtain ⟨rfl, happly⟩ := machine_next hnext
    rw [List.length_append, List.length_singleton] at hlen
    obtain ⟨hsound, hsize, g₀, hsound₀, hsince⟩ := ih (by omega)
    by_cases hop : op = .commitChanges
    · subst hop
      cases happly
      obtain ⟨hcommit, hrefl⟩ := hsound.commit
      refine ⟨hcommit, ?_, _, hcommit, hrefl⟩
      rw [List.length_append]
      apply hsize.trans
      omega
    · obtain ⟨hsound', hsize', hsince'⟩ := hsince.apply hsound₀ hsound (by omega) hop happly
      refine ⟨hsound', ?_, g₀, hsound₀, hsince'⟩
      rw [List.length_append, List.length_singleton]
      omega

/-- The calls between `startChanges` and `rollbackChanges` are noted as long as nothing is
committed. -/
theorem Since.run {G : CycleGraph → Op → Prop} (hfit : g₀.Fit h₀)
    (hclean : g₀.rollbackvector = [] ∧ g₀.rmwrollbackvector = [])
    (hrun : machine.Run G g₀ h g) (hcommit : .commitChanges ∉ h)
    (hlen : (h₀ ++ h).length ≤ 2 ^ 28) :
  g.Sound ∧ g₀.Since g
  := by
  have hall : h₀.length + h.length ≤ 2 ^ 28 → .commitChanges ∉ h →
      g.Sound ∧ g.size ≤ 2 * (h₀.length + h.length) ∧ g₀.Since g := by
    apply hrun.invariant (I := fun g h => h₀.length + h.length ≤ 2 ^ 28 → .commitChanges ∉ h →
      g.Sound ∧ g.size ≤ 2 * (h₀.length + h.length) ∧ g₀.Since g)
    · intro _ _
      refine ⟨hfit.sound, hfit.size, ?_⟩
      apply Since.refl hclean.1 hclean.2
    · intro g h op g' e ih _ hnext hlen hcommit
      obtain ⟨rfl, happly⟩ := machine_next hnext
      rw [List.length_append, List.length_singleton] at hlen
      rw [List.mem_append, List.mem_singleton, not_or] at hcommit
      obtain ⟨hsound, hsize, hsince⟩ := ih (by omega) hcommit.1
      obtain ⟨hsound', hsize', hsince'⟩ :=
        hsince.apply hfit.sound hsound (by omega) (Ne.symm hcommit.2) happly
      refine ⟨hsound', ?_, hsince'⟩
      rw [List.length_append, List.length_singleton]
      omega
  rw [List.length_append] at hlen
  obtain ⟨hsound, -, hsince⟩ := hall hlen hcommit
  exact ⟨hsound, hsince⟩

/-- The new nodes have no edges. -/
theorem Restored.reaches_iff (h₀ : g₀.Sound) (hsince : g₀.Since g) (h : g₀.Restored g g')
    {s t : Object} (hst : s ≠ t) :
  (∃ m n, g'.Stands m s ∧ g'.Stands n t ∧ Relation.ReflTransGen g'.nodes.Edge m n)
    ↔ ∃ m n, g₀.Stands m s ∧ g₀.Stands n t ∧ Relation.ReflTransGen g₀.nodes.Edge m n
  := by
  have hedge : g'.nodes.Edge = g₀.nodes.Edge := by
    ext m n
    simp only [Nodes.Edge, Worklist.Edge, h.edges]
  have hstands : ∀ {n o}, n ≤ g₀.size → (g'.Stands n o ↔ g₀.Stands n o) := by
    intro n o hn
    have hobject : (g'.nodes n).object = (g₀.nodes n).object := by
      rw [h.object, hsince.object n hn]
    constructor
    · intro hs
      exact ⟨hs.pos, hn, by rw [← hobject]; apply hs.object⟩
    · intro hs
      refine ⟨hs.pos, ?_, by rw [hobject]; apply hs.object⟩
      rw [h.size]
      apply hn.trans hsince.size
  rw [hedge]
  constructor
  · rintro ⟨m, n, hm, hn, hpath⟩
    have hne : m ≠ n := by
      rintro rfl
      apply hst
      rw [← hm.object, ← hn.object]
    rcases hpath.cases_head with heq | ⟨x, hfirst, -⟩
    · cases hne heq
    rcases hpath.cases_tail with heq | ⟨y, -, hlast⟩
    · cases hne heq.symm
    have hle := (h₀.mirrored.source m x hfirst).2
    have hle' := (h₀.mirrored.target y n hlast).2
    exact ⟨m, n, (hstands hle).mp hm, (hstands hle').mp hn, hpath⟩
  · rintro ⟨m, n, hm, hn, hpath⟩
    exact ⟨m, n, (hstands hm.le).mpr hm, (hstands hn.le).mpr hn, hpath⟩

/-- Whatever is done from a `startChanges` on without a commit, `rollbackChanges` brings back
the edges, the back edges and the RMWs of every node and `hasCycles`, and `checkReachable`
answers as before. -/
theorem rollback_restores (hreach : machine.Reachable Machine.Free h₀ g₀)
    (hstart : g₀.startChanges = some g₀) (hrun : machine.Run Machine.Free g₀ h g)
    (hcommit : .commitChanges ∉ h) (hlen : (h₀ ++ h).length ≤ 2 ^ 28) :
  (∀ n, (g.rollbackChanges.nodes n).edges = (g₀.nodes n).edges ∧
      (g.rollbackChanges.nodes n).backEdges = (g₀.nodes n).backEdges ∧
      (g.rollbackChanges.nodes n).hasRMW = (g₀.nodes n).hasRMW) ∧
    g.rollbackChanges.checkForCycles = g₀.checkForCycles ∧
    ∀ s t, s ≠ t → (g.rollbackChanges.checkReachable s t).map Prod.fst
      = (g₀.checkReachable s t).map Prod.fst
  := by
  have hlen₀ : h₀.length ≤ 2 ^ 28 := by
    rw [List.length_append] at hlen
    omega
  have hfit₀ := reachable_fit hreach hlen₀
  obtain ⟨-, hroll, hrmw, hold⟩ := startChanges_eq_some.mp hstart
  obtain ⟨hsound, hsince⟩ := Since.run hfit₀ ⟨hroll, hrmw⟩ hrun hcommit hlen
  have hrestored := hsince.rollback hfit₀.sound hsound
  have hsound' : g.rollbackChanges.Sound :=
    hrestored.sound hsince.size hfit₀.sound hsound rfl rfl rfl
  have hsize := reachable_fit (hreach.trans hrun) hlen
  refine ⟨?_, ?_, ?_⟩
  · intro n
    exact ⟨hrestored.edges n, hrestored.backEdges n, hrestored.hasRMW n⟩
  · exact hsince.oldCycles.trans hold
  · intro s t hst
    by_cases hnull : s.addr = 0 ∨ t.addr = 0
    · rw [checkReachable_null hnull, checkReachable_null hnull]
    · rw [not_or] at hnull
      have hbound : g.size < 2 ^ 30 := by
        have := hsize.size
        omega
      obtain ⟨b, g₁, hb, hiff⟩ := hsound'.tables.checkReachable hsound'.mirrored hbound
        hnull.1 hnull.2
      obtain ⟨b₀, g₂, hb₀, hiff₀⟩ := hfit₀.sound.tables.checkReachable hfit₀.sound.mirrored
        (hsince.size.trans_lt hbound) hnull.1 hnull.2
      rw [hb, hb₀]
      have heq : b = true ↔ b₀ = true := by
        rw [hiff, hiff₀]
        apply hrestored.reaches_iff hfit₀.sound hsince hst
      simpa using heq

end Runs

/-- A cycle rolled back. -/
theorem rollback_restores_cycle :
  ∃ g₀ g, machine.Reachable Machine.Free [.addEdge (.action 16) (.action 32), .commitChanges] g₀ ∧
    machine.Run Machine.Free g₀
      [.addRMWEdge (.action 32) 48, .addEdge (.action 48) (.promise 16),
        .addEdge (.promise 16) (.action 16)] g ∧
    g.checkForCycles = true ∧ g.rollbackChanges.checkForCycles = false
  := by
  have hexec : ((machine.exec Machine.Free new
      [.addEdge (.action 16) (.action 32), .commitChanges]).bind fun r =>
        (machine.exec Machine.Free r.1
          [.addRMWEdge (.action 32) 48, .addEdge (.action 48) (.promise 16),
            .addEdge (.promise 16) (.action 16)]).map fun r' =>
          decide ((r.1.rollbackvector = [] ∧ r.1.rmwrollbackvector = []) ∧
            (r.1.oldCycles = false ∧ r.1.hasCycles = false ∧ r'.1.hasCycles = true) ∧
            r.2 = [.addEdge (.action 16) (.action 32), .commitChanges] ∧
            r'.2 = [.addRMWEdge (.action 32) 48, .addEdge (.action 48) (.promise 16),
              .addEdge (.promise 16) (.action 16)]))
      = some true := by decide +kernel
  obtain ⟨⟨g₀, h₀⟩, hexec₀, hexec⟩ := Option.bind_eq_some_iff.mp hexec
  obtain ⟨⟨g, h⟩, hexec₁, heq⟩ := Option.map_eq_some_iff.mp hexec
  obtain ⟨⟨hroll, hrmw⟩, ⟨hold, hcycles, hcycles'⟩, rfl, rfl⟩ := of_decide_eq_true heq
  have hreach := Machine.exec_reachable _ rfl hexec₀
  have hrun := Machine.exec_run hexec₁
  use g₀, g, hreach, hrun, hcycles'
  have hstart : g₀.startChanges = some g₀ :=
    startChanges_eq_some.mpr ⟨rfl, hroll, hrmw, hold.trans hcycles.symm⟩
  exact (rollback_restores hreach hstart hrun (by simp) (by simp)).2.1.trans hcycles

end CycleGraph

import ParallelArch.Graphs.Constraints
import ParallelArch.ModelChecker.CycleNodes

/-!
# The changes of the cycle graph

What a call of `addEdge` or `addRMWEdge` does to the graph: nodes are added, single edges are
linked, each with its entry in `rollbackvector` (`Linked`), and an RMW is noted (`Noted`).
`addNodeEdge_cases` and `addNodeRMW_cases` say which of these a call does, and when it sets
`hasCycles`.
-/

namespace Nodes

variable {nodes : Nodes} {size a b r x : ℕ}

/-! ### RMWs -/

/-- A node is read by an RMW. -/
def note (nodes : Nodes) (this node : ℕ) : Nodes :=
  nodes.modify this fun n => { n with hasRMW := some node }

/-- `setRMW` notes the RMW of a node that has none, and changes nothing otherwise. -/
theorem setRMW_cases (nodes : Nodes) (a r : ℕ) :
  (nodes a).hasRMW = none ∧ nodes.setRMW a r = (false, nodes.note a r) ∨
    (nodes a).hasRMW ≠ none ∧ nodes.setRMW a r = (true, nodes)
  := by
  cases h : (nodes a).hasRMW with
  | none =>
      left
      simp [setRMW, h, note]
  | some r' =>
      right
      simp [setRMW, h]

/-- Noting an RMW changes no edge. -/
@[simp]
theorem note_edges :
  (nodes.note a r x).edges = (nodes x).edges
  := by
  simp only [note, modify_apply]
  grind

@[simp]
theorem note_backEdges :
  (nodes.note a r x).backEdges = (nodes x).backEdges
  := by
  simp only [note, modify_apply]
  grind

@[simp]
theorem note_object :
  (nodes.note a r x).object = (nodes x).object
  := by
  simp only [note, modify_apply]
  grind

/-- Noting an RMW changes the RMW of one node. -/
theorem note_hasRMW :
  (nodes.note a r x).hasRMW = if x = a then some r else (nodes x).hasRMW
  := by
  simp only [note, modify_apply]
  grind

@[simp]
theorem edge_note :
  (nodes.note a r).Edge = nodes.Edge
  := by
  ext x y
  simp only [Edge, Worklist.Edge, note_edges]

/-- Edges and back edges stay mirrors of each other when an RMW is noted. -/
theorem Mirrored.note (h : nodes.Mirrored size) (ha : 1 ≤ a ∧ a ≤ size) (hr : 1 ≤ r ∧ r ≤ size) :
  (nodes.note a r).Mirrored size
  := by
  constructor
  · simpa using h.mirror
  · simpa using h.edges
  · simpa using h.backEdges
  · simpa using h.source
  · simpa using h.target
  · intro x y hx
    rw [note_hasRMW] at hx
    split_ifs at hx with hxa
    · rw [hxa]
      apply ha
    · apply h.read x y hx
  · intro x y hx
    rw [note_hasRMW] at hx
    split_ifs at hx with hxa
    · rw [← Option.some.inj hx]
      apply hr
    · apply h.rmw x y hx

/-- From `r` along the RMWs to `e`, which is `tonode` or the last. -/
structure Ends (nodes : Nodes) (tonode r e : ℕ) : Prop where
  path : Relation.ReflTransGen (fun x y => x ≠ tonode ∧ (nodes x).hasRMW = some y) r e
  stop : e = tonode ∨ (nodes e).hasRMW = none

/-- The walk of `addNodeEdge` along the RMWs stops where `Ends` says. -/
theorem rmwEnd_ends {tonode fuel r e : ℕ} (h : nodes.rmwEnd tonode fuel r = some e) :
  nodes.Ends tonode r e
  := by
  induction fuel generalizing r with
  | zero => cases h
  | succ fuel ih =>
      simp only [rmwEnd] at h
      split_ifs at h with hr
      · cases h
        exact ⟨.refl, .inl hr⟩
      · cases hnext : (nodes r).hasRMW with
        | none =>
            rw [hnext] at h
            cases h
            exact ⟨.refl, .inr hnext⟩
        | some next =>
            rw [hnext] at h
            obtain ⟨hpath, hstop⟩ := ih h
            exact ⟨.head ⟨hr, hnext⟩ hpath, hstop⟩

/-- The chain of RMWs of a node ends at a node. -/
theorem Mirrored.ends (h : nodes.Mirrored size) (hr : 1 ≤ r ∧ r ≤ size) {tonode e : ℕ}
    (hends : nodes.Ends tonode r e) :
  1 ≤ e ∧ e ≤ size
  := by
  cases hends.path with
  | refl => apply hr
  | tail _ hlast => apply h.rmw _ _ hlast.2

/-- Along a chain that ends, the loop ends. -/
theorem rmwEnd_total {d fuel r e : ℕ} (h : Adjacent.Chain (fun n => (nodes n).hasRMW) r d e)
    (hfuel : d < fuel) (tonode : ℕ) :
  ∃ e', nodes.rmwEnd tonode fuel r = some e'
  := by
  induction h generalizing fuel with
  | @last r hnone =>
      obtain ⟨fuel, rfl⟩ := Nat.exists_eq_add_one_of_ne_zero (by omega : fuel ≠ 0)
      use r
      simp [rmwEnd, hnone]
  | @step r next e d hnext rest ih =>
      obtain ⟨fuel, rfl⟩ := Nat.exists_eq_add_one_of_ne_zero (by omega : fuel ≠ 0)
      simp only [rmwEnd, hnext]
      split_ifs
      · use r
      · apply ih (by omega)

end Nodes

namespace CycleGraph

/-- What holds of the tables and of the nodes. -/
structure Sound (g : CycleGraph) : Prop where
  tables : g.Tables
  mirrored : g.nodes.Mirrored g.size

/-- The new graph is sound. -/
theorem sound_new :
  new.Sound
  := by
  have hfinds : ∀ kind, new.Finds (HashTable.new 1024) kind := by
    intro kind
    refine ⟨⟨_, HashTable.Holds.new (k := 10) (by omega) (by omega), ?_⟩, by simp [HashTable.new]⟩
    intro key n _
    constructor
    · rintro ⟨⟩
    · rintro ⟨hpos, hle, -⟩
      have : n ≤ 0 := hle
      omega
  constructor
  · constructor
    · exact ⟨_, HashTable.Holds.new (k := 4) (by omega) (by omega)⟩
    · apply hfinds
    · apply hfinds
  · constructor
    all_goals simp [new, Nodes.Edge, Worklist.Edge]

/-- The parts of the graph that no edge and no RMW changes. -/
structure Frame (g g' : CycleGraph) : Prop where
  size : g'.size = g.size
  object : ∀ n, (g'.nodes n).object = (g.nodes n).object
  actionToNode : g'.actionToNode = g.actionToNode
  promiseToNode : g'.promiseToNode = g.promiseToNode
  oldCycles : g'.oldCycles = g.oldCycles

/-- `g'` is `g` with one more edge. -/
structure Linked (g : CycleGraph) (a b : ℕ) (g' : CycleGraph) : Prop where
  sound : g'.Sound
  frame : g.Frame g'
  fresh : ¬ g.nodes.Edge a b
  nodes : g'.nodes = g.nodes.link a b
  rollbackvector : g'.rollbackvector = g.rollbackvector ++ [a]
  rmwrollbackvector : g'.rmwrollbackvector = g.rmwrollbackvector

/-- `g'` is `g` with an RMW noted. -/
structure Noted (g : CycleGraph) (a r : ℕ) (g' : CycleGraph) : Prop where
  sound : g'.Sound
  frame : g.Frame g'
  fresh : (g.nodes a).hasRMW = none
  nodes : g'.nodes = g.nodes.note a r
  rollbackvector : g'.rollbackvector = g.rollbackvector
  rmwrollbackvector : g'.rmwrollbackvector = g.rmwrollbackvector ++ [a]
  hasCycles : g'.hasCycles = g.hasCycles

/-- The cycles that the edge from `a` to `b` closes have been looked for. -/
def Checked (g : CycleGraph) (a b : ℕ) (g' : CycleGraph) : Prop :=
  g'.hasCycles = true ↔ g.hasCycles = true ∨ Relation.ReflTransGen g'.nodes.Edge b a

variable {g g' : CycleGraph} {a b r : ℕ}

/-- A graph with the tables, the objects and the size of a sound one is sound if its edges and
back edges mirror each other. -/
theorem Sound.congr (h : g.Sound) (hframe : g.Frame g')
    (hdiscovered : ∃ f, HashTable.Holds shift g'.discovered f)
    (hM : g'.nodes.Mirrored g.size) :
  g'.Sound
  := by
  constructor
  · apply h.tables.congr hdiscovered hframe.actionToNode hframe.promiseToNode hframe.size
      hframe.object
  · rw [hframe.size]
    apply hM

/-- `hasCycles` is set when the end of the new edge reaches its start. -/
theorem Sound.recheck (h : g.Sound) (hsize : g.size < 2 ^ 30) (ha : 1 ≤ a ∧ a ≤ g.size) :
  ∃ hasCycles discovered, g.recheck a b = some { g with hasCycles, discovered } ∧
    (hasCycles = true ↔ g.hasCycles = true ∨ Relation.ReflTransGen g.nodes.Edge a b) ∧
    ∃ f, HashTable.Holds shift discovered f
  := by
  cases hcycles : g.hasCycles with
  | true =>
      refine ⟨true, g.discovered, ?_, by simp, h.tables.discovered⟩
      rw [CycleGraph.recheck, if_pos hcycles, ← hcycles]
  | false =>
      obtain ⟨c, discovered, hreaches, hc, hholds⟩ := h.tables.reaches h.mirrored hsize (n := b) ha
      refine ⟨c, discovered, ?_, by simpa using hc, hholds⟩
      rw [CycleGraph.recheck, if_neg (by simp [hcycles]), hreaches]
      rfl

/-- The search for a cycle does not look at the rollback vectors. -/
theorem recheck_rollbackvector (g : CycleGraph) (rollbackvector : List ℕ) (a b : ℕ) :
  recheck { g with rollbackvector } a b = (g.recheck a b).map fun g => { g with rollbackvector }
  := by
  simp only [CycleGraph.recheck, CycleGraph.reaches]
  split_ifs
  · rfl
  · cases g.discovered.reset.put shift a a with
    | none => rfl
    | some discovered =>
        rw [Option.bind_some, Option.bind_some, Option.map_map, Option.map_map, Option.map_map]
        rfl

/-- One edge is linked, and the cycles are looked for. -/
theorem Sound.link (h : g.Sound) (hsize : g.size < 2 ^ 30) (ha : 1 ≤ a ∧ a ≤ g.size)
    (hb : 1 ≤ b ∧ b ≤ g.size) (hfresh : ¬ g.nodes.Edge a b) :
  ∃ g', g.Linked a b g' ∧ g.Checked a b g' ∧ ∀ rollbackvector,
    CycleGraph.recheck { g with nodes := g.nodes.link a b, rollbackvector } b a
      = some { g' with rollbackvector }
  := by
  have hM := h.mirrored.link ha hb hfresh
  have hsound : Sound { g with nodes := g.nodes.link a b } := by
    refine h.congr ?_ h.tables.discovered hM
    constructor <;> simp
  obtain ⟨c, discovered, hrecheck, hc, hholds⟩ := hsound.recheck hsize (b := a) hb
  use { g with nodes := g.nodes.link a b, hasCycles := c, discovered,
               rollbackvector := g.rollbackvector ++ [a] }
  refine ⟨⟨?_, ?_, hfresh, rfl, rfl, rfl⟩, hc, ?_⟩
  · refine hsound.congr ?_ hholds hM
    constructor <;> simp
  · constructor <;> simp
  · intro rollbackvector
    apply (recheck_rollbackvector { g with nodes := g.nodes.link a b } rollbackvector b a).trans
    rw [hrecheck]
    rfl

/-! ### An edge -/

/-- What `addNodeEdge` can do. -/
inductive Edged (g : CycleGraph) (a b : ℕ) (g' : CycleGraph) : Prop where
  | old (edge : g.nodes.Edge a b) (same : g' = g)
  | unread (linked : g.Linked a b g') (checked : g.Checked a b g')
      (unread : (g.nodes a).hasRMW = none)
  | settled {r e : ℕ} (linked : g.Linked a b g') (checked : g.Checked a b g')
      (read : (g.nodes a).hasRMW = some r) (ends : g.nodes.Ends b r e)
      (settled : e = b ∨ g'.nodes.Edge e b)
  | pushed {r e : ℕ} {g₁ : CycleGraph} (linked : g.Linked a b g₁) (checked : g.Checked a b g₁)
      (read : (g.nodes a).hasRMW = some r) (ends : g.nodes.Ends b r e) (ne : e ≠ b)
      (linked' : g₁.Linked e b g') (checked' : g₁.Checked e b g')

/-- Where a chain of RMWs ends depends on the RMWs only. -/
theorem ends_congr {nodes nodes' : Nodes} (h : ∀ n, (nodes' n).hasRMW = (nodes n).hasRMW)
    {tonode r e : ℕ} (hends : nodes.Ends tonode r e) :
  nodes'.Ends tonode r e
  := by
  obtain ⟨hpath, hstop⟩ := hends
  constructor
  · simpa only [h] using hpath
  · simpa only [h] using hstop

/-- A new edge leaves the RMWs as they are. -/
theorem Linked.hasRMW (h : g.Linked a b g') (n : ℕ) :
  (g'.nodes n).hasRMW = (g.nodes n).hasRMW
  := by rw [h.nodes, Nodes.link_hasRMW]

/-- `addNodeEdge` finds the edge, or adds it and perhaps one behind the last RMW of the chain that
starts at its source. -/
theorem addNodeEdge_cases (h : g.Sound) (hsize : g.size < 2 ^ 30) (ha : 1 ≤ a ∧ a ≤ g.size)
    (hb : 1 ≤ b ∧ b ≤ g.size) {new : Bool} (hadd : g.addNodeEdge a b = some (new, g')) :
  g.Edged a b g'
  := by
  rw [addNodeEdge, Nodes.addEdge] at hadd
  split_ifs at hadd with hedge
  · cases hadd
    exact .old hedge rfl
  · obtain ⟨g₁, hlinked, hchecked, hrecheck⟩ := h.link hsize ha hb hedge
    rw [← hlinked.rollbackvector] at hadd
    simp only [hrecheck, Option.bind_some, Option.map_eq_some_iff] at hadd
    obtain ⟨g₂, hpush, hg₂⟩ := hadd
    cases hg₂
    rw [addNodeEdgeRMW, hlinked.hasRMW] at hpush
    cases hread : (g.nodes a).hasRMW with
    | none =>
        rw [hread] at hpush
        cases hpush
        exact .unread hlinked hchecked hread
    | some r =>
        rw [hread] at hpush
        simp only [Option.bind_eq_some_iff] at hpush
        obtain ⟨e, hend, hpush⟩ := hpush
        have hends := Nodes.rmwEnd_ends hend
        have he := hlinked.sound.mirrored.ends (hlinked.sound.mirrored.rmw a r
          (by rw [hlinked.hasRMW, hread])) hends
        have hends' : g.nodes.Ends b r e := ends_congr (fun n => (hlinked.hasRMW n).symm) hends
        split_ifs at hpush with heb
        · cases hpush
          exact .settled hlinked hchecked hread hends' (.inl heb)
        · rw [Nodes.addEdge] at hpush
          split_ifs at hpush with hedge'
          · cases hpush
            exact .settled hlinked hchecked hread hends' (.inr hedge')
          · have hsize₁ := hlinked.frame.size
            obtain ⟨g₃, hlinked', hchecked', hrecheck'⟩ := hlinked.sound.link
              (by omega) he (by omega) hedge'
            simp only [hrecheck' g₁.rollbackvector, Option.map_some] at hpush
            rw [← hlinked'.rollbackvector] at hpush
            cases hpush
            exact .pushed hlinked hchecked hread hends' heb hlinked' hchecked'

theorem Frame.refl (g : CycleGraph) :
  g.Frame g
  := by constructor <;> simp

theorem Frame.trans {g₁ g₂ g₃ : CycleGraph} (h : g₁.Frame g₂) (h' : g₂.Frame g₃) :
  g₁.Frame g₃
  := by
  constructor
  · rw [h'.size, h.size]
  · intro n
    rw [h'.object, h.object]
  · rw [h'.actionToNode, h.actionToNode]
  · rw [h'.promiseToNode, h.promiseToNode]
  · rw [h'.oldCycles, h.oldCycles]

/-- A graph stays sound when an edge is added. -/
theorem Edged.sound (h : g.Edged a b g') (hg : g.Sound) :
  g'.Sound ∧ g.Frame g'
  := by
  cases h with
  | old _ hsame =>
      subst hsame
      exact ⟨hg, Frame.refl _⟩
  | unread hlinked => exact ⟨hlinked.sound, hlinked.frame⟩
  | settled hlinked => exact ⟨hlinked.sound, hlinked.frame⟩
  | pushed hlinked _ _ _ _ hlinked' =>
      exact ⟨hlinked'.sound, hlinked.frame.trans hlinked'.frame⟩

/-- Where the RMWs come to an end, `addNodeEdge` returns. -/
theorem Sound.addNodeEdge (h : g.Sound) (hsize : g.size < 2 ^ 30)
    (hchains : ∀ x, ∃ d e, Adjacent.Chain (fun n => (g.nodes n).hasRMW) x d e)
    (ha : 1 ≤ a ∧ a ≤ g.size) (hb : 1 ≤ b ∧ b ≤ g.size) :
  ∃ r, g.addNodeEdge a b = some r
  := by
  rw [CycleGraph.addNodeEdge, Nodes.addEdge]
  split_ifs with hedge
  · use (false, g)
  · obtain ⟨g₁, hlinked, -, hrecheck⟩ := h.link hsize ha hb hedge
    have hsize₁ := hlinked.frame.size
    rw [← hlinked.rollbackvector]
    simp only [hrecheck, Option.bind_some]
    rw [CycleGraph.addNodeEdgeRMW]
    cases hread : (g₁.nodes a).hasRMW with
    | none => exact ⟨_, rfl⟩
    | some r =>
        obtain ⟨d, e, hchain⟩ := hchains r
        have hshort : d ≤ (Finset.Icc 1 g.size).card := by
          apply hchain.le_card
          intro x y hxy
          apply Finset.mem_Icc.mpr (h.mirrored.read x y hxy)
        simp only [← hlinked.hasRMW] at hchain
        rw [Nat.card_Icc] at hshort
        obtain ⟨e', hend⟩ := Nodes.rmwEnd_total hchain (Nat.lt_of_le_of_lt hshort (by omega :
          g.size + 1 - 1 < g₁.size + 1)) b
        have he := hlinked.sound.mirrored.ends (hlinked.sound.mirrored.rmw a r hread)
          (Nodes.rmwEnd_ends hend)
        simp only [hend, Option.bind_some]
        split_ifs
        · exact ⟨_, rfl⟩
        · rw [Nodes.addEdge]
          split_ifs with hedge'
          · exact ⟨_, rfl⟩
          · obtain ⟨g₃, -, -, hrecheck'⟩ := hlinked.sound.link (by omega) he (by omega) hedge'
            simp only [hrecheck' g₁.rollbackvector, Option.map_some]
            exact ⟨_, rfl⟩

/-! ### An RMW -/

/-- The loop over the edges `ts` that go to the RMW `r` as well. -/
inductive Transferred (r : ℕ) : List ℕ → CycleGraph → CycleGraph → Prop where
  | done (g : CycleGraph) : Transferred r [] g g
  | old {t : ℕ} {ts : List ℕ} {g g' : CycleGraph} (old : t = r ∨ g.nodes.Edge r t)
      (rest : Transferred r ts g g') : Transferred r (t :: ts) g g'
  | link {t : ℕ} {ts : List ℕ} {g g₁ g' : CycleGraph} (ne : t ≠ r) (linked : g.Linked r t g₁)
      (hasCycles : g₁.hasCycles = g.hasCycles) (rest : Transferred r ts g₁ g') :
      Transferred r (t :: ts) g g'

/-- An edge handed on to an RMW is new to it, or there is nothing to do. -/
theorem Sound.transfer (h : g.Sound) (hr : 1 ≤ r ∧ r ≤ g.size) {t : ℕ}
    (ht : 1 ≤ t ∧ t ≤ g.size) :
  CycleGraph.transfer r g t = g ∧ (t = r ∨ g.nodes.Edge r t) ∨
    t ≠ r ∧ g.Linked r t (CycleGraph.transfer r g t) ∧
      (CycleGraph.transfer r g t).hasCycles = g.hasCycles
  := by
  simp only [CycleGraph.transfer, Nodes.addEdge]
  split_ifs with htr hedge
  · left
    exact ⟨rfl, .inl htr⟩
  · left
    exact ⟨rfl, .inr hedge⟩
  · right
    refine ⟨htr, ⟨?_, ?_, hedge, rfl, rfl, rfl⟩, rfl⟩
    · refine h.congr ?_ h.tables.discovered (h.mirrored.link hr ht hedge)
      constructor <;> simp
    · constructor <;> simp

/-- The loop of `addRMWEdge` hands on the edges of a node one after another. -/
theorem Sound.transferred (h : g.Sound) (hr : 1 ≤ r ∧ r ≤ g.size) {ts : List ℕ}
    (hts : ∀ t, t ∈ ts → 1 ≤ t ∧ t ≤ g.size) :
  Transferred r ts g (ts.foldl (CycleGraph.transfer r) g)
  := by
  induction ts generalizing g with
  | nil => apply Transferred.done
  | cons t ts ih =>
      rw [List.foldl_cons]
      have hts' : ∀ t, t ∈ ts → 1 ≤ t ∧ t ≤ g.size := fun t ht => hts t (List.mem_cons_of_mem _ ht)
      rcases h.transfer hr (hts t List.mem_cons_self) with ⟨hsame, hold⟩ | ⟨hne, hlinked, hcycles⟩
      · rw [hsame]
        apply Transferred.old hold (ih h hr hts')
      · have hsize := hlinked.frame.size
        apply Transferred.link hne hlinked hcycles
        apply ih hlinked.sound
        · rw [hsize]
          apply hr
        · rw [hsize]
          apply hts'

/-- A graph stays sound when edges are handed on. -/
theorem Transferred.sound {ts : List ℕ} (h : Transferred r ts g g') (hg : g.Sound) :
  g'.Sound ∧ g.Frame g'
  := by
  induction h with
  | done g => exact ⟨hg, Frame.refl g⟩
  | old _ _ ih => apply ih hg
  | link _ hlinked _ _ ih =>
      obtain ⟨hsound, hframe⟩ := ih hlinked.sound
      use hsound
      apply hlinked.frame.trans hframe

/-- The RMW `r` of `a` is noted, or there is one already. -/
inductive Rmw (g : CycleGraph) (a r : ℕ) (g' : CycleGraph) : Prop where
  | noted (noted : g.Noted a r g')
  | second (read : (g.nodes a).hasRMW ≠ none) (same : g' = { g with hasCycles := true })

/-- A graph stays sound when an RMW is noted. -/
theorem Rmw.sound (h : g.Rmw a r g') (hg : g.Sound) :
  g'.Sound ∧ g.Frame g' ∧ g'.nodes.Edge = g.nodes.Edge
  := by
  cases h with
  | noted hnoted =>
      refine ⟨hnoted.sound, hnoted.frame, ?_⟩
      rw [hnoted.nodes, Nodes.edge_note]
  | second _ hsame =>
      subst hsame
      refine ⟨⟨?_, hg.mirrored⟩, by constructor <;> simp, rfl⟩
      exact hg.tables.congr hg.tables.discovered rfl rfl rfl (fun _ => rfl)

/-- `addNodeRMW` notes the RMW, gives it the edges of the store, and adds an edge to it. -/
theorem Sound.addNodeRMW (h : g.Sound) (ha : 1 ≤ a ∧ a ≤ g.size) (hr : 1 ≤ r ∧ r ≤ g.size) :
  ∃ g₁, g.Rmw a r g₁ ∧ g.addNodeRMW a r
    = (((g₁.nodes a).edges.foldl (CycleGraph.transfer r) g₁).addNodeEdge a r).map Prod.snd
  := by
  rw [CycleGraph.addNodeRMW]
  rcases g.nodes.setRMW_cases a r with ⟨hnone, hset⟩ | ⟨hsome, hset⟩
  · rw [hset]
    refine ⟨{ g with nodes := g.nodes.note a r, rmwrollbackvector := g.rmwrollbackvector ++ [a] },
      .noted ⟨?_, ?_, hnone, rfl, rfl, rfl, rfl⟩, rfl⟩
    · refine h.congr ?_ h.tables.discovered (h.mirrored.note ha hr)
      constructor <;> simp
    · constructor <;> simp
  · rw [hset]
    exact ⟨{ g with hasCycles := true }, .second hsome rfl, rfl⟩

/-- `addRMWEdge` between nodes notes the RMW, hands the edges on to it and links it. -/
theorem addNodeRMW_cases (h : g.Sound) (hsize : g.size < 2 ^ 30) (ha : 1 ≤ a ∧ a ≤ g.size)
    (hr : 1 ≤ r ∧ r ≤ g.size) (hadd : g.addNodeRMW a r = some g') :
  ∃ g₁ g₂, g.Rmw a r g₁ ∧ Transferred r (g₁.nodes a).edges g₁ g₂ ∧ g₂.Sound ∧ g₁.Frame g₂ ∧
    g₂.Edged a r g'
  := by
  obtain ⟨g₁, hrmw, heq⟩ := h.addNodeRMW ha hr
  rw [heq] at hadd
  obtain ⟨hsound₁, hframe₁, -⟩ := hrmw.sound h
  have hsize₁ := hframe₁.size
  have hts : ∀ t, t ∈ (g₁.nodes a).edges → 1 ≤ t ∧ t ≤ g₁.size := hsound₁.mirrored.target a
  have htransferred := hsound₁.transferred (r := r) (by omega) hts
  obtain ⟨hsound₂, hframe₂⟩ := htransferred.sound hsound₁
  have hsize₂ := hframe₂.size
  obtain ⟨⟨new, g''⟩, hlast, rfl⟩ := Option.map_eq_some_iff.mp hadd
  refine ⟨g₁, _, hrmw, htransferred, hsound₂, hframe₂, ?_⟩
  apply addNodeEdge_cases hsound₂ (by omega) (by omega) (by omega) hlast

/-! ### The calls -/

/-- `getNode` for both ends of an edge. -/
theorem Sound.getNodes (h : g.Sound) (hsize : g.size + 1 < 2 ^ 29) {s t : Object}
    (hs : s.addr ≠ 0) (ht : t.addr ≠ 0) :
  ∃ a b g', (∀ {β : Type} (f : ℕ → ℕ → CycleGraph → Option β),
      ((g.getNode s).bind fun r => (r.2.getNode t).bind fun r' => f r.1 r'.1 r'.2) = f a b g') ∧
    g'.Sound ∧ g.Extends g' ∧ g'.size ≤ g.size + 2 ∧ g'.Stands a s ∧ g'.Stands b t
  := by
  obtain ⟨a, g₁, hget, htables, ha, hextends, hsize₁⟩ :=
    h.tables.getNode h.mirrored (by omega) hs
  obtain ⟨b, g₂, hget', htables', hb, hextends', hsize₂⟩ :=
    htables.getNode (hextends.mirrored h.mirrored) (by omega) ht
  refine ⟨a, b, g₂, ?_, ⟨htables', ?_⟩, hextends.trans hextends', by omega, ?_, hb⟩
  · intro β f
    rw [hget, Option.bind_some, hget', Option.bind_some]
  · apply (hextends.trans hextends').mirrored h.mirrored
  · apply hextends'.stands ha

/-- A call that returns has not been given `NULL`. -/
theorem Sound.getNodes_of_eq_some (h : g.Sound) (hsize : g.size + 1 < 2 ^ 29) {s t : Object}
    {β : Type} {f : ℕ → ℕ → CycleGraph → Option β} {c : β}
    (hcall : ((g.getNode s).bind fun r => (r.2.getNode t).bind fun r' => f r.1 r'.1 r'.2)
      = some c) :
  ∃ a b g', f a b g' = some c ∧ g'.Sound ∧ g.Extends g' ∧ g'.size ≤ g.size + 2 ∧
    g'.Stands a s ∧ g'.Stands b t
  := by
  have hs : s.addr ≠ 0 := by
    intro hs
    rw [getNode_null hs] at hcall
    cases hcall
  have ht : t.addr ≠ 0 := by
    intro ht
    obtain ⟨r, -, hcall⟩ := Option.bind_eq_some_iff.mp hcall
    rw [getNode_null ht] at hcall
    cases hcall
  obtain ⟨a, b, g', hbind, hrest⟩ := h.getNodes hsize hs ht
  rw [hbind] at hcall
  exact ⟨a, b, g', hcall, hrest⟩

/-- `addEdge` makes the nodes of its two objects and adds the edge between them. -/
theorem addEdge_cases (h : g.Sound) (hsize : g.size + 1 < 2 ^ 29) {s t : Object} {new : Bool}
    (hadd : g.addEdge s t = some (new, g')) :
  ∃ a b g₁, g₁.Sound ∧ g.Extends g₁ ∧ g₁.size ≤ g.size + 2 ∧ g₁.Stands a s ∧ g₁.Stands b t ∧
    g₁.Edged a b g'
  := by
  obtain ⟨a, b, g₁, hadd, hsound, hextends, hsize₁, ha, hb⟩ :=
    @Sound.getNodes_of_eq_some g h hsize s t _ (fun a b g => g.addNodeEdge a b) _ hadd
  refine ⟨a, b, g₁, hsound, hextends, hsize₁, ha, hb, ?_⟩
  apply addNodeEdge_cases hsound (by omega) ⟨ha.pos, ha.le⟩ ⟨hb.pos, hb.le⟩ hadd

/-- `addRMWEdge` makes the nodes of the store and of the RMW, which has not been read, and notes
the RMW. -/
theorem addRMWEdge_cases (h : g.Sound) (hsize : g.size + 1 < 2 ^ 29) {s : Object} {rmw : ℕ}
    (hadd : g.addRMWEdge s rmw = some g') :
  ∃ a r g₁ g₂ g₃, g₁.Sound ∧ g.Extends g₁ ∧ g₁.size ≤ g.size + 2 ∧ g₁.Stands a s ∧
    g₁.Stands r (.action rmw) ∧ (g₁.nodes r).hasRMW = none ∧ g₁.Rmw a r g₂ ∧
    Transferred r (g₂.nodes a).edges g₂ g₃ ∧ g₃.Sound ∧ g₂.Frame g₃ ∧ g₃.Edged a r g'
  := by
  obtain ⟨a, r, g₁, hadd, hsound, hextends, hsize₁, ha, hr⟩ :=
    @Sound.getNodes_of_eq_some g h hsize s (.action rmw) _
      (fun a r g => if (g.nodes r).hasRMW = none then g.addNodeRMW a r else none) _ hadd
  split_ifs at hadd with hnone
  obtain ⟨g₂, g₃, hrmw, htransferred, hsound₃, hframe₃, hedged⟩ :=
    addNodeRMW_cases hsound (by omega) ⟨ha.pos, ha.le⟩ ⟨hr.pos, hr.le⟩ hadd
  exact ⟨a, r, g₁, g₂, g₃, hsound, hextends, hsize₁, ha, hr, hnone, hrmw, htransferred, hsound₃,
    hframe₃, hedged⟩

end CycleGraph

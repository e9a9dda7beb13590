import Mathlib.Order.Interval.Finset.Nat
import ParallelArch.ModelChecker.CycleGraph

/-!
# The nodes of the cycle graph

The edges and the back edges of the nodes mirror each other (`Mirrored`), the tables find the
node of each object (`Tables`), and `checkReachable` is reachability along the edges
(`Tables.checkReachable`).
-/

namespace Nodes

/-! ### What the changes do to a node -/

section Fields

variable (nodes : Nodes) (a b x : ℕ) (f : CycleNode → CycleNode)

theorem modify_apply :
  nodes.modify a f x = if x = a then f (nodes a) else nodes x
  := Function.update_apply nodes a _ x

/-- A new edge stands at the end of the edges of its source. -/
theorem link_edges :
  (nodes.link a b x).edges = if x = a then (nodes a).edges ++ [b] else (nodes x).edges
  := by
  simp only [link, modify_apply]
  grind

/-- A new edge stands at the end of the back edges of its target. -/
theorem link_backEdges :
  (nodes.link a b x).backEdges
    = if x = b then (nodes b).backEdges ++ [a] else (nodes x).backEdges
  := by
  simp only [link, modify_apply]
  grind

@[simp]
theorem link_hasRMW :
  (nodes.link a b x).hasRMW = (nodes x).hasRMW
  := by
  simp only [link, modify_apply]
  grind

@[simp]
theorem link_object :
  (nodes.link a b x).object = (nodes x).object
  := by
  simp only [link, modify_apply]
  grind

end Fields

/-- The edges of the graph. -/
def Edge (nodes : Nodes) : ℕ → ℕ → Prop :=
  Worklist.Edge fun a => (nodes a).edges

/-- The edges after a new one are the old ones and the new one. -/
theorem edge_link {nodes : Nodes} {a b x y : ℕ} :
  (nodes.link a b).Edge x y ↔ nodes.Edge x y ∨ x = a ∧ y = b
  := by
  simp only [Edge, Worklist.Edge, link_edges]
  by_cases hx : x = a
  · simp [hx]
  · simp [hx]

/-- Every edge has its back edge, there are no double edges, and all is among the nodes
allocated. -/
structure Mirrored (nodes : Nodes) (size : ℕ) : Prop where
  mirror : ∀ a b, b ∈ (nodes a).edges ↔ a ∈ (nodes b).backEdges
  edges : ∀ a, (nodes a).edges.Nodup
  backEdges : ∀ a, (nodes a).backEdges.Nodup
  source : ∀ a b, nodes.Edge a b → 1 ≤ a ∧ a ≤ size
  target : ∀ a b, nodes.Edge a b → 1 ≤ b ∧ b ≤ size
  read : ∀ a r, (nodes a).hasRMW = some r → 1 ≤ a ∧ a ≤ size
  rmw : ∀ a r, (nodes a).hasRMW = some r → 1 ≤ r ∧ r ≤ size

section Mirrored

variable {nodes : Nodes} {size a b : ℕ}

/-- Edges and back edges stay mirrors of each other when an edge is added. -/
theorem Mirrored.link (h : nodes.Mirrored size) (ha : 1 ≤ a ∧ a ≤ size) (hb : 1 ≤ b ∧ b ≤ size)
    (hnew : b ∉ (nodes a).edges) :
  (nodes.link a b).Mirrored size
  := by
  have hback : a ∉ (nodes b).backEdges := fun hmem => hnew ((h.mirror a b).mpr hmem)
  constructor
  · intro x y
    have hxy := h.mirror x y
    rw [link_edges, link_backEdges]
    grind
  · intro x
    have hx := h.edges x
    rw [link_edges]
    split_ifs with hxa
    · subst hxa
      apply List.Nodup.append hx (List.nodup_singleton b)
      simpa using hnew
    · apply hx
  · intro x
    have hx := h.backEdges x
    rw [link_backEdges]
    split_ifs with hxb
    · subst hxb
      apply List.Nodup.append hx (List.nodup_singleton a)
      simpa using hback
    · apply hx
  · intro x y hxy
    rcases edge_link.mp hxy with hold | ⟨rfl, -⟩
    · apply h.source x y hold
    · apply ha
  · intro x y hxy
    rcases edge_link.mp hxy with hold | ⟨-, rfl⟩
    · apply h.target x y hold
    · apply hb
  · intro x r hx
    rw [link_hasRMW] at hx
    apply h.read x r hx
  · intro x r hx
    rw [link_hasRMW] at hx
    apply h.rmw x r hx

/-- An address that is not allocated has nothing. -/
theorem Mirrored.blank (h : nodes.Mirrored size) (ha : size < a) :
  (nodes a).edges = [] ∧ (nodes a).backEdges = [] ∧ (nodes a).hasRMW = none
  := by
  refine ⟨?_, ?_, ?_⟩
  · apply List.eq_nil_iff_forall_not_mem.mpr
    intro b hb
    have := h.source a b hb
    omega
  · apply List.eq_nil_iff_forall_not_mem.mpr
    intro b hb
    have := h.target b a ((h.mirror b a).mpr hb)
    omega
  · apply Option.eq_none_iff_forall_ne_some.mpr
    intro r hr
    have := h.read a r hr
    omega

/-- Whether edges and back edges mirror each other depends on these and the RMWs only. -/
theorem Mirrored.congr {nodes' : Nodes} {size' : ℕ} (h : nodes.Mirrored size)
    (hedges : ∀ a, (nodes' a).edges = (nodes a).edges)
    (hback : ∀ a, (nodes' a).backEdges = (nodes a).backEdges)
    (hrmw : ∀ a, (nodes' a).hasRMW = (nodes a).hasRMW) (hsize : size ≤ size') :
  nodes'.Mirrored size'
  := by
  have hedge : ∀ {a b}, nodes'.Edge a b → nodes.Edge a b := by
    intro a b hab
    simpa only [Edge, Worklist.Edge, hedges] using hab
  constructor
  · intro a b
    rw [hedges, hback]
    apply h.mirror
  · intro a
    rw [hedges]
    apply h.edges
  · intro a
    rw [hback]
    apply h.backEdges
  · intro a b hab
    have := h.source a b (hedge hab)
    omega
  · intro a b hab
    have := h.target a b (hedge hab)
    omega
  · intro a r hr
    rw [hrmw] at hr
    have := h.read a r hr
    omega
  · intro a r hr
    rw [hrmw] at hr
    have := h.rmw a r hr
    omega

end Mirrored

end Nodes

/-- The address of an object. -/
def Object.addr : Object → ℕ
  | .action act => act
  | .promise p => p

namespace CycleGraph

/-! ### The tables -/

/-- The node `n` stands for the object `o`. -/
structure Stands (g : CycleGraph) (n : ℕ) (o : Object) : Prop where
  pos : 1 ≤ n
  le : n ≤ g.size
  object : (g.nodes n).object = o

/-- The table finds the node of each object of a kind. -/
structure Finds (g : CycleGraph) (table : HashTable ℕ) (kind : ℕ → Object) : Prop where
  holds : ∃ f, HashTable.Holds shift table f ∧
    ∀ key n, key ≠ 0 → (f key = some n ↔ g.Stands n (kind key))
  size : table.size ≤ g.size

/-- The tables find the nodes of the graph. -/
structure Tables (g : CycleGraph) : Prop where
  discovered : ∃ f, HashTable.Holds shift g.discovered f
  actions : g.Finds g.actionToNode .action
  promises : g.Finds g.promiseToNode .promise

/-- A table returns the node that stands for a key, or `0` if there is none. -/
theorem Finds.get {g : CycleGraph} {table : HashTable ℕ} {kind : ℕ → Object}
    (h : g.Finds table kind) {key : ℕ} (hkey : key ≠ 0) :
  ∃ n, table.get shift key = some n ∧
    (g.Stands n (kind key) ∨ n = 0 ∧ ∀ m, ¬ g.Stands m (kind key))
  := by
  obtain ⟨f, hholds, hfinds⟩ := h.holds
  use (f key).getD 0, hholds.get hkey
  cases hf : f key with
  | none =>
      right
      use rfl
      intro m hm
      rw [(hfinds key m hkey).mpr hm] at hf
      cases hf
  | some n =>
      left
      apply (hfinds key n hkey).mp hf

/-- Only the nodes matter. -/
theorem Finds.congr {g g' : CycleGraph} {table : HashTable ℕ} {kind : ℕ → Object}
    (h : g.Finds table kind) (hsize : g'.size = g.size)
    (hobject : ∀ n, (g'.nodes n).object = (g.nodes n).object) :
  g'.Finds table kind
  := by
  obtain ⟨⟨f, hholds, hfinds⟩, hle⟩ := h
  refine ⟨⟨f, hholds, ?_⟩, by rw [hsize]; apply hle⟩
  intro key n hkey
  rw [hfinds key n hkey]
  constructor
  · rintro ⟨hpos, hn, ho⟩
    exact ⟨hpos, by rw [hsize]; apply hn, by rw [hobject]; apply ho⟩
  · rintro ⟨hpos, hn, ho⟩
    exact ⟨hpos, by rw [← hsize]; apply hn, by rw [← hobject]; apply ho⟩

/-- What the tables find depends on the tables and the objects only. -/
theorem Tables.congr {g g' : CycleGraph} (h : g.Tables)
    (hdiscovered : ∃ f, HashTable.Holds shift g'.discovered f)
    (hactions : g'.actionToNode = g.actionToNode) (hpromises : g'.promiseToNode = g.promiseToNode)
    (hsize : g'.size = g.size) (hobject : ∀ n, (g'.nodes n).object = (g.nodes n).object) :
  g'.Tables
  := by
  constructor
  · apply hdiscovered
  · rw [hactions]
    apply h.actions.congr hsize hobject
  · rw [hpromises]
    apply h.promises.congr hsize hobject

/-- No two nodes stand for one key. -/
theorem Finds.unique {g : CycleGraph} {table : HashTable ℕ} {kind : ℕ → Object}
    (h : g.Finds table kind) {key m n : ℕ} (hkey : key ≠ 0) (hm : g.Stands m (kind key))
    (hn : g.Stands n (kind key)) :
  m = n
  := by
  obtain ⟨f, -, hfinds⟩ := h.holds
  have heq := (hfinds key m hkey).mpr hm
  rw [(hfinds key n hkey).mpr hn] at heq
  exact (Option.some.inj heq).symm

/-- What `getNode` leaves as it is. -/
structure Extends (g g' : CycleGraph) : Prop where
  size : g.size ≤ g'.size
  edges : ∀ a, (g'.nodes a).edges = (g.nodes a).edges
  backEdges : ∀ a, (g'.nodes a).backEdges = (g.nodes a).backEdges
  hasRMW : ∀ a, (g'.nodes a).hasRMW = (g.nodes a).hasRMW
  object : ∀ a, a ≤ g.size → (g'.nodes a).object = (g.nodes a).object
  hasCycles : g'.hasCycles = g.hasCycles
  oldCycles : g'.oldCycles = g.oldCycles
  rollbackvector : g'.rollbackvector = g.rollbackvector
  rmwrollbackvector : g'.rmwrollbackvector = g.rmwrollbackvector

theorem Extends.refl (g : CycleGraph) :
  g.Extends g
  := by constructor <;> simp

theorem Extends.trans {g₁ g₂ g₃ : CycleGraph} (h : g₁.Extends g₂) (h' : g₂.Extends g₃) :
  g₁.Extends g₃
  := by
  constructor
  · apply h.size.trans h'.size
  · intro a
    rw [h'.edges, h.edges]
  · intro a
    rw [h'.backEdges, h.backEdges]
  · intro a
    rw [h'.hasRMW, h.hasRMW]
  · intro a ha
    rw [h'.object a (ha.trans h.size), h.object a ha]
  · rw [h'.hasCycles, h.hasCycles]
  · rw [h'.oldCycles, h.oldCycles]
  · rw [h'.rollbackvector, h.rollbackvector]
  · rw [h'.rmwrollbackvector, h.rmwrollbackvector]

/-- A node goes on to stand for its object. -/
theorem Extends.stands {g g' : CycleGraph} (h : g.Extends g') {n : ℕ} {o : Object}
    (hn : g.Stands n o) :
  g'.Stands n o
  := by
  constructor
  · apply hn.pos
  · apply hn.le.trans h.size
  · rw [h.object n hn.le]
    apply hn.object

/-- New nodes have no edges that would have to be mirrored. -/
theorem Extends.mirrored {g g' : CycleGraph} (h : g.Extends g')
    (hM : g.nodes.Mirrored g.size) :
  g'.nodes.Mirrored g'.size
  := hM.congr h.edges h.backEdges h.hasRMW h.size

/-! ### A new node -/

section NewNode

variable {g g' : CycleGraph} {o : Object}

/-- A new node gets the next number. -/
theorem newNode_nodes (g : CycleGraph) (o : Object) (m : ℕ) :
  (g.newNode o).nodes m = if m = g.size + 1 then ⟨o, [], [], none⟩ else g.nodes m
  := Function.update_apply g.nodes (g.size + 1) _ m

/-- The graph has got a node for `o`. -/
structure Added (g : CycleGraph) (o : Object) (g' : CycleGraph) : Prop where
  nodes : g'.nodes = (g.newNode o).nodes
  size : g'.size = g.size + 1

/-- A new node stands for its object, the others for theirs. -/
theorem Added.stands (h : g.Added o g') {n : ℕ} {o' : Object} :
  g'.Stands n o' ↔ g.Stands n o' ∨ n = g.size + 1 ∧ o' = o
  := by
  have hnode : ∀ m, (g'.nodes m).object = if m = g.size + 1 then o else (g.nodes m).object := by
    intro m
    rw [h.nodes, newNode_nodes]
    split_ifs
    · rfl
    · rfl
  constructor
  · rintro ⟨hpos, hle, hobject⟩
    rw [h.size] at hle
    rw [hnode] at hobject
    split_ifs at hobject with hn
    · exact .inr ⟨hn, hobject.symm⟩
    · exact .inl ⟨hpos, by omega, hobject⟩
  · rintro (⟨hpos, hle, hobject⟩ | ⟨rfl, rfl⟩)
    · refine ⟨hpos, by rw [h.size]; omega, ?_⟩
      rw [hnode, if_neg (by omega)]
      apply hobject
    · refine ⟨by omega, by rw [h.size], ?_⟩
      rw [hnode, if_pos rfl]

/-- The table of another kind. -/
theorem Finds.other {table : HashTable ℕ} {kind : ℕ → Object} (h : g.Finds table kind)
    (hadded : g.Added o g') (hkind : ∀ key, kind key ≠ o) :
  g'.Finds table kind
  := by
  obtain ⟨⟨f, hholds, hfinds⟩, hsize⟩ := h
  refine ⟨⟨f, hholds, ?_⟩, by rw [hadded.size]; omega⟩
  intro key n hkey
  rw [hfinds key n hkey, hadded.stands, or_iff_left]
  rintro ⟨-, heq⟩
  apply hkind key heq

/-- The table in which the node is put. -/
theorem Finds.put {table : HashTable ℕ} {kind : ℕ → Object} (h : g.Finds table kind)
    (hkind : Function.Injective kind) {key : ℕ} (hkey : key ≠ 0) (hsize : g.size < 2 ^ 29)
    (hnone : ∀ m, ¬ g.Stands m (kind key)) :
  ∃ table', table.put shift key (g.size + 1) = some table' ∧
    ∀ g', g.Added (kind key) g' → g'.Finds table' kind
  := by
  obtain ⟨⟨f, hholds, hfinds⟩, hle⟩ := h
  obtain ⟨table', hput, hholds', hle'⟩ := hholds.put hkey (by omega) (g.size + 1)
  use table', hput
  intro g' hadded
  refine ⟨⟨_, hholds', ?_⟩, by rw [hadded.size]; omega⟩
  intro key' n hkey'
  rw [hadded.stands]
  by_cases hsame : key' = key
  · subst hsame
    rw [Function.update_self]
    constructor
    · rintro ⟨⟩
      right
      exact ⟨rfl, rfl⟩
    · rintro (hn | ⟨rfl, -⟩)
      · cases hnone n hn
      · rfl
  · rw [Function.update_of_ne hsame, hfinds key' n hkey', or_iff_left]
    rintro ⟨-, heq⟩
    apply hsame (hkind heq)

/-- A new node extends the graph. -/
theorem extends_newNode (hM : g.nodes.Mirrored g.size) (hadded : g.Added o g')
    (hcycles : g'.hasCycles = g.hasCycles) (hold : g'.oldCycles = g.oldCycles)
    (hback : g'.rollbackvector = g.rollbackvector)
    (hrmw : g'.rmwrollbackvector = g.rmwrollbackvector) :
  g.Extends g'
  := by
  obtain ⟨hedges, hbackEdges, hhasRMW⟩ := hM.blank (Nat.lt_succ_self g.size)
  have hnode : ∀ m, g'.nodes m
      = if m = g.size + 1 then ⟨o, [], [], none⟩ else g.nodes m := by
    intro m
    rw [hadded.nodes, newNode_nodes]
  constructor
  · rw [hadded.size]
    omega
  · intro a
    rw [hnode]
    split_ifs with ha
    · rw [ha, hedges]
    · rfl
  · intro a
    rw [hnode]
    split_ifs with ha
    · rw [ha, hbackEdges]
    · rfl
  · intro a
    rw [hnode]
    split_ifs with ha
    · rw [ha, hhasRMW]
    · rfl
  · intro a ha
    rw [hnode, if_neg (by omega)]
  · apply hcycles
  · apply hold
  · apply hback
  · apply hrmw

end NewNode

/-- `getNode` finds the node of an object, or allocates one. -/
theorem Tables.getNode {g : CycleGraph} (h : g.Tables) (hM : g.nodes.Mirrored g.size)
    (hsize : g.size < 2 ^ 29) {o : Object} (ho : o.addr ≠ 0) :
  ∃ n g', g.getNode o = some (n, g') ∧ g'.Tables ∧ g'.Stands n o ∧ g.Extends g' ∧
    g'.size ≤ g.size + 1
  := by
  cases o with
  | action act =>
      change act ≠ 0 at ho
      obtain ⟨n, hget, hn | ⟨rfl, hnone⟩⟩ := h.actions.get ho
      · have hpos := hn.pos
        refine ⟨n, g, ?_, h, hn, Extends.refl g, Nat.le_succ g.size⟩
        rw [CycleGraph.getNode, getNodeNoCreate, hget, Option.bind_some, if_neg (by omega)]
      · obtain ⟨table, hput, hfinds⟩ := h.actions.put (fun _ _ => Object.action.inj) ho hsize hnone
        have hadded : g.Added (.action act)
            { g.newNode (.action act) with actionToNode := table } := ⟨rfl, rfl⟩
        refine ⟨g.size + 1, { g.newNode (.action act) with actionToNode := table }, ?_,
          ⟨h.discovered, hfinds _ hadded, h.promises.other hadded ?_⟩,
          hadded.stands.mpr (.inr ⟨rfl, rfl⟩), extends_newNode hM hadded rfl rfl rfl rfl,
          le_rfl⟩
        · rw [CycleGraph.getNode, getNodeNoCreate, hget, Option.bind_some, if_pos rfl, putNode]
          simp only [newNode, hput, Option.map_some]
        · rintro key ⟨⟩
  | promise p =>
      change p ≠ 0 at ho
      obtain ⟨n, hget, hn | ⟨rfl, hnone⟩⟩ := h.promises.get ho
      · have hpos := hn.pos
        refine ⟨n, g, ?_, h, hn, Extends.refl g, Nat.le_succ g.size⟩
        rw [CycleGraph.getNode, getNodeNoCreate, hget, Option.bind_some, if_neg (by omega)]
      · obtain ⟨table, hput, hfinds⟩ := h.promises.put (fun _ _ => Object.promise.inj) ho hsize
          hnone
        have hadded : g.Added (.promise p)
            { g.newNode (.promise p) with promiseToNode := table } := ⟨rfl, rfl⟩
        refine ⟨g.size + 1, { g.newNode (.promise p) with promiseToNode := table }, ?_,
          ⟨h.discovered, h.actions.other hadded ?_, hfinds _ hadded⟩,
          hadded.stands.mpr (.inr ⟨rfl, rfl⟩), extends_newNode hM hadded rfl rfl rfl rfl,
          le_rfl⟩
        · rw [CycleGraph.getNode, getNodeNoCreate, hget, Option.bind_some, if_pos rfl, putNode]
          simp only [newNode, hput, Option.map_some]
        · rintro key ⟨⟩

/-- The tables assert that the object is not `NULL`. -/
theorem getNodeNoCreate_null {g : CycleGraph} {o : Object} (ho : o.addr = 0) :
  g.getNodeNoCreate o = none
  := by
  cases o with
  | action act =>
      change act = 0 at ho
      simp [CycleGraph.getNodeNoCreate, HashTable.get, ho]
  | promise p =>
      change p = 0 at ho
      simp [CycleGraph.getNodeNoCreate, HashTable.get, ho]

/-- The tables do not take `NULL` as a key. -/
theorem getNode_null {g : CycleGraph} {o : Object} (ho : o.addr = 0) :
  g.getNode o = none
  := by
  rw [CycleGraph.getNode, getNodeNoCreate_null ho]
  rfl

/-! ### Reachability -/

section Reaches

variable {g : CycleGraph} {nodes : Nodes} {size : ℕ}

/-- The table of the nodes discovered is the list of those seen. -/
structure Discovered (size : ℕ) (discovered : HashTable ℕ) (seen : List ℕ) : Prop where
  holds : HashTable.Holds shift discovered fun n => if n ∈ seen then some n else none
  count : discovered.size ≤ seen.length
  nodup : seen.Nodup
  within : ∀ n, n ∈ seen → 1 ≤ n ∧ n ≤ size

/-- No more nodes have been discovered than there are. -/
theorem Discovered.room {discovered : HashTable ℕ} {seen : List ℕ}
    (h : Discovered size discovered seen) :
  discovered.size ≤ size
  := by
  apply h.count.trans
  rw [← List.toFinset_card_of_nodup h.nodup]
  have hsub : seen.toFinset ⊆ Finset.Icc 1 size := by
    intro n hn
    apply Finset.mem_Icc.mpr (h.within n (List.mem_toFinset.mp hn))
  simpa using Finset.card_le_card hsub

/-- `discovered` and `queue` take a node in as the worklist does. -/
theorem Discovered.discover (hsize : size < 2 ^ 30) {r : HashTable ℕ × List ℕ} {seen : List ℕ}
    (h : Discovered size r.1 seen) {next : ℕ} (hnext : 1 ≤ next ∧ next ≤ size) :
  ∃ r', CycleGraph.discover r next = some r' ∧
    Discovered size r'.1 (Worklist.visit (seen, r.2) next).1 ∧
    r'.2 = (Worklist.visit (seen, r.2) next).2
  := by
  have hne : next ≠ 0 := by omega
  rw [CycleGraph.discover, h.holds.contains hne, Worklist.visit]
  by_cases hseen : next ∈ seen
  · simp only [if_pos hseen, Option.isSome_some, Option.bind_some, if_true]
    exact ⟨r, rfl, h, rfl⟩
  · obtain ⟨t, hput, hholds, hle⟩ := h.holds.put hne (h.room.trans_lt hsize) next
    simp only [if_neg hseen, Option.isSome_none, Option.bind_some, Bool.false_eq_true, if_false,
      hput, Option.map_some]
    refine ⟨_, rfl, ⟨?_, ?_, ?_, ?_⟩, rfl⟩
    · convert hholds using 1
      funext n
      by_cases hn : n = next
      · simp [hn]
      · simp [hn]
    · apply hle.trans
      apply Nat.succ_le_succ h.count
    · apply List.nodup_cons.mpr ⟨hseen, h.nodup⟩
    · intro n hn
      rcases List.mem_cons.mp hn with rfl | hn
      · apply hnext
      · apply h.within n hn

/-- They take the edges of a node in as the worklist does. -/
theorem Discovered.discovers (hsize : size < 2 ^ 30) {nexts : List ℕ}
    (hnexts : ∀ n, n ∈ nexts → 1 ≤ n ∧ n ≤ size) {r : HashTable ℕ × List ℕ} {seen : List ℕ}
    (h : Discovered size r.1 seen) :
  ∃ r', nexts.foldlM CycleGraph.discover r = some r' ∧
    Discovered size r'.1 (nexts.foldl Worklist.visit (seen, r.2)).1 ∧
    r'.2 = (nexts.foldl Worklist.visit (seen, r.2)).2
  := by
  induction nexts generalizing r seen with
  | nil => exact ⟨r, rfl, h, rfl⟩
  | cons next nexts ih =>
      obtain ⟨r₁, hdiscover, h₁, hqueue⟩ := h.discover hsize (hnexts next List.mem_cons_self)
      obtain ⟨r', hfold, h', hqueue'⟩ := ih (fun n hn => hnexts n (List.mem_cons_of_mem _ hn)) h₁
      rw [hqueue] at h' hqueue'
      refine ⟨r', ?_, h', hqueue'⟩
      rw [List.foldlM_cons, hdiscover]
      apply hfold

/-- The loop with a hash table is the worklist search. -/
theorem Discovered.explore (hsize : size < 2 ^ 30)
    (htarget : ∀ a b, nodes.Edge a b → 1 ≤ b ∧ b ≤ size) {goal fuel : ℕ}
    {discovered : HashTable ℕ} {seen queue : List ℕ} {b : Bool}
    (h : Discovered size discovered seen)
    (hsearch : Worklist.search (fun a => (nodes a).edges) goal fuel seen queue = some b) :
  ∃ discovered', CycleGraph.explore nodes goal fuel discovered queue = some (b, discovered') ∧
    ∃ f, HashTable.Holds shift discovered' f
  := by
  induction fuel generalizing discovered seen queue with
  | zero => cases hsearch
  | succ fuel ih =>
      cases queue with
      | nil =>
          cases hsearch
          exact ⟨discovered, rfl, _, h.holds⟩
      | cons node queue =>
          simp only [Worklist.search] at hsearch
          simp only [CycleGraph.explore]
          split_ifs at hsearch ⊢ with hgoal
          · cases hsearch
            exact ⟨discovered, rfl, _, h.holds⟩
          · obtain ⟨r, hfold, hr, hqueue⟩ := Discovered.discovers (r := (discovered, queue)) hsize
              (htarget node) h
            rw [← hqueue] at hsearch
            rw [hfold]
            apply ih hr hsearch

/-- `checkReachable` returns, and tells whether a path leads from node to node. -/
theorem Tables.reaches (h : g.Tables) (hM : g.nodes.Mirrored g.size) (hsize : g.size < 2 ^ 30)
    {m n : ℕ} (hm : 1 ≤ m ∧ m ≤ g.size) :
  ∃ b discovered, g.reaches m n = some (b, { g with discovered }) ∧
    (b = true ↔ Relation.ReflTransGen g.nodes.Edge m n) ∧
    ∃ f, HashTable.Holds shift discovered f
  := by
  obtain ⟨f, hf⟩ := h.discovered
  have hne : m ≠ 0 := by omega
  obtain ⟨t, hput, hholds, hle⟩ := hf.reset.put hne (by simp [HashTable.reset]) m
  have hdiscovered : Discovered g.size t [m] := by
    constructor
    · convert hholds using 1
      funext n
      by_cases hn : n = m
      · simp [hn]
      · simp [hn]
    · apply hle
    · apply List.nodup_singleton
    · intro n hn
      rw [List.mem_singleton.mp hn]
      apply hm
  have hclosed : ∀ a, a ∈ Finset.Icc 1 g.size → ∀ b, b ∈ (g.nodes a).edges →
      b ∈ Finset.Icc 1 g.size := fun a _ b hb => Finset.mem_Icc.mpr (hM.target a b hb)
  have hcard : (Finset.Icc 1 g.size).card < g.size + 1 := by simp
  obtain ⟨b, hsearch, hb⟩ :=
    @Worklist.search_iff ℕ _ _ n m _ (Finset.mem_Icc.mpr hm) hclosed _ hcard
  obtain ⟨t', hexplore, hholds'⟩ := hdiscovered.explore hsize hM.target hsearch
  refine ⟨b, t', ?_, hb, hholds'⟩
  rw [CycleGraph.reaches, hput, Option.bind_some, hexplore]
  rfl

/-- `getNode_noCreate` returns the node of an object, or none. -/
theorem Tables.getNodeNoCreate (h : g.Tables) {o : Object} (ho : o.addr ≠ 0) :
  ∃ n, g.getNodeNoCreate o = some n ∧ (g.Stands n o ∨ n = 0 ∧ ∀ m, ¬ g.Stands m o)
  := by
  cases o with
  | action act => apply h.actions.get ho
  | promise p => apply h.promises.get ho

/-- No two nodes stand for one object. -/
theorem Tables.unique (h : g.Tables) {m n : ℕ} {o : Object} (ho : o.addr ≠ 0)
    (hm : g.Stands m o) (hn : g.Stands n o) :
  m = n
  := by
  cases o with
  | action act => apply h.actions.unique ho hm hn
  | promise p => apply h.promises.unique ho hm hn

/-- `checkReachable` returns, and tells whether both objects have nodes and a path leads from
the one to the other. -/
theorem Tables.checkReachable (h : g.Tables) (hM : g.nodes.Mirrored g.size)
    (hsize : g.size < 2 ^ 30) {s t : Object} (hs : s.addr ≠ 0) (ht : t.addr ≠ 0) :
  ∃ b g', g.checkReachable s t = some (b, g') ∧ (b = true ↔
    ∃ m n, g.Stands m s ∧ g.Stands n t ∧ Relation.ReflTransGen g.nodes.Edge m n)
  := by
  obtain ⟨m, hgetm, hm⟩ := h.getNodeNoCreate hs
  obtain ⟨n, hgetn, hn⟩ := h.getNodeNoCreate ht
  rw [CycleGraph.checkReachable, hgetm, Option.bind_some, hgetn, Option.bind_some]
  rcases hm with hm | ⟨rfl, hm⟩
  · rcases hn with hn | ⟨rfl, hn⟩
    · obtain ⟨b, discovered, hreaches, hb, -⟩ := h.reaches hM hsize (n := n) ⟨hm.pos, hm.le⟩
      have hm' := hm.pos
      have hn' := hn.pos
      rw [if_neg (by omega), hreaches]
      refine ⟨b, _, rfl, hb.trans ?_⟩
      constructor
      · intro hpath
        exact ⟨m, n, hm, hn, hpath⟩
      · rintro ⟨m', n', hm', hn', hpath⟩
        rw [h.unique hs hm hm', h.unique ht hn hn']
        apply hpath
    · refine ⟨false, g, by simp, ?_⟩
      simp [hn]
  · refine ⟨false, g, by simp, ?_⟩
    simp [hm]

/-- `checkReachable` does not take `NULL` either. -/
theorem checkReachable_null {s t : Object} (h : s.addr = 0 ∨ t.addr = 0) :
  g.checkReachable s t = none
  := by
  rw [CycleGraph.checkReachable]
  rcases h with hs | ht
  · rw [getNodeNoCreate_null hs]
    rfl
  · rw [getNodeNoCreate_null ht, Option.bind_eq_none_iff]
    intro _ _
    rfl

end Reaches

end CycleGraph

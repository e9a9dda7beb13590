import ParallelArch.ModelChecker.CycleConstraints
import ParallelArch.ModelChecker.Rollback

/-!
# The modification order

The calls of the cycle graph demand that one store comes before another in the modification
order, or, for an RMW, that it comes immediately after the store it reads.  A demand is in force
from the call on, unless it is rolled back.  `hasCycles` is set if and only if no order meets
the demands in force (`cycles_exact`), as long as the calls are such as the source assumes
(`Allowed`); and such calls return (`calls_return`).
-/

open Relation

namespace CycleGraph

/-! ### Demands -/

/-- What the calls have demanded: up to the last commit, and since. -/
structure Demands where
  committed : List (Constraint Object)
  pending : List (Constraint Object)

namespace Demands

/-- The demands after one more call. -/
def record (d : Demands) : Op → Demands
  | .addEdge source target => { d with pending := d.pending ++ [.before source target] }
  | .addRMWEdge source rmw => { d with pending := d.pending ++ [.next source (.action rmw)] }
  | .startChanges => d
  | .commitChanges => ⟨d.committed ++ d.pending, []⟩
  | .rollbackChanges => ⟨d.committed, []⟩

/-- The demands after the calls `h`. -/
def after (h : List Op) : Demands := h.foldl record ⟨[], []⟩

@[simp]
theorem after_append (h : List Op) (op : Op) :
  after (h ++ [op]) = (after h).record op
  := by simp [after]

/-- All demands, those since the last commit included. -/
def inForce (d : Demands) : List (Constraint Object) := d.committed ++ d.pending

end Demands

/-- What the source assumes of the calls: no object is `NULL`, an RMW reads from one store other
than itself and has not been read yet, and one of the two has no edges that matter; changes
start when there are none. -/
def Allowed (g : CycleGraph) : Op → Prop
  | .addEdge source target => source.addr ≠ 0 ∧ target.addr ≠ 0
  | .addRMWEdge source rmw =>
      source.addr ≠ 0 ∧ rmw ≠ 0 ∧ source ≠ .action rmw ∧
        ∀ r, g.Stands r (.action rmw) →
          (g.nodes r).hasRMW = none ∧ (∀ x, (g.nodes x).hasRMW ≠ some r) ∧
            ∀ a, g.Stands a source → Adjacent.Apart g.nodes.Edge a r
  | .startChanges => g.startChanges = some g
  | .commitChanges => True
  | .rollbackChanges => True

/-! ### Objects for nodes -/

section Follows

variable {g g' : CycleGraph} {a b : ℕ} {s t : Object} {hasCycles : Bool}
  {cs : List (Constraint Object)}

/-- A node that the tables find. -/
def Named (g : CycleGraph) (n : ℕ) : Prop :=
  g.Stands n (g.nodes n).object ∧ (g.nodes n).object.addr ≠ 0

theorem Stands.named (h : g.Stands a s) (hs : s.addr ≠ 0) :
  g.Named a
  := by
  rw [Named, h.object]
  exact ⟨h, hs⟩

/-- The graph reflects constraints on objects by those on their nodes. -/
def Follows (g : CycleGraph) (hasCycles : Bool) (cs : List (Constraint Object)) : Prop :=
  ∃ ns : List (Constraint ℕ), (∀ c, c ∈ ns → c.Within g.Named) ∧
    cs = ns.map (Constraint.map fun n => (g.nodes n).object) ∧ g.nodes.Reflects hasCycles ns

/-- Constraints on nodes can be met if and only if those on their objects can. -/
theorem satisfiable_map (htables : g.Tables) {ns : List (Constraint ℕ)}
    (hnamed : ∀ c, c ∈ ns → c.Within g.Named) :
  Constraint.Satisfiable ns
    ↔ Constraint.Satisfiable (ns.map (Constraint.map fun n => (g.nodes n).object))
  := by
  classical
  constructor
  · have hunique : ∀ {n}, g.Named n →
        (if h : ∃ m, g.Stands m (g.nodes n).object then some h.choose else none) = some n := by
      rintro n ⟨hn, haddr⟩
      have hex : ∃ m, g.Stands m (g.nodes n).object := ⟨n, hn⟩
      rw [dif_pos hex, htables.unique haddr hex.choose_spec hn]
    apply Constraint.Satisfiable.transfer
      (f := fun o => if h : ∃ m, g.Stands m o then some h.choose else none)
    · intro o o' n ho ho'
      split_ifs at ho ho' with hex hex'
      rw [← hex.choose_spec.object, ← hex'.choose_spec.object, Option.some.inj ho,
        Option.some.inj ho']
    · intro c hc
      obtain ⟨c', hc', rfl⟩ := List.mem_map.mp hc
      use c', hc'
      have hwithin := hnamed c' hc'
      cases c' with
      | before x y => exact ⟨hunique hwithin.1, hunique hwithin.2⟩
      | next x y => exact ⟨hunique hwithin.1, hunique hwithin.2⟩
  · apply Constraint.Satisfiable.transfer
      (f := fun n => if g.Named n then some (g.nodes n).object else none)
    · intro m n o hm hn
      split_ifs at hm hn with hm' hn'
      have hobject : (g.nodes n).object = (g.nodes m).object := by
        rw [Option.some.inj hm, Option.some.inj hn]
      apply htables.unique hm'.2 hm'.1
      rw [← hobject]
      apply hn'.1
    · intro c hc
      refine ⟨_, List.mem_map_of_mem hc, ?_⟩
      have hwithin := hnamed c hc
      cases c with
      | before x y => exact ⟨if_pos hwithin.1, if_pos hwithin.2⟩
      | next x y => exact ⟨if_pos hwithin.1, if_pos hwithin.2⟩

theorem Follows.exact (h : g.Follows hasCycles cs) (htables : g.Tables) :
  hasCycles = false ↔ Constraint.Satisfiable cs
  := by
  obtain ⟨ns, hnamed, rfl, hreflects⟩ := h
  rw [hreflects.exact, satisfiable_map htables hnamed]

/-- What a path leads to comes later in every order that meets the constraints. -/
theorem Follows.path (h : g.Follows hasCycles cs) (htables : g.Tables) (ha : g.Stands a s)
    (hb : g.Stands b t) (hs : s.addr ≠ 0) (ht : t.addr ≠ 0) (hne : s ≠ t)
    (hpath : ReflTransGen g.nodes.Edge a b) {lt : Object → Object → Prop}
    (hlt : IsStrictTotalOrder Object lt) (hmet : ∀ c, c ∈ cs → c.Met lt) :
  lt s t
  := by
  obtain ⟨ns, hnamed, rfl, hreflects⟩ := h
  by_contra hnot
  have hback : lt t s := by
    by_contra hnot'
    apply hne
    apply hlt.trichotomous s t hnot hnot'
  have hnamed' : ∀ c, c ∈ ns ++ [.before b a] → c.Within g.Named := by
    intro c hc
    rcases List.mem_append.mp hc with hold | hnew
    · apply hnamed c hold
    · rw [List.mem_singleton.mp hnew]
      exact ⟨hb.named ht, ha.named hs⟩
  have hsat : Constraint.Satisfiable (ns ++ [.before b a]) := by
    rw [satisfiable_map htables hnamed', List.map_append]
    use lt, hlt
    intro c hc
    rcases List.mem_append.mp hc with hold | hnew
    · apply hmet c hold
    · rw [List.mem_singleton.mp hnew, Constraint.map, ha.object, hb.object]
      apply hback
  obtain ⟨lt', hlt', hmet'⟩ := hsat
  have hab : a ≠ b := by
    rintro rfl
    apply hne
    rw [← ha.object, ← hb.object]
  have hforth := Nodes.path_lt hlt'
    (hreflects.implied lt' hlt' fun c hc => hmet' c (List.mem_append_left _ hc))
    ((reflTransGen_iff_eq_or_transGen.mp hpath).resolve_left (Ne.symm hab))
  have hback' : lt' b a := hmet' (.before b a) (by simp)
  apply hlt'.irrefl a
  apply hlt'.trans _ _ _ hforth hback'

theorem Follows.congr (h : g.Follows hasCycles cs) (hsize : g.size ≤ g'.size)
    (hobject : ∀ n, n ≤ g.size → (g'.nodes n).object = (g.nodes n).object)
    (hedges : ∀ n, (g'.nodes n).edges = (g.nodes n).edges)
    (hrmw : ∀ n, (g'.nodes n).hasRMW = (g.nodes n).hasRMW) :
  g'.Follows hasCycles cs
  := by
  obtain ⟨ns, hnamed, rfl, hreflects⟩ := h
  refine ⟨ns, ?_, ?_, hreflects.congr hedges hrmw⟩
  · intro c hc
    apply (hnamed c hc).mono
    rintro n ⟨hn, haddr⟩
    have hsame := hobject n hn.le
    rw [Named, hsame]
    exact ⟨⟨hn.pos, hn.le.trans hsize, hsame⟩, haddr⟩
  · apply List.map_congr_left
    intro c hc
    apply Constraint.map_congr _ (hnamed c hc)
    rintro n ⟨hn, -⟩
    rw [hobject n hn.le]

theorem Follows.snoc (hframe : g.Frame g') {ns : List (Constraint ℕ)} {c : Constraint ℕ}
    (hnamed : ∀ c, c ∈ ns → c.Within g.Named) (hc : c.Within g.Named)
    (hreflects : g'.nodes.Reflects hasCycles (ns ++ [c])) :
  g'.Follows hasCycles
    (ns.map (Constraint.map fun n => (g.nodes n).object)
      ++ [c.map fun n => (g.nodes n).object])
  := by
  have hnamed' : ∀ n, g.Named n → g'.Named n := by
    rintro n ⟨hn, haddr⟩
    rw [Named, hframe.object]
    exact ⟨⟨hn.pos, by rw [hframe.size]; apply hn.le, hframe.object n⟩, haddr⟩
  refine ⟨ns ++ [c], ?_, ?_, hreflects⟩
  · intro d hd
    rcases List.mem_append.mp hd with hold | hnew
    · apply (hnamed d hold).mono hnamed'
    · rw [List.mem_singleton.mp hnew]
      apply hc.mono hnamed'
  · simp only [hframe.object]
    simp

theorem Follows.before (h : g.Follows g.hasCycles cs) (ha : g.Stands a s) (hb : g.Stands b t)
    (hs : s.addr ≠ 0) (ht : t.addr ≠ 0) (hframe : g.Frame g') (he : g.Edged a b g') :
  g'.Follows g'.hasCycles (cs ++ [.before s t])
  := by
  obtain ⟨ns, hnamed, rfl, hreflects⟩ := h
  have hsnoc := Follows.snoc hframe hnamed (c := .before a b) ⟨ha.named hs, hb.named ht⟩
    (he.reflects hreflects)
  rw [Constraint.map, ha.object, hb.object] at hsnoc
  apply hsnoc

theorem Follows.next {g₂ g₃ : CycleGraph} (h : g.Follows g.hasCycles cs) (hg : g.Sound)
    (ha : g.Stands a s) (hb : g.Stands b t) (hs : s.addr ≠ 0) (ht : t.addr ≠ 0)
    (hframe : g.Frame g') (hrmw : g.Rmw a b g₂)
    (htransferred : Transferred b (g₂.nodes a).edges g₂ g₃) (he : g₃.Edged a b g') (hne : s ≠ t)
    (hlast : (g.nodes b).hasRMW = none) (hfree : ∀ x, (g.nodes x).hasRMW ≠ some b)
    (hapart : Adjacent.Apart g.nodes.Edge a b) :
  g'.Follows g'.hasCycles (cs ++ [.next s t])
  := by
  obtain ⟨ns, hnamed, rfl, hreflects⟩ := h
  have hab : a ≠ b := by
    rintro rfl
    apply hne
    rw [← ha.object, ← hb.object]
  have hsnoc := Follows.snoc hframe hnamed (c := .next a b) ⟨ha.named hs, hb.named ht⟩
    (hrmw.reflects htransferred he hreflects (hrmw.sound hg).2.2 hab hlast hfree hapart)
  rw [Constraint.map, ha.object, hb.object] at hsnoc
  apply hsnoc

end Follows

/-! ### Runs -/

section Runs

variable {g g₀ g₁ g' : CycleGraph} {a r : ℕ} {s : Object} {rmw : ℕ} {op : Op} {h : List Op}

theorem Extends.edge (hextends : g.Extends g₁) :
  g₁.nodes.Edge = g.nodes.Edge
  := by
  ext x y
  simp only [Nodes.Edge, Worklist.Edge, hextends.edges]

theorem Extends.stands_old (hextends : g.Extends g₁) (ha : g₁.Stands a s) (hle : a ≤ g.size) :
  g.Stands a s
  := ⟨ha.pos, hle, by rw [← hextends.object a hle]; apply ha.object⟩

/-- What is assumed of an RMW and its store holds with their nodes added as well. -/
theorem Allowed.extends (hallowed : g.Allowed (.addRMWEdge s rmw)) (hg : g.Sound)
    (hextends : g.Extends g₁) (ha : g₁.Stands a s) (hr : g₁.Stands r (.action rmw)) :
  (g₁.nodes r).hasRMW = none ∧ (∀ x, (g₁.nodes x).hasRMW ≠ some r) ∧
    Adjacent.Apart g₁.nodes.Edge a r
  := by
  obtain ⟨-, -, -, hold⟩ := hallowed
  rw [hextends.edge, hextends.hasRMW]
  simp only [hextends.hasRMW]
  by_cases hrle : r ≤ g.size
  · obtain ⟨hnone, hfree, hapart⟩ := hold r (hextends.stands_old hr hrle)
    refine ⟨hnone, hfree, ?_⟩
    by_cases hale : a ≤ g.size
    · apply hapart a (hextends.stands_old ha hale)
    · left
      intro c hc
      cases hale (hg.mirrored.source a c hc).2
  · refine ⟨?_, ?_, ?_⟩
    · apply (hg.mirrored.blank (Nat.lt_of_not_le hrle)).2.2
    · intro x hx
      apply hrle (hg.mirrored.rmw x r hx).2
    · right
      intro x hx
      cases hrle (hg.mirrored.target x r hx).2

theorem Chained.transferred {ts : List ℕ} (hchained : Chained g.nodes)
    (ht : Transferred r ts g g') :
  Chained g'.nodes
  := hchained.congr ht.same.1

/-- What holds of every graph in a run. -/
structure Tracks (g : CycleGraph) (h : List Op) : Prop where
  sound : g.Sound
  size : g.size ≤ 2 * h.length
  chained : Chained g.nodes
  follows : g.Follows g.hasCycles (Demands.after h).inForce
  base : ∃ g₀ : CycleGraph, g₀.Sound ∧ Chained g₀.nodes ∧ g₀.Since g ∧
    g₀.Follows g.oldCycles (Demands.after h).committed

theorem tracks_new :
  new.Tracks []
  := by
  have hchained : Chained new.nodes := fun x => ⟨0, x, .last rfl⟩
  have hfollows : new.Follows false [] := by
    refine ⟨[], by simp, rfl, ?_⟩
    constructor
    · rintro lt - - a b hab
      cases hab
    · rintro a r ⟨⟩
    · rintro ⟨⟩
    · intro _ c hc
      cases hc
    · intro _
      constructor
      · intro a hcycle
        obtain ⟨b, hab, -⟩ := TransGen.head'_iff.mp hcycle
        cases hab
      · rintro a b ⟨⟩
      · rintro a b c ⟨⟩
      · rintro a b c ⟨⟩
      · simp [new]
  refine ⟨sound_new, Nat.zero_le _, hchained, hfollows, new, sound_new, hchained, ?_, hfollows⟩
  apply Since.refl
  · rfl
  · rfl

/-- A call that is neither a commit nor a rollback leaves the base as it is. -/
theorem Tracks.call (ht : g.Tracks h) (hlen : h.length < 2 ^ 28) (happly : g.apply op = some g')
    (hcommit : op ≠ .commitChanges) (hchained : Chained g'.nodes)
    (hdemands : (Demands.after (h ++ [op])).committed = (Demands.after h).committed)
    (hfollows : g'.Follows g'.hasCycles (Demands.after (h ++ [op])).inForce) :
  g'.Tracks (h ++ [op])
  := by
  obtain ⟨hsound, hsize, -, -, g₀, hsound₀, hchained₀, hsince, hfollows₀⟩ := ht
  obtain ⟨hsound', hsize', hsince'⟩ := hsince.apply hsound₀ hsound (by omega) hcommit happly
  refine ⟨hsound', ?_, hchained, hfollows, g₀, hsound₀, hchained₀, hsince', ?_⟩
  · rw [List.length_append, List.length_singleton]
    omega
  · rw [hdemands, hsince'.oldCycles, ← hsince.oldCycles]
    apply hfollows₀

theorem Tracks.addEdge {t : Object} (ht : g.Tracks h) (hlen : h.length < 2 ^ 28)
    (hallowed : g.Allowed (.addEdge s t)) (happly : g.apply (.addEdge s t) = some g') :
  g'.Tracks (h ++ [.addEdge s t])
  := by
  have hsize := ht.size
  obtain ⟨⟨new, g''⟩, hadd, heq⟩ := Option.map_eq_some_iff.mp happly
  obtain rfl : g'' = g' := heq
  obtain ⟨a, b, g₁, hsound₁, hextends, -, ha, hb, he⟩ := addEdge_cases ht.sound (by omega) hadd
  obtain ⟨-, hframe⟩ := he.sound hsound₁
  apply ht.call hlen happly
  · rintro ⟨⟩
  · apply (ht.chained.congr hextends.hasRMW).congr he.hasRMW
  · simp [Demands.record]
  · have hfollows := ht.follows.congr hextends.size hextends.object hextends.edges hextends.hasRMW
    rw [← hextends.hasCycles] at hfollows
    have hnew := hfollows.before ha hb hallowed.1 hallowed.2 hframe he
    simpa [Demands.inForce, Demands.record] using hnew

theorem Tracks.addRMWEdge (ht : g.Tracks h) (hlen : h.length < 2 ^ 28)
    (hallowed : g.Allowed (.addRMWEdge s rmw)) (happly : g.apply (.addRMWEdge s rmw) = some g') :
  g'.Tracks (h ++ [.addRMWEdge s rmw])
  := by
  have hsize := ht.size
  obtain ⟨a, r, g₁, g₂, g₃, hsound₁, hextends, -, ha, hr, -, hrmw, htransferred, hsound₃, hframe₃,
    he⟩ := addRMWEdge_cases ht.sound (by omega) happly
  obtain ⟨-, hframe⟩ := he.sound hsound₃
  obtain ⟨-, hframe₂, -⟩ := hrmw.sound hsound₁
  obtain ⟨hnone, hfree, hapart⟩ := hallowed.extends ht.sound hextends ha hr
  obtain ⟨hs, hr0, hne, -⟩ := hallowed
  have har : a ≠ r := by
    rintro rfl
    apply hne
    rw [← ha.object, ← hr.object]
  apply ht.call hlen happly
  · rintro ⟨⟩
  · have hchained := (ht.chained.congr hextends.hasRMW).rmw hrmw har hnone
    apply (hchained.transferred htransferred).congr he.hasRMW
  · simp [Demands.record]
  · have hfollows := ht.follows.congr hextends.size hextends.object hextends.edges hextends.hasRMW
    rw [← hextends.hasCycles] at hfollows
    have hnew := hfollows.next hsound₁ ha hr hs hr0 ((hframe₂.trans hframe₃).trans hframe) hrmw
      htransferred he hne hnone hfree hapart
    simpa [Demands.inForce, Demands.record] using hnew

theorem Tracks.rollback (ht : g.Tracks h) (hlen : h.length < 2 ^ 28) :
  g.rollbackChanges.Tracks (h ++ [.rollbackChanges])
  := by
  obtain ⟨g₀, hsound₀, hchained₀, hsince, hfollows₀⟩ := ht.base
  have hrestored := hsince.rollback hsound₀ ht.sound
  apply ht.call hlen rfl
  · rintro ⟨⟩
  · apply hchained₀.congr hrestored.hasRMW
  · simp [Demands.record]
  · have hfollows : g.rollbackChanges.Follows g.rollbackChanges.hasCycles
        (Demands.after h).committed := by
      have hsize : g₀.size ≤ g.rollbackChanges.size := hsince.size
      apply hfollows₀.congr hsize _ hrestored.edges hrestored.hasRMW
      intro n hn
      rw [hrestored.object, hsince.object n hn]
    simpa [Demands.inForce, Demands.record] using hfollows

theorem Tracks.commit (ht : g.Tracks h) :
  g.commitChanges.Tracks (h ++ [.commitChanges])
  := by
  obtain ⟨hsound, hsince⟩ := ht.sound.commit
  have hfollows : g.commitChanges.Follows g.hasCycles (Demands.after h).inForce :=
    ht.follows.congr le_rfl (fun _ _ => rfl) (fun _ => rfl) (fun _ => rfl)
  have hdemands : (Demands.after (h ++ [.commitChanges])).committed = (Demands.after h).inForce ∧
      (Demands.after (h ++ [.commitChanges])).inForce = (Demands.after h).inForce := by
    simp [Demands.inForce, Demands.record]
  refine ⟨hsound, ?_, ht.chained, ?_, g.commitChanges, hsound, ht.chained, hsince, ?_⟩
  · rw [List.length_append]
    apply ht.size.trans
    omega
  · rw [hdemands.2]
    apply hfollows
  · rw [hdemands.1]
    apply hfollows

theorem reachable_tracks (hreach : machine.Reachable Allowed h g) (hlen : h.length ≤ 2 ^ 28) :
  g.Tracks h
  := by
  revert hlen
  apply hreach.invariant (I := fun g h => h.length ≤ 2 ^ 28 → g.Tracks h)
  · rintro _ rfl _
    apply tracks_new
  · intro g h op g' e ih hallowed hnext hlen
    obtain ⟨rfl, happly⟩ := machine_next hnext
    rw [List.length_append, List.length_singleton] at hlen
    have ht := ih (by omega)
    cases op with
    | addEdge s t => apply ht.addEdge (by omega) hallowed happly
    | addRMWEdge s rmw => apply ht.addRMWEdge (by omega) hallowed happly
    | startChanges =>
        obtain ⟨rfl, -⟩ := startChanges_eq_some.mp happly
        apply ht.call (by omega) happly
        · rintro ⟨⟩
        · apply ht.chained
        · simp [Demands.record]
        · simpa [Demands.record] using ht.follows
    | commitChanges =>
        cases happly
        apply ht.commit
    | rollbackChanges =>
        cases happly
        apply ht.rollback (by omega)

/-- A cycle is reported if and only if no order of the stores meets the demands in force. -/
theorem cycles_exact (hreach : machine.Reachable Allowed h g) (hlen : h.length ≤ 2 ^ 28) :
  g.checkForCycles = false ↔ Constraint.Satisfiable (Demands.after h).inForce
  := by
  have ht := reachable_tracks hreach hlen
  apply ht.follows.exact ht.sound.tables

/-- `checkReachable` tells of two stores only what holds in every order that meets the demands
in force. -/
theorem checkReachable_sound (hreach : machine.Reachable Allowed h g) (hlen : h.length ≤ 2 ^ 28)
    {t : Object} (hcheck : g.checkReachable s t = some (true, g')) (hne : s ≠ t)
    {lt : Object → Object → Prop} (hlt : IsStrictTotalOrder Object lt)
    (hmet : ∀ c, c ∈ (Demands.after h).inForce → c.Met lt) :
  lt s t
  := by
  have htracks := reachable_tracks hreach hlen
  have hsize := htracks.size
  have hnull : ¬ (s.addr = 0 ∨ t.addr = 0) := by
    intro hnull
    rw [checkReachable_null hnull] at hcheck
    cases hcheck
  rw [not_or] at hnull
  obtain ⟨b, g₁, hb, hiff⟩ := htracks.sound.tables.checkReachable htracks.sound.mirrored
    (by omega) hnull.1 hnull.2
  rw [hcheck] at hb
  cases hb
  obtain ⟨m, n, hm, hn, hpath⟩ := hiff.mp rfl
  apply htracks.follows.path htracks.sound.tables hm hn hnull.1 hnull.2 hne hpath hlt hmet

/-- The loops of a call come to an end, and its assertions hold. -/
theorem calls_return (hreach : machine.Reachable Allowed h g) (hlen : h.length < 2 ^ 28)
    (hallowed : g.Allowed op) :
  ∃ g', g.apply op = some g'
  := by
  have ht := reachable_tracks hreach hlen.le
  have hsize := ht.size
  cases op with
  | addEdge s t =>
      obtain ⟨a, b, g₁, hbind, hsound₁, hextends, hsize₁, ha, hb⟩ :=
        ht.sound.getNodes (by omega) hallowed.1 hallowed.2
      obtain ⟨r, hr⟩ := hsound₁.addNodeEdge (by omega) (ht.chained.congr hextends.hasRMW)
        ⟨ha.pos, ha.le⟩ ⟨hb.pos, hb.le⟩
      have hadd : g.addEdge s t = some r := (hbind fun a b g => g.addNodeEdge a b).trans hr
      rw [CycleGraph.apply, hadd]
      exact ⟨_, rfl⟩
  | addRMWEdge s rmw =>
      obtain ⟨a, r, g₁, hbind, hsound₁, hextends, hsize₁, ha, hr⟩ :=
        ht.sound.getNodes (t := .action rmw) (by omega) hallowed.1 hallowed.2.1
      obtain ⟨hnone, -, -⟩ := hallowed.extends ht.sound hextends ha hr
      have har : a ≠ r := by
        rintro rfl
        apply hallowed.2.2.1
        rw [← ha.object, ← hr.object]
      obtain ⟨g₂, hrmw, heq⟩ := hsound₁.addNodeRMW ⟨ha.pos, ha.le⟩ ⟨hr.pos, hr.le⟩
      obtain ⟨hsound₂, hframe₂, -⟩ := hrmw.sound hsound₁
      have hsize₂ := hframe₂.size
      have hts : ∀ t, t ∈ (g₂.nodes a).edges → 1 ≤ t ∧ t ≤ g₂.size := hsound₂.mirrored.target a
      have htransferred := hsound₂.transferred (r := r) (by rw [hsize₂]; exact ⟨hr.pos, hr.le⟩) hts
      obtain ⟨hsound₃, hframe₃⟩ := htransferred.sound hsound₂
      have hsize₃ := hframe₃.size
      have hchained := ((ht.chained.congr hextends.hasRMW).rmw hrmw har hnone).transferred
        htransferred
      have ha' := ha.le
      have hr' := hr.le
      obtain ⟨r', hlast⟩ := hsound₃.addNodeEdge (by omega) hchained ⟨ha.pos, by omega⟩
        ⟨hr.pos, by omega⟩
      have hadd : g.addRMWEdge s rmw = some r'.2 := by
        apply (hbind fun a r g =>
          if (g.nodes r).hasRMW = none then g.addNodeRMW a r else none).trans
        rw [if_pos hnone, heq, hlast]
        rfl
      exact ⟨_, hadd⟩
  | startChanges => exact ⟨g, hallowed⟩
  | commitChanges => exact ⟨_, rfl⟩
  | rollbackChanges => exact ⟨_, rfl⟩

theorem Reachable.snoc {G : CycleGraph → Op → Prop} (hreach : machine.Reachable G h g)
    (hG : G g op) (happly : g.apply op = some g') :
  machine.Reachable G (h ++ [op]) g'
  := by
  obtain ⟨g₀, hg₀, hrun⟩ := hreach
  use g₀, hg₀
  apply hrun.snoc hG
  simp [machine, happly]

/-- The first call may note an RMW. -/
theorem allowed_new (hs : s.addr ≠ 0) (hrmw : rmw ≠ 0) (hne : s ≠ .action rmw) :
  new.Allowed (.addRMWEdge s rmw)
  := by
  refine ⟨hs, hrmw, hne, ?_⟩
  intro r hr
  have hle : r ≤ 0 := hr.le
  have hpos := hr.pos
  omega

end Runs

/-! ### Runs of a few calls -/

/-- An RMW, and a store that would have to come between it and the store it reads. -/
theorem cycles_exact_between :
  ∃ g, machine.Reachable Allowed [.addRMWEdge (.action 16) 32,
      .addEdge (.action 16) (.promise 16), .addEdge (.promise 16) (.action 32)] g ∧
    ¬ Constraint.Satisfiable [.next (Object.action 16) (.action 32),
      .before (.action 16) (.promise 16), .before (.promise 16) (.action 32)]
  := by
  have hexec : ((new.apply (.addRMWEdge (.action 16) 32)).bind fun g =>
      (g.apply (.addEdge (.action 16) (.promise 16))).bind fun g =>
        (g.apply (.addEdge (.promise 16) (.action 32))).map fun g => g.checkForCycles)
      = some true := by decide +kernel
  obtain ⟨g₁, h₁, hexec⟩ := Option.bind_eq_some_iff.mp hexec
  obtain ⟨g₂, h₂, hexec⟩ := Option.bind_eq_some_iff.mp hexec
  obtain ⟨g₃, h₃, hcycles⟩ := Option.map_eq_some_iff.mp hexec
  have hfirst : new.Allowed (.addRMWEdge (.action 16) 32) :=
    allowed_new (by decide) (by decide) (by decide)
  have hsecond : g₁.Allowed (.addEdge (.action 16) (.promise 16)) := ⟨by decide, by decide⟩
  have hthird : g₂.Allowed (.addEdge (.promise 16) (.action 32)) := ⟨by decide, by decide⟩
  have hreach := Reachable.snoc (Reachable.snoc (Reachable.snoc ⟨new, rfl, .nil⟩ hfirst h₁)
    hsecond h₂) hthird h₃
  use g₃, hreach
  intro hsat
  have hnone := (cycles_exact hreach (by simp)).mpr hsat
  rw [hcycles] at hnone
  cases hnone

/-- An edge to an RMW from a store that comes after the store it reads. -/
theorem calls_return_chain :
  ∃ g g', machine.Reachable Allowed [.addRMWEdge (.action 16) 32,
      .addEdge (.action 16) (.promise 16)] g ∧
    g.apply (.addEdge (.promise 16) (.action 32)) = some g'
  := by
  have hexec : ((new.apply (.addRMWEdge (.action 16) 32)).bind fun g =>
      (g.apply (.addEdge (.action 16) (.promise 16))).map fun g => g.checkForCycles)
      = some false := by decide +kernel
  obtain ⟨g₁, h₁, hexec⟩ := Option.bind_eq_some_iff.mp hexec
  obtain ⟨g₂, h₂, -⟩ := Option.map_eq_some_iff.mp hexec
  have hfirst : new.Allowed (.addRMWEdge (.action 16) 32) :=
    allowed_new (by decide) (by decide) (by decide)
  have hsecond : g₁.Allowed (.addEdge (.action 16) (.promise 16)) := ⟨by decide, by decide⟩
  have hthird : g₂.Allowed (.addEdge (.promise 16) (.action 32)) := ⟨by decide, by decide⟩
  have hreach := Reachable.snoc (Reachable.snoc ⟨new, rfl, .nil⟩ hfirst h₁) hsecond h₂
  obtain ⟨g', hg'⟩ := calls_return hreach (by simp) hthird
  use g₂, g', hreach

/-- The order of the addresses, a promise after an action. -/
def rank : Object → ℕ
  | .action act => 2 * act
  | .promise promise => 2 * promise + 1

theorem rank_injective :
  Function.Injective rank
  := by
  intro s t h
  cases s with
  | action a =>
      cases t with
      | action b =>
          change 2 * a = 2 * b at h
          rw [Nat.eq_of_mul_eq_mul_left (by omega) h]
      | promise b =>
          change 2 * a = 2 * b + 1 at h
          omega
  | promise a =>
      cases t with
      | action b =>
          change 2 * a + 1 = 2 * b at h
          omega
      | promise b =>
          change 2 * a + 1 = 2 * b + 1 at h
          rw [Nat.eq_of_mul_eq_mul_left (by omega) (Nat.succ.inj h)]

/-- A path of two edges. -/
theorem checkReachable_sound_two :
  ∃ g g', machine.Reachable Allowed [.addEdge (.action 16) (.promise 16),
      .addEdge (.promise 16) (.action 32)] g ∧
    g.checkReachable (.action 16) (.action 32) = some (true, g') ∧
    rank (.action 16) < rank (.action 32)
  := by
  have hexec : ((new.apply (.addEdge (.action 16) (.promise 16))).bind fun g =>
      (g.apply (.addEdge (.promise 16) (.action 32))).bind fun g =>
        (g.checkReachable (.action 16) (.action 32)).map Prod.fst)
      = some true := by decide +kernel
  obtain ⟨g₁, h₁, hexec⟩ := Option.bind_eq_some_iff.mp hexec
  obtain ⟨g₂, h₂, hexec⟩ := Option.bind_eq_some_iff.mp hexec
  obtain ⟨⟨b, g'⟩, hcheck, hb⟩ := Option.map_eq_some_iff.mp hexec
  obtain rfl : b = true := hb
  have hfirst : new.Allowed (.addEdge (.action 16) (.promise 16)) := ⟨by decide, by decide⟩
  have hsecond : g₁.Allowed (.addEdge (.promise 16) (.action 32)) := ⟨by decide, by decide⟩
  have hreach := Reachable.snoc (Reachable.snoc ⟨new, rfl, .nil⟩ hfirst h₁) hsecond h₂
  have hlt : IsStrictTotalOrder Object fun s t => rank s < rank t :=
    (RelEmbedding.preimage ⟨rank, rank_injective⟩ (· < ·)).isStrictTotalOrder
  use g₂, g', hreach, hcheck
  apply checkReachable_sound hreach (by simp) hcheck (by decide) hlt
  intro c hc
  simp only [Demands.after, Demands.record, Demands.inForce, List.nil_append, List.cons_append,
    List.foldl_cons, List.foldl_nil, List.mem_cons, List.not_mem_nil, or_false] at hc
  rcases hc with rfl | rfl
  · show rank (.action 16) < rank (.promise 16)
    decide
  · show rank (.promise 16) < rank (.action 32)
    decide

end CycleGraph

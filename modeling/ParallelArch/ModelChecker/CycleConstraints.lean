import ParallelArch.Graphs.Constraints
import ParallelArch.ModelChecker.CycleChanges

/-!
# Constraints and the cycle graph

An edge of the cycle graph is the constraint that one store comes before another, an RMW the
constraint that it comes immediately after the store it reads.  A graph `Reflects` a list of
constraints on its nodes if its edges are implied by them, and if `hasCycles` tells whether
they can be met together; every change of the graph keeps this for the constraint it adds.
-/

open Relation

namespace Nodes

/-- The graph shows a constraint on its nodes. -/
def Shows (nodes : Nodes) : Constraint ℕ → Prop
  | .before a b => nodes.Edge a b
  | .next a r => (nodes a).hasRMW = some r

/-- The graph has the edges that constraints imply, and is closed under what they imply unless
they are contradictory. -/
structure Reflects (nodes : Nodes) (hasCycles : Bool) (cs : List (Constraint ℕ)) : Prop where
  implied : ∀ lt, IsStrictTotalOrder ℕ lt → (∀ c, c ∈ cs → c.Met lt) →
    ∀ a b, nodes.Edge a b → lt a b
  read : ∀ a r, (nodes a).hasRMW = some r → .next a r ∈ cs
  contradictory : hasCycles = true → ¬ Constraint.Satisfiable cs
  shown : hasCycles = false → ∀ c, c ∈ cs → nodes.Shows c
  closed : hasCycles = false → Adjacent.Closed nodes.Edge fun n => (nodes n).hasRMW

variable {nodes nodes' : Nodes} {cs : List (Constraint ℕ)}

theorem Reflects.congr {hasCycles : Bool} (h : nodes.Reflects hasCycles cs)
    (hedges : ∀ a, (nodes' a).edges = (nodes a).edges)
    (hrmw : ∀ a, (nodes' a).hasRMW = (nodes a).hasRMW) :
  nodes'.Reflects hasCycles cs
  := by
  have hedge : nodes'.Edge = nodes.Edge := by
    ext a b
    simp only [Edge, Worklist.Edge, hedges]
  have hshows : ∀ c, nodes'.Shows c ↔ nodes.Shows c := by
    intro c
    cases c with
    | before a b => simp only [Shows, hedge]
    | next a r => simp only [Shows, hrmw]
  constructor
  · rw [hedge]
    apply h.implied
  · intro a r hr
    rw [hrmw] at hr
    apply h.read a r hr
  · apply h.contradictory
  · intro hcycles c hc
    apply (hshows c).mpr (h.shown hcycles c hc)
  · intro hcycles
    rw [hedge]
    simp only [hrmw]
    apply h.closed hcycles

/-- The constraints can be met if and only if no cycle has been found. -/
theorem Reflects.exact {hasCycles : Bool} (h : nodes.Reflects hasCycles cs) :
  hasCycles = false ↔ Constraint.Satisfiable cs
  := by
  constructor
  · intro hcycles
    obtain ⟨lt, htotal, hkeeps, hadjacent⟩ := (h.closed hcycles).exists_order
    use lt, htotal
    intro c hc
    have hshown := h.shown hcycles c hc
    cases c with
    | before a b => apply hkeeps a b hshown
    | next a r => apply hadjacent a r hshown
  · intro hsat
    by_contra hcycles
    apply h.contradictory _ hsat
    simpa using hcycles

/-- Along paths the order is that of the edges. -/
theorem path_lt {lt : ℕ → ℕ → Prop} (hlt : IsStrictTotalOrder ℕ lt)
    (h : ∀ a b, nodes.Edge a b → lt a b) {a b : ℕ} (hpath : TransGen nodes.Edge a b) :
  lt a b
  := transGen_minimal h a b hpath

/-- Who comes before `tonode`, so do the RMWs behind it, up to `tonode`. -/
theorem Ends.lt {lt : ℕ → ℕ → Prop}
    (hread : ∀ x y, (nodes x).hasRMW = some y → ∀ c, lt x c → c = y ∨ lt y c) {a b r e : ℕ}
    (h : nodes.Ends b r e) (hr : (nodes a).hasRMW = some r) (hab : lt a b) (hne : e ≠ b) :
  lt e b
  := by
  have hall : ∀ {x}, ReflTransGen (fun x y => x ≠ b ∧ (nodes x).hasRMW = some y) r x →
      b = x ∨ lt x b := by
    intro x hpath
    induction hpath with
    | refl => apply hread a r hr b hab
    | tail _ hstep ih =>
        rcases ih with heq | hlt
        · cases hstep.1 heq.symm
        · apply hread _ _ hstep.2 b hlt
  rcases hall h.path with heq | hlt
  · cases hne heq.symm
  · apply hlt

end Nodes

namespace CycleGraph

/-! ### An edge -/

section Edge

variable {g g' : CycleGraph} {a b r : ℕ} {cs : List (Constraint ℕ)}

theorem Linked.edge (h : g.Linked a b g') {x y : ℕ} :
  g'.nodes.Edge x y ↔ g.nodes.Edge x y ∨ x = a ∧ y = b
  := by rw [h.nodes, Nodes.edge_link]

theorem Linked.mono (h : g.Linked a b g') (x y : ℕ) (hxy : g.nodes.Edge x y) :
  g'.nodes.Edge x y
  := h.edge.mpr (.inl hxy)

theorem Linked.own (h : g.Linked a b g') :
  g'.nodes.Edge a b
  := h.edge.mpr (.inr ⟨rfl, rfl⟩)

/-- A cycle found is one. -/
theorem Linked.cycle (h : g.Linked a b g') (hc : g.Checked a b g')
    (hcycles : g'.hasCycles = true) :
  g.hasCycles = true ∨ ∃ x, TransGen g'.nodes.Edge x x
  := by
  rcases hc.mp hcycles with hold | hpath
  · left
    apply hold
  · right
    use a
    apply TransGen.head' h.own hpath

theorem Checked.calm (hc : g.Checked a b g') (hcycles : g'.hasCycles = false) :
  g.hasCycles = false
  := by
  by_contra hold
  rw [hc.mpr (.inl (by simpa using hold))] at hcycles
  cases hcycles

/-- A cycle that there is is found. -/
theorem Linked.acyclic (h : g.Linked a b g') (hc : g.Checked a b g')
    (hcycles : g'.hasCycles = false) (hacyclic : ∀ x, ¬ TransGen g.nodes.Edge x x) (x : ℕ) :
  ¬ TransGen g'.nodes.Edge x x
  := by
  apply Adjacent.acyclic_insert hacyclic (fun x y hxy => h.edge.mp hxy)
  intro hpath
  rw [hc.mpr (.inr hpath)] at hcycles
  cases hcycles

theorem Edged.hasRMW (h : g.Edged a b g') (n : ℕ) :
  (g'.nodes n).hasRMW = (g.nodes n).hasRMW
  := by
  cases h with
  | old _ hsame => rw [hsame]
  | unread hlinked => apply hlinked.hasRMW
  | settled hlinked => apply hlinked.hasRMW
  | pushed hlinked _ _ _ _ hlinked' => rw [hlinked'.hasRMW, hlinked.hasRMW]

theorem Edged.own (h : g.Edged a b g') :
  g'.nodes.Edge a b
  := by
  cases h with
  | old hedge hsame =>
      rw [hsame]
      apply hedge
  | unread hlinked => apply hlinked.own
  | settled hlinked => apply hlinked.own
  | pushed hlinked _ _ _ _ hlinked' => apply hlinked'.mono _ _ hlinked.own

theorem Edged.mono (h : g.Edged a b g') (x y : ℕ) (hxy : g.nodes.Edge x y) :
  g'.nodes.Edge x y
  := by
  cases h with
  | old _ hsame =>
      rw [hsame]
      apply hxy
  | unread hlinked => apply hlinked.mono x y hxy
  | settled hlinked => apply hlinked.mono x y hxy
  | pushed hlinked _ _ _ _ hlinked' => apply hlinked'.mono _ _ (hlinked.mono x y hxy)

theorem Edged.calm (h : g.Edged a b g') (hcycles : g'.hasCycles = false) :
  g.hasCycles = false
  := by
  cases h with
  | old _ hsame =>
      rw [← hsame]
      apply hcycles
  | unread _ hchecked => apply hchecked.calm hcycles
  | settled _ hchecked => apply hchecked.calm hcycles
  | pushed _ hchecked _ _ _ _ hchecked' => apply hchecked.calm (hchecked'.calm hcycles)

theorem Edged.cycle (h : g.Edged a b g') (hcycles : g'.hasCycles = true) :
  g.hasCycles = true ∨ ∃ x, TransGen g'.nodes.Edge x x
  := by
  cases h with
  | old _ hsame =>
      left
      rw [← hsame]
      apply hcycles
  | unread hlinked hchecked => apply hlinked.cycle hchecked hcycles
  | settled hlinked hchecked => apply hlinked.cycle hchecked hcycles
  | pushed hlinked hchecked _ _ _ hlinked' hchecked' =>
      rcases hlinked'.cycle hchecked' hcycles with hcycles' | hcycle
      · rcases hlinked.cycle hchecked hcycles' with hold | ⟨x, hx⟩
        · left
          apply hold
        · right
          use x
          apply TransGen.mono hlinked'.mono _ _ hx
      · right
        apply hcycle

theorem Edged.acyclic (h : g.Edged a b g') (hcycles : g'.hasCycles = false)
    (hacyclic : ∀ x, ¬ TransGen g.nodes.Edge x x) (x : ℕ) :
  ¬ TransGen g'.nodes.Edge x x
  := by
  cases h with
  | old _ hsame =>
      rw [hsame]
      apply hacyclic
  | unread hlinked hchecked => apply hlinked.acyclic hchecked hcycles hacyclic
  | settled hlinked hchecked => apply hlinked.acyclic hchecked hcycles hacyclic
  | pushed hlinked hchecked _ _ _ hlinked' hchecked' =>
      apply hlinked'.acyclic hchecked' hcycles
      apply hlinked.acyclic hchecked (hchecked'.calm hcycles) hacyclic

/-- Every edge added is implied. -/
theorem Edged.lt (h : g.Edged a b g') {lt : ℕ → ℕ → Prop}
    (hedges : ∀ x y, g.nodes.Edge x y → lt x y)
    (hread : ∀ x y, (g.nodes x).hasRMW = some y → ∀ c, lt x c → c = y ∨ lt y c)
    (hab : lt a b) (x y : ℕ) (hxy : g'.nodes.Edge x y) :
  lt x y
  := by
  have hlinked : ∀ {g'}, g.Linked a b g' → ∀ {x y}, g'.nodes.Edge x y → lt x y := by
    intro g' hlinked x y hxy
    rcases hlinked.edge.mp hxy with hold | ⟨rfl, rfl⟩
    · apply hedges x y hold
    · apply hab
  cases h with
  | old _ hsame =>
      rw [hsame] at hxy
      apply hedges x y hxy
  | unread h => apply hlinked h hxy
  | settled h => apply hlinked h hxy
  | pushed h _ hr hends hne h' =>
      rcases h'.edge.mp hxy with hold | ⟨rfl, rfl⟩
      · apply hlinked h hold
      · apply hends.lt hread hr hab hne

/-- Along the RMWs lead edges. -/
theorem Ends.path {nodes : Nodes} {edge : ℕ → ℕ → Prop} {e : ℕ}
    (hlinked : ∀ x y, (nodes x).hasRMW = some y → edge x y) (h : nodes.Ends b r e) :
  ReflTransGen edge r e
  := ReflTransGen.mono (fun x y hxy => hlinked x y hxy.2) _ _ h.path

theorem Edged.closed (h : g.Edged a b g') (hcycles : g'.hasCycles = false)
    (hclosed : Adjacent.Closed g.nodes.Edge fun n => (g.nodes n).hasRMW) :
  Adjacent.Closed g'.nodes.Edge fun n => (g'.nodes n).hasRMW
  := by
  have hacyclic := h.acyclic hcycles hclosed.acyclic
  have hmono := h.mono
  simp only [h.hasRMW]
  apply hclosed.grow hmono hacyclic
  intro x y c hxy hxc hcy
  have hpaths : ∀ {e}, g.nodes.Ends b y e → ReflTransGen g'.nodes.Edge y e :=
    fun hends => Ends.path (fun u v huv => hmono _ _ (hclosed.linked u v huv)) hends
  cases h with
  | old _ hsame =>
      left
      rw [← hsame]
      apply hxc
  | unread hlinked _ hunread =>
      rcases hlinked.edge.mp hxc with hold | ⟨rfl, -⟩
      · left
        apply hold
      · simp only [hunread] at hxy
        cases hxy
  | settled hlinked _ hread hends hsettled =>
      rcases hlinked.edge.mp hxc with hold | ⟨rfl, rfl⟩
      · left
        apply hold
      · right
        simp only [hread] at hxy
        cases hxy
        rcases hsettled with rfl | hedge
        · apply (reflTransGen_iff_eq_or_transGen.mp (hpaths hends)).resolve_left hcy
        · apply TransGen.tail' (hpaths hends) hedge
  | pushed hlinked _ hread hends hne hlinked' =>
      rcases hlinked'.edge.mp hxc with hold | ⟨rfl, rfl⟩
      · rcases hlinked.edge.mp hold with hold' | ⟨rfl, rfl⟩
        · left
          apply hold'
        · right
          simp only [hread] at hxy
          cases hxy
          apply TransGen.tail' (hpaths hends) hlinked'.own
      · have hnone := hends.stop.resolve_left hne
        simp only [hnone] at hxy
        cases hxy

theorem met_of_read {nodes : Nodes} {lt : ℕ → ℕ → Prop}
    (hread : ∀ a r, (nodes a).hasRMW = some r → .next a r ∈ cs)
    (hmet : ∀ c, c ∈ cs → Constraint.Met lt c) (x y : ℕ) (hxy : (nodes x).hasRMW = some y) :
  ∀ c, lt x c → c = y ∨ lt y c
  := (hmet _ (hread x y hxy)).2

/-- A cycle of implied edges is a contradiction. -/
theorem unsatisfiable_of_cycle {nodes : Nodes} (himplied : ∀ lt, IsStrictTotalOrder ℕ lt →
      (∀ c, c ∈ cs → Constraint.Met lt c) → ∀ a b, nodes.Edge a b → lt a b)
    {x : ℕ} (hcycle : TransGen nodes.Edge x x) :
  ¬ Constraint.Satisfiable cs
  := by
  rintro ⟨lt, hlt, hmet⟩
  apply hlt.irrefl x
  apply Nodes.path_lt hlt (himplied lt hlt hmet) hcycle

/-- The demand that `a` comes before `b`. -/
theorem Edged.reflects (h : g.Edged a b g') (hg : g.nodes.Reflects g.hasCycles cs) :
  g'.nodes.Reflects g'.hasCycles (cs ++ [.before a b])
  := by
  have hsub : ∀ c, c ∈ cs → c ∈ cs ++ [.before a b] := fun c hc => List.mem_append_left _ hc
  have himplied : ∀ lt, IsStrictTotalOrder ℕ lt →
      (∀ c, c ∈ cs ++ [.before a b] → Constraint.Met lt c) →
      ∀ a b, g'.nodes.Edge a b → lt a b := by
    intro lt hlt hmet
    have hold : ∀ c, c ∈ cs → Constraint.Met lt c := fun c hc => hmet c (hsub c hc)
    apply h.lt (hg.implied lt hlt hold) (met_of_read hg.read hold)
    apply hmet (.before a b)
    simp
  constructor
  · apply himplied
  · intro x y hxy
    rw [h.hasRMW] at hxy
    apply hsub _ (hg.read x y hxy)
  · intro hcycles hsat
    rcases h.cycle hcycles with hold | ⟨x, hcycle⟩
    · apply hg.contradictory hold (hsat.mono hsub)
    · apply unsatisfiable_of_cycle himplied hcycle hsat
  · intro hcycles c hc
    rcases List.mem_append.mp hc with hold | hnew
    · have hshown := hg.shown (h.calm hcycles) c hold
      cases c with
      | before x y => apply h.mono x y hshown
      | next x y => exact (h.hasRMW x).trans hshown
    · rw [List.mem_singleton.mp hnew]
      apply h.own
  · intro hcycles
    apply h.closed hcycles (hg.closed (h.calm hcycles))

end Edge

/-! ### An RMW -/

section Rmw

variable {g g₁ g₂ g₃ g' : CycleGraph} {a b r : ℕ} {cs : List (Constraint ℕ)}

/-- What the loop over the edges of the store leaves as it is. -/
theorem Transferred.same {ts : List ℕ} (h : Transferred r ts g g') :
  (∀ n, (g'.nodes n).hasRMW = (g.nodes n).hasRMW) ∧ g'.hasCycles = g.hasCycles
  := by
  induction h with
  | done => simp
  | old _ _ ih => apply ih
  | link _ hlinked hcycles _ ih =>
      constructor
      · intro n
        rw [ih.1, hlinked.hasRMW]
      · rw [ih.2, hcycles]

theorem Transferred.mono {ts : List ℕ} (h : Transferred r ts g g') (x y : ℕ)
    (hxy : g.nodes.Edge x y) :
  g'.nodes.Edge x y
  := by
  induction h with
  | done => apply hxy
  | old _ _ ih => apply ih hxy
  | link _ hlinked _ _ ih => apply ih (hlinked.mono x y hxy)

theorem Transferred.target {ts : List ℕ} (h : Transferred r ts g g') {t : ℕ} (ht : t ∈ ts)
    (hne : t ≠ r) :
  g'.nodes.Edge r t
  := by
  induction h with
  | done => cases ht
  | old hold hrest ih =>
      rcases List.mem_cons.mp ht with rfl | ht
      · apply hrest.mono _ _ (hold.resolve_left hne)
      · apply ih ht
  | link _ hlinked _ hrest ih =>
      rcases List.mem_cons.mp ht with rfl | ht
      · apply hrest.mono _ _ hlinked.own
      · apply ih ht

theorem Transferred.new {ts : List ℕ} (h : Transferred r ts g g') {x y : ℕ}
    (hxy : g'.nodes.Edge x y) :
  g.nodes.Edge x y ∨ x = r ∧ y ∈ ts ∧ y ≠ r
  := by
  induction h with
  | done =>
      left
      apply hxy
  | old _ _ ih =>
      rcases ih hxy with hold | ⟨hx, hy, hne⟩
      · left
        apply hold
      · right
        exact ⟨hx, List.mem_cons_of_mem _ hy, hne⟩
  | link hne hlinked _ _ ih =>
      rcases ih hxy with hold | ⟨hx, hy, hne'⟩
      · rcases hlinked.edge.mp hold with hold' | ⟨hx, hy⟩
        · left
          apply hold'
        · right
          rw [hy]
          exact ⟨hx, List.mem_cons_self, hne⟩
      · right
        exact ⟨hx, List.mem_cons_of_mem _ hy, hne'⟩

theorem Transferred.copied (h : Transferred r (g.nodes a).edges g g') :
  Adjacent.Copied g.nodes.Edge a r g'.nodes.Edge
  := by
  constructor
  · apply h.mono
  · intro c hc hne
    apply h.target hc hne
  · intro x y hxy
    apply h.new hxy

/-- The edge to the RMW itself is pushed nowhere. -/
theorem Edged.only (h : g.Edged a b g') (hread : (g.nodes a).hasRMW = some b) {x y : ℕ}
    (hxy : g'.nodes.Edge x y) :
  g.nodes.Edge x y ∨ x = a ∧ y = b
  := by
  cases h with
  | old _ hsame =>
      left
      rw [← hsame]
      apply hxy
  | unread hlinked => apply hlinked.edge.mp hxy
  | settled hlinked => apply hlinked.edge.mp hxy
  | pushed _ _ hread' hends hne =>
      rw [hread] at hread'
      obtain rfl := Option.some.inj hread'
      rcases hends.path.cases_head with heq | ⟨_, hstep, -⟩
      · cases hne heq.symm
      · cases hstep.1 rfl

theorem Rmw.read (h : g.Rmw a r g') (hread : ∀ x y, (g.nodes x).hasRMW = some y → .next x y ∈ cs)
    (x y : ℕ) (hxy : (g'.nodes x).hasRMW = some y) :
  .next x y ∈ cs ++ [.next a r]
  := by
  cases h with
  | noted hnoted =>
      rw [hnoted.nodes, Nodes.note_hasRMW] at hxy
      split_ifs at hxy with hx
      · rw [hx, Option.some.inj hxy]
        simp
      · apply List.mem_append_left _ (hread x y hxy)
  | second _ hsame =>
      rw [hsame] at hxy
      apply List.mem_append_left _ (hread x y hxy)

/-- Two RMWs cannot read from the same store. -/
theorem unsatisfiable_of_second {r' : ℕ} (hne : r' ≠ r) (h : .next a r ∈ cs)
    (h' : .next a r' ∈ cs) :
  ¬ Constraint.Satisfiable cs
  := by
  rintro ⟨lt, hlt, hmet⟩
  obtain ⟨har, hnext⟩ := hmet _ h
  obtain ⟨har', hnext'⟩ := hmet _ h'
  have hrr' := (hnext r' har').resolve_left hne
  have hr'r := (hnext' r har).resolve_left (Ne.symm hne)
  apply hlt.irrefl r (hlt.trans _ _ _ hrr' hr'r)

/-- The demand that the RMW `r` comes immediately after `a`. -/
theorem Rmw.reflects (hrmw : g₁.Rmw a r g₂) (ht : Transferred r (g₂.nodes a).edges g₂ g₃)
    (he : g₃.Edged a r g') (hg : g₁.nodes.Reflects g₁.hasCycles cs)
    (hedge₂ : g₂.nodes.Edge = g₁.nodes.Edge) (hne : a ≠ r)
    (hlast : (g₁.nodes r).hasRMW = none) (hfree : ∀ x, (g₁.nodes x).hasRMW ≠ some r)
    (hapart : Adjacent.Apart g₁.nodes.Edge a r) :
  g'.nodes.Reflects g'.hasCycles (cs ++ [.next a r])
  := by
  obtain ⟨hsame, hcycles₃⟩ := ht.same
  have hcopied := ht.copied
  rw [hedge₂] at hcopied
  have hsub : ∀ c, c ∈ cs → c ∈ cs ++ [.next a r] := fun c hc => List.mem_append_left _ hc
  have hown : .next a r ∈ cs ++ [.next a r] := by simp
  have hread₃ : ∀ x y, (g₃.nodes x).hasRMW = some y → .next x y ∈ cs ++ [.next a r] := by
    intro x y hxy
    rw [hsame] at hxy
    apply hrmw.read hg.read x y hxy
  have himplied : ∀ lt, IsStrictTotalOrder ℕ lt →
      (∀ c, c ∈ cs ++ [.next a r] → Constraint.Met lt c) →
      ∀ a b, g'.nodes.Edge a b → lt a b := by
    intro lt hlt hmet
    have hold := hg.implied lt hlt fun c hc => hmet c (hsub c hc)
    obtain ⟨har, hnext⟩ := hmet _ hown
    apply he.lt _ (met_of_read hread₃ hmet) har
    intro x y hxy
    rcases hcopied.new x y hxy with hxy' | ⟨rfl, hay, hne⟩
    · apply hold x y hxy'
    · apply (hnext y (hold a y hay)).resolve_left hne
  have hnoted : g'.hasCycles = false → g₁.Noted a r g₂ := by
    intro hcycles
    cases hrmw with
    | noted hnoted => apply hnoted
    | second _ hsecond =>
        have hcalm := he.calm hcycles
        rw [hcycles₃, hsecond] at hcalm
        cases hcalm
  have hcalm : g'.hasCycles = false → g₁.hasCycles = false := by
    intro hcycles
    rw [← (hnoted hcycles).hasCycles, ← hcycles₃]
    apply he.calm hcycles
  have hrmw' : g'.hasCycles = false → ∀ x,
      (g'.nodes x).hasRMW = if x = a then some r else (g₁.nodes x).hasRMW := by
    intro hcycles x
    rw [he.hasRMW, hsame, (hnoted hcycles).nodes, Nodes.note_hasRMW]
  constructor
  · apply himplied
  · intro x y hxy
    rw [he.hasRMW] at hxy
    apply hread₃ x y hxy
  · intro hcycles hsat
    rcases he.cycle hcycles with hold | ⟨x, hcycle⟩
    · cases hrmw with
      | noted hnoted =>
          rw [hcycles₃, hnoted.hasCycles] at hold
          apply hg.contradictory hold (hsat.mono hsub)
      | second hsome _ =>
          obtain ⟨r', hr'⟩ := Option.ne_none_iff_exists'.mp hsome
          apply unsatisfiable_of_second _ hown (hsub _ (hg.read a r' hr')) hsat
          rintro rfl
          apply hfree a hr'
    · apply unsatisfiable_of_cycle himplied hcycle hsat
  · intro hcycles c hc
    rcases List.mem_append.mp hc with hold | hnew
    · have hshown := hg.shown (hcalm hcycles) c hold
      cases c with
      | before x y =>
          apply he.mono
          apply hcopied.mono x y hshown
      | next x y =>
          have hxa : x ≠ a := by
            rintro rfl
            change (g₁.nodes x).hasRMW = some y at hshown
            rw [(hnoted hcycles).fresh] at hshown
            cases hshown
          change (g'.nodes x).hasRMW = some y
          rw [hrmw' hcycles, if_neg hxa]
          apply hshown
    · rw [List.mem_singleton.mp hnew]
      change (g'.nodes a).hasRMW = some r
      rw [hrmw' hcycles, if_pos rfl]
  · intro hcycles
    have hclosed := hg.closed (hcalm hcycles)
    have hread : (g₃.nodes a).hasRMW = some r := by
      rw [← he.hasRMW, hrmw' hcycles, if_pos rfl]
    apply hclosed.adjoin hcopied he.mono (fun x y hxy => he.only hread hxy) he.own
    · apply he.acyclic hcycles
      apply hcopied.acyclic hapart hclosed.acyclic
    · apply hne
    · apply hlast
    · apply hfree
    · intro x y hxy
      rw [hrmw' hcycles] at hxy
      split_ifs at hxy with hx
      · left
        exact ⟨hx, (Option.some.inj hxy).symm⟩
      · right
        exact ⟨hx, hxy⟩

/-- The RMWs from any node on come to an end. -/
def Chained (nodes : Nodes) : Prop :=
  ∀ x, ∃ d e, Adjacent.Chain (fun n => (nodes n).hasRMW) x d e

theorem Chained.congr {nodes nodes' : Nodes} (h : Chained nodes)
    (hrmw : ∀ n, (nodes' n).hasRMW = (nodes n).hasRMW) :
  Chained nodes'
  := by
  intro x
  simp only [hrmw]
  apply h x

theorem Chained.rmw (h : Chained g.nodes) (hrmw : g.Rmw a r g') (hne : a ≠ r)
    (hlast : (g.nodes r).hasRMW = none) :
  Chained g'.nodes
  := by
  cases hrmw with
  | noted hnoted =>
      intro x
      apply Adjacent.chains_adjoin h hne hlast hnoted.fresh
      · rw [hnoted.nodes, Nodes.note_hasRMW, if_pos rfl]
      · intro y hy
        rw [hnoted.nodes, Nodes.note_hasRMW, if_neg hy]
  | second _ hsame =>
      rw [hsame]
      apply h

end Rmw

end CycleGraph

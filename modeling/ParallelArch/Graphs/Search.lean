import Mathlib.Data.Finset.Card
import Mathlib.Logic.Relation

/-!
# Worklist search

`search succ goal` explores a graph from the nodes on a stack, remembering which nodes it has
seen.  It ends, and finds the goal if and only if the goal is reachable (`search_iff`).
-/

namespace Worklist

variable {α : Type*} [DecidableEq α]

/-- A successor not seen before is seen, and goes on the stack. -/
def visit (r : List α × List α) (next : α) : List α × List α :=
  if next ∈ r.1 then r else (next :: r.1, next :: r.2)

/-- Explore from the nodes on the stack `queue`; `seen` have been there. -/
def search (succ : α → List α) (goal : α) : ℕ → List α → List α → Option Bool
  | 0, _, _ => none
  | _ + 1, _, [] => some false
  | fuel + 1, seen, node :: queue =>
      if node = goal then some true
      else
        let r := (succ node).foldl visit (seen, queue)
        search succ goal fuel r.1 r.2

/-- The edges of the graph. -/
def Edge (succ : α → List α) (a b : α) : Prop := b ∈ succ a

/-! ### One node -/

theorem visit_cases (r : List α × List α) (next : α) :
  next ∈ r.1 ∧ visit r next = r ∨ next ∉ r.1 ∧ visit r next = (next :: r.1, next :: r.2)
  := by
  by_cases h : next ∈ r.1
  · left
    exact ⟨h, if_pos h⟩
  · right
    exact ⟨h, if_neg h⟩

/-- Visiting the successors `nexts` sees them all, and puts those on the stack that had not
been seen. -/
structure Visited (nexts : List α) (r r' : List α × List α) : Prop where
  nodup : r.1.Nodup → r'.1.Nodup
  mem : ∀ a, a ∈ r'.1 ↔ a ∈ r.1 ∨ a ∈ nexts
  queue : ∃ new, r'.2 = new ++ r.2 ∧ (∀ a, a ∈ new ↔ a ∈ nexts ∧ a ∉ r.1) ∧
    r'.1.length = new.length + r.1.length

theorem visits (nexts : List α) (r : List α × List α) :
  Visited nexts r (nexts.foldl visit r)
  := by
  induction nexts generalizing r with
  | nil =>
      constructor
      · exact id
      · simp
      · use []
        simp
  | cons next nexts ih =>
      rw [List.foldl_cons]
      rcases visit_cases r next with ⟨hseen, hvisit⟩ | ⟨hnew, hvisit⟩
      · rw [hvisit]
        obtain ⟨hnodup, hmem, new, hqueue, hnews, hlen⟩ := ih r
        refine ⟨hnodup, ?_, new, hqueue, ?_, hlen⟩
        · intro a
          rw [hmem, List.mem_cons]
          grind
        · intro a
          rw [hnews, List.mem_cons]
          grind
      · rw [hvisit]
        obtain ⟨hnodup, hmem, new, hqueue, hnews, hlen⟩ := ih (next :: r.1, next :: r.2)
        refine ⟨?_, ?_, new ++ [next], ?_, ?_, ?_⟩
        · intro hr
          apply hnodup
          apply List.nodup_cons.mpr ⟨hnew, hr⟩
        · intro a
          rw [hmem, List.mem_cons, List.mem_cons]
          tauto
        · rw [hqueue, List.append_assoc]
          rfl
        · intro a
          rw [List.mem_append, hnews, List.mem_singleton, List.mem_cons, List.mem_cons]
          grind
        · rw [hlen, List.length_append, List.length_cons, List.length_singleton]
          omega

/-! ### The search -/

variable {succ : α → List α} {goal root : α} {S : Finset α}

/-- What holds before each turn: the nodes seen are those reachable along nodes that are not
the goal, but for what is still to be found from the stack. -/
structure Searching (succ : α → List α) (goal root : α) (S : Finset α) (seen queue : List α) :
    Prop where
  nodup : seen.Nodup
  rooted : root ∈ seen
  within : ∀ a, a ∈ seen → a ∈ S
  reached : ∀ a, a ∈ seen → Relation.ReflTransGen (Edge succ) root a
  stacked : ∀ a, a ∈ queue → a ∈ seen
  done : ∀ a, a ∈ seen → a ∉ queue → a ≠ goal ∧ ∀ b, b ∈ succ a → b ∈ seen

theorem Searching.step (hclosed : ∀ a, a ∈ S → ∀ b, b ∈ succ a → b ∈ S) {seen queue : List α}
    {node : α} (h : Searching succ goal root S seen (node :: queue)) (hne : node ≠ goal) :
  Searching succ goal root S ((succ node).foldl visit (seen, queue)).1
    ((succ node).foldl visit (seen, queue)).2
  := by
  obtain ⟨hnodup, hmem, new, hqueue, hnews, -⟩ := visits (succ node) (seen, queue)
  have hnode : node ∈ seen := h.stacked node List.mem_cons_self
  constructor
  · apply hnodup h.nodup
  · rw [hmem]
    left
    apply h.rooted
  · intro a ha
    rcases (hmem a).mp ha with hseen | hsucc
    · apply h.within a hseen
    · apply hclosed node (h.within node hnode) a hsucc
  · intro a ha
    rcases (hmem a).mp ha with hseen | hsucc
    · apply h.reached a hseen
    · apply (h.reached node hnode).tail hsucc
  · intro a ha
    rw [hqueue, List.mem_append, hnews] at ha
    rw [hmem]
    rcases ha with ⟨hsucc, -⟩ | hold
    · right
      apply hsucc
    · left
      apply h.stacked a (List.mem_cons_of_mem _ hold)
  · intro a ha hout
    rw [hqueue, List.mem_append, not_or] at hout
    obtain ⟨hnotnew, hnotold⟩ := hout
    have hseen : a ∈ seen := by
      rcases (hmem a).mp ha with hseen | hsucc
      · apply hseen
      · by_contra hfresh
        apply hnotnew
        apply (hnews a).mpr ⟨hsucc, hfresh⟩
    by_cases han : a = node
    · subst han
      use hne
      intro b hb
      rw [hmem]
      right
      apply hb
    · have hrest : a ∉ node :: queue := by
        rw [List.mem_cons, not_or]
        exact ⟨han, hnotold⟩
      obtain ⟨hgoal, hsuccs⟩ := h.done a hseen hrest
      use hgoal
      intro b hb
      rw [hmem]
      left
      apply hsuccs b hb

omit [DecidableEq α] in
/-- With nothing left on the stack, everything reachable has been seen. -/
theorem Searching.unreachable {seen : List α} (h : Searching succ goal root S seen []) :
  ¬ Relation.ReflTransGen (Edge succ) root goal
  := by
  intro hreach
  have hall : ∀ {a}, Relation.ReflTransGen (Edge succ) root a → a ∈ seen := by
    intro a ha
    induction ha with
    | refl => apply h.rooted
    | tail _ hedge ih => apply (h.done _ ih List.not_mem_nil).2 _ hedge
  apply (h.done goal (hall hreach) List.not_mem_nil).1 rfl

theorem Searching.search_iff (hclosed : ∀ a, a ∈ S → ∀ b, b ∈ succ a → b ∈ S) {fuel : ℕ}
    {seen queue : List α} (h : Searching succ goal root S seen queue)
    (hfuel : queue.length + (S.card - seen.length) < fuel) :
  ∃ b, search succ goal fuel seen queue = some b ∧
    (b = true ↔ Relation.ReflTransGen (Edge succ) root goal)
  := by
  induction fuel generalizing seen queue with
  | zero => cases hfuel
  | succ fuel ih =>
      cases queue with
      | nil =>
          use false, rfl
          simpa using h.unreachable
      | cons node queue =>
          simp only [search]
          split_ifs with hgoal
          · subst hgoal
            use true, rfl
            simpa using h.reached node (h.stacked node List.mem_cons_self)
          · have hnext := h.step hclosed hgoal
            obtain ⟨-, -, new, hqueue, -, hlen⟩ := visits (succ node) (seen, queue)
            simp only at hqueue hlen
            apply ih hnext
            have hcard : ((succ node).foldl visit (seen, queue)).1.length ≤ S.card := by
              rw [← List.toFinset_card_of_nodup hnext.nodup]
              apply Finset.card_le_card
              intro a ha
              apply hnext.within a (List.mem_toFinset.mp ha)
            rw [hqueue, List.length_append]
            rw [hlen] at hcard ⊢
            rw [List.length_cons] at hfuel
            omega

/-- The search from a node ends, and finds the goal if and only if a path leads there. -/
theorem search_iff (hroot : root ∈ S) (hclosed : ∀ a, a ∈ S → ∀ b, b ∈ succ a → b ∈ S) {fuel : ℕ}
    (hfuel : S.card < fuel) :
  ∃ b, search succ goal fuel [root] [root] = some b ∧
    (b = true ↔ Relation.ReflTransGen (Edge succ) root goal)
  := by
  have hstart : Searching succ goal root S [root] [root] := by
    constructor
    · apply List.nodup_singleton
    · apply List.mem_singleton_self
    · intro a ha
      rw [List.mem_singleton.mp ha]
      apply hroot
    · intro a ha
      rw [List.mem_singleton.mp ha]
    · exact fun a ha => ha
    · intro a ha hout
      cases hout ha
  apply hstart.search_iff hclosed
  have := Finset.card_pos.mpr ⟨root, hroot⟩
  simp only [List.length_singleton]
  omega

end Worklist

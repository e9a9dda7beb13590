import Mathlib.Data.List.Nodup
import Mathlib.Data.List.Perm.Subperm
import ParallelArch.LinkedList.Sequential

/-!
# The nodes of the list

A node dies in one of three places: `add` deletes its new node when the value is present,
`remove` the node it has cut out, and the destructor walks from `head` and deletes what is
still in the chain.  When one thread has used the list, whatever it has called, these are
the nodes outside the chain and the nodes of the chain: each node is deleted exactly once,
and none is followed a pointer to afterwards (`deletes_once`).
-/

namespace LockFreeList

variable {T : Type*}

/-! ### The destructor -/

/-- At most `fuel` rounds of the destructor's loop.  A round exists only if `node` points to
a live node. -/
def destroyFrom : ℕ → Mem T → Ptr → Option (Mem T)
  | 0, _, _ => none
  | fuel + 1, m, node =>
      if node = .null then some m
      else if m.Live node then
        destroyFrom fuel (m.delete node.addr) (m.next node.addr).getPointer
      else none

/-- `~LockFreeList()`. -/
def destroy (fuel : ℕ) (m : Mem T) : Option (Mem T) := destroyFrom fuel m m.head.getPointer

/-- The destructor deletes the nodes of a chain of live nodes. -/
theorem destroyFrom_chain {ws : List ℕ} :
  ∀ {m : Mem T} {node : Ptr} {fuel : ℕ}, node.mark = false → Linked 0 m.succ node.addr ws →
    ws.Nodup → (∀ a ∈ ws, a < m.size ∧ m.deleted a = 0) → ws.length < fuel →
    ∃ m', destroyFrom fuel m node = some m' ∧ ∀ a, m'.deleted a = m.deleted a + ws.count a
  := by
  induction ws with
  | nil =>
      intro m node fuel hmark hnull _ _ hfuel
      obtain ⟨fuel, rfl⟩ := Nat.exists_eq_add_one.mpr hfuel
      use m, if_pos (Ptr.eq_null hmark hnull)
      intro a
      rfl
  | cons b ws ih =>
      rintro m node fuel hmark ⟨rfl, hnull, hrest⟩ hnodup hlive hfuel
      obtain ⟨hout, hnodup⟩ := List.nodup_cons.mp hnodup
      obtain ⟨hheap, hdeleted⟩ := hlive _ List.mem_cons_self
      obtain ⟨fuel, rfl⟩ := Nat.exists_eq_add_one.mpr (Nat.zero_lt_of_lt hfuel)
      have hne : node ≠ .null := by
        rintro rfl
        apply hnull rfl
      have hnode : m.Live node := ⟨⟨hmark, Nat.pos_of_ne_zero hnull, hheap⟩, hdeleted⟩
      have elsewhere : ∀ a, a ≠ node.addr → (m.delete node.addr).deleted a = m.deleted a := by
        intro a ha
        apply Function.update_of_ne ha
      have hlive' : ∀ a ∈ ws, a < m.size ∧ (m.delete node.addr).deleted a = 0 := by
        intro a ha
        have hne : a ≠ node.addr := by
          rintro rfl
          apply hout ha
        rw [elsewhere a hne]
        apply hlive a (List.mem_cons_of_mem _ ha)
      obtain ⟨m', hrun, hcount⟩ : ∃ m', destroyFrom fuel (m.delete node.addr)
          (m.next node.addr).getPointer = some m' ∧
            ∀ a, m'.deleted a = (m.delete node.addr).deleted a + ws.count a :=
        ih rfl hrest hnodup hlive' (Nat.lt_of_succ_lt_succ hfuel)
      use m'
      constructor
      · rw [destroyFrom, if_neg hne, if_pos hnode, hrun]
      · intro a
        rw [hcount a]
        rcases eq_or_ne a node.addr with rfl | hne
        · have hself : (m.delete node.addr).deleted node.addr = m.deleted node.addr + 1 :=
            Function.update_self ..
          rw [List.count_cons_self, hself, Nat.add_right_comm, Nat.add_assoc]
        · rw [elsewhere a hne, List.count_cons_of_ne hne.symm]

variable [LinearOrder T] {m : Mem T} {xs : List ℕ}

/-- After the destructor every node given out has been deleted once. -/
theorem Calm.destroy (h : Calm m xs none) :
  ∃ m', LockFreeList.destroy m.size m = some m' ∧
    ∀ a, m'.deleted a = if 0 < a ∧ a < m.size then 1 else 0
  := by
  have hlive : ∀ a ∈ m.head.addr :: xs, a < m.size ∧ m.deleted a = 0 := by
    intro a ha
    exact ⟨h.shape.inHeap a ha, h.balanced.deleted (.inl ha)⟩
  have hpos : ∀ a ∈ m.head.addr :: xs, a ≠ 0 := h.shape.linked.ne_null
  have hlength : (m.head.addr :: xs).length < m.size := by
    have hnodup : (0 :: m.head.addr :: xs).Nodup := by
      apply List.nodup_cons.mpr
      refine ⟨?_, h.shape.nodup⟩
      intro hzero
      apply hpos 0 hzero rfl
    have hsub : 0 :: m.head.addr :: xs ⊆ List.range m.size := by
      intro a ha
      rw [List.mem_range]
      rcases List.mem_cons.mp ha with rfl | ha
      · apply Nat.zero_lt_of_lt (hlive _ List.mem_cons_self).1
      · apply (hlive a ha).1
    have hle := (List.subperm_of_subset hnodup hsub).length_le
    rwa [List.length_range] at hle
  obtain ⟨m', hrun, hcount⟩ : ∃ m', destroyFrom m.size m m.head.getPointer = some m' ∧
      ∀ a, m'.deleted a = m.deleted a + (m.head.addr :: xs).count a :=
    destroyFrom_chain rfl h.shape.linked h.shape.nodup hlive hlength
  use m', hrun
  intro a
  rw [hcount a]
  by_cases ha : a ∈ m.head.addr :: xs
  · obtain ⟨hheap, hdeleted⟩ := hlive a ha
    rw [hdeleted, List.count_eq_one_of_mem h.shape.nodup ha,
      if_pos ⟨Nat.pos_of_ne_zero (hpos a ha), hheap⟩]
  · have hfree : ¬ Owned m xs none a := by
      rintro (hin | hown)
      · apply ha hin
      · cases hown
    rw [h.balanced a, List.count_eq_zero_of_not_mem ha]
    simp only [hfree, not_false_iff, and_true, add_zero]

/-! ### The life of a list -/

variable [Inhabited T]

/-- For every sequence of calls by one thread on a fresh list: the calls come to an end, no
step of them follows a pointer to a deleted node, and the destructor then comes to an end
too and every node given out has been deleted exactly once. -/
theorem deletes_once (calls : List (Call T)) :
  (∃ h m, Goes Mem.new ⟨calls, .idle⟩ h m ⟨[], .idle⟩) ∧
    (∀ h s, (list Unit T).Run Machine.Free ⟨Mem.new, fun _ => ⟨calls, .idle⟩⟩ h s →
      FollowsLive s) ∧
    ∀ h m, Goes Mem.new ⟨calls, .idle⟩ h m ⟨[], .idle⟩ →
      ∃ m', destroy m.size m = some m' ∧
        ∀ a, m'.deleted a = if 0 < a ∧ a < m.size then 1 else 0
  := by
  obtain ⟨h, m, xs, hgoes, hcalm⟩ := calls_end calls Calm.new
  refine ⟨⟨h, m, hgoes.goes⟩, ?_, ?_⟩
  · intro h' s hrun
    rcases hrun.guard_of_final hgoes (final m) with rfl | ⟨-, hlive⟩
    · rintro i p ⟨⟩
    · apply hlive
  · intro h' m' hrun
    obtain ⟨h₁, hrest, -⟩ := Machine.Run.prefix_of_final hrun hgoes (final m)
    have heq := congrArg Global.mem (hrest.eq_of_final (final m'))
    obtain rfl : m = m' := heq
    apply hcalm.destroy

end LockFreeList

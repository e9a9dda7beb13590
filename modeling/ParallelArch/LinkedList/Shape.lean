import Mathlib.Data.Set.Insert
import ParallelArch.Concurrency.Chain
import ParallelArch.Concurrency.Lock
import ParallelArch.LinkedList.Model

/-!
# The shape of the list

As long as `find` does not cut anything out and `remove` does not mark a node that is
marked already, the nodes form a chain from `head` to null with strictly ascending values
behind `head`.  A node leaves the chain only after it has been marked, a mark is never
cleared, and what a thread has seen stays in the chain or is marked (`Shape`, `Pc.Ok`).

The list is then a set: the values of the unmarked nodes of the chain.  A successful link
in `add` inserts a value that was absent, a successful mark in `remove` erases one that was
present, and no other step changes the set (`step_keeps`).
-/

namespace LockFreeList

variable {T : Type*} [LinearOrder T] {m m' : Mem T} {xs : List ℕ}

/-! ### The chain -/

/-- The node is in the chain or has been and is marked. -/
def Seen (m : Mem T) (xs : List ℕ) (a : ℕ) : Prop := a ∈ xs ∨ m.Marked a

omit [LinearOrder T] in
/-- What has been seen and is not marked is in the chain. -/
theorem Seen.mem_chain {a : ℕ} (ha : a = m.head.addr ∨ Seen m xs a) (hunmarked : ¬ m.Marked a) :
  a ∈ m.head.addr :: xs
  := by
  rw [List.mem_cons]
  apply ha.imp_right
  intro hseen
  apply hseen.resolve_right hunmarked

/-- The chain from `head` visits the nodes `xs`. -/
structure Shape (m : Mem T) (xs : List ℕ) : Prop where
  linked : Linked 0 m.succ m.head.addr (m.head.addr :: xs)
  sorted : xs.Pairwise fun a b => m.value a < m.value b
  headOut : m.head.addr ∉ xs
  headUnmarked : ¬ m.Marked m.head.addr
  inHeap : ∀ a ∈ m.head.addr :: xs, a < m.size
  marked : ∀ a, m.Marked a → a ≠ 0 ∧ a < m.size ∧ (m.succ a = 0 ∨ Seen m xs (m.succ a))

/-- The node has been made by a thread that has not linked it yet. -/
structure Private (m : Mem T) (xs : List ℕ) (a : ℕ) : Prop where
  pos : 0 < a
  inHeap : a < m.size
  notHead : a ≠ m.head.addr
  unseen : ¬ Seen m xs a

/-- The values in the list. -/
def Alive (m : Mem T) (xs : List ℕ) : Set T :=
  {v | ∃ a ∈ xs, m.value a = v ∧ ¬ m.Marked a}

namespace Shape

theorem head_pos (h : Shape m xs) :
  m.head.addr ≠ 0
  := h.linked.2.1

theorem nodup (h : Shape m xs) :
  (m.head.addr :: xs).Nodup
  := by
  apply List.nodup_cons.mpr
  use h.headOut
  apply h.sorted.imp
  rintro a _ hlt rfl
  exact lt_irrefl _ hlt

theorem seen_pos (h : Shape m xs) {a : ℕ} (ha : Seen m xs a) :
  a ≠ 0
  := by
  rcases ha with ha | ha
  · apply h.linked.ne_null a (List.mem_cons_of_mem _ ha)
  · apply (h.marked a ha).1

theorem seen_inHeap (h : Shape m xs) {a : ℕ} (ha : Seen m xs a) :
  a < m.size
  := by
  rcases ha with ha | ha
  · apply h.inHeap a (List.mem_cons_of_mem _ ha)
  · apply (h.marked a ha).2.1

theorem seen_ne_head (h : Shape m xs) {a : ℕ} (ha : Seen m xs a) :
  a ≠ m.head.addr
  := by
  rintro rfl
  rcases ha with ha | ha
  · apply h.headOut ha
  · apply h.headUnmarked ha

/-- What a seen node points to has been seen. -/
theorem seen_succ (h : Shape m xs) {a : ℕ} (ha : a = m.head.addr ∨ Seen m xs a) :
  m.succ a = 0 ∨ Seen m xs (m.succ a)
  := by
  have inChain : ∀ a ∈ m.head.addr :: xs, m.succ a = 0 ∨ Seen m xs (m.succ a) := by
    intro a ha
    apply (h.linked.next_mem_tail ha).imp_right
    apply Or.inl
  rcases ha with rfl | ha | ha
  · apply inChain _ List.mem_cons_self
  · apply inChain _ (List.mem_cons_of_mem _ ha)
  · apply (h.marked a ha).2.2

/-- At most one node of the chain carries a value. -/
theorem eq_of_value_eq (h : Shape m xs) {a b : ℕ} (ha : a ∈ xs) (hb : b ∈ xs)
    (hab : m.value a = m.value b) :
  a = b
  := by
  obtain ⟨us, ws, rfl⟩ := List.append_of_mem ha
  obtain ⟨-, hws, hus⟩ := List.pairwise_append.mp h.sorted
  rw [List.mem_append, List.mem_cons] at hb
  rcases hb with hb | rfl | hb
  · cases (hus b hb a List.mem_cons_self).ne hab.symm
  · rfl
  · cases (List.rel_of_pairwise_cons hws hb).ne hab

/-! ### Changes of the heap -/

/-- A new node is not part of the chain. -/
theorem newNode (h : Shape m xs) (v : T) :
  Shape (m.newNode v) xs
  := by
  have ne : ∀ a, a < m.size → a ≠ m.size := fun a ha => Nat.ne_of_lt ha
  constructor
  · rw [Mem.succ_newNode]
    apply h.linked.congr
    intro a ha
    rw [Function.update_of_ne (ne a (h.inHeap a ha))]
  · apply h.sorted.imp_of_mem
    intro a b ha hb hlt
    have ha := ne a (h.inHeap a (List.mem_cons_of_mem _ ha))
    have hb := ne b (h.inHeap b (List.mem_cons_of_mem _ hb))
    simpa [Mem.newNode, ha, hb] using hlt
  · apply h.headOut
  · rw [Mem.newNode_head, Mem.marked_newNode (ne _ (h.inHeap _ List.mem_cons_self))]
    apply h.headUnmarked
  · intro a ha
    apply Nat.lt_succ_of_lt (h.inHeap a ha)
  · intro a ha
    have hne : a ≠ m.size := by
      rintro rfl
      apply Mem.not_marked_newNode ha
    rw [Mem.marked_newNode hne] at ha
    obtain ⟨hpos, hsize, hsucc⟩ := h.marked a ha
    use hpos, Nat.lt_succ_of_lt hsize
    rw [Mem.succ_newNode, Function.update_of_ne hne]
    apply hsucc.imp_right
    apply Or.imp_right
    intro hmarked
    rwa [Mem.marked_newNode (ne _ (h.marked _ hmarked).2.1)]

/-- The heap after a store to `next`, with another chain. -/
theorem store (h : Shape m xs) {xs' : List ℕ} {a : ℕ} {p : Ptr}
    (hlinked : Linked 0 (Function.update m.succ a p.addr) m.head.addr (m.head.addr :: xs'))
    (hsorted : xs'.Pairwise fun a b => m.value a < m.value b)
    (hxs' : ∀ b ∈ xs', b < m.size ∧ b ≠ m.head.addr)
    (hunmarked : ¬ m.Marked a) (hhead : a = m.head.addr → p.mark = false)
    (hsucc : p.mark = true → a ≠ 0 ∧ a < m.size ∧ (p.addr = 0 ∨ p.addr ∈ xs'))
    (hmarked : ∀ b, b ∈ xs → b ∈ xs' ∨ m.Marked b) :
  Shape (m.storeNext a p) xs'
  := by
  have seen : ∀ b, Seen m xs b → Seen (m.storeNext a p) xs' b := by
    rintro b (hb | hb)
    · apply (hmarked b hb).imp_right
      intro hb
      rwa [Mem.marked_storeNext_of_ne]
      rintro rfl
      apply hunmarked hb
    · right
      rwa [Mem.marked_storeNext_of_ne]
      rintro rfl
      apply hunmarked hb
  constructor
  · rwa [Mem.succ_storeNext]
  · apply hsorted
  · intro hmem
    apply (hxs' _ hmem).2 rfl
  · intro hm
    by_cases ha : m.head.addr = a
    · rw [Mem.storeNext_head, ha, Mem.marked_storeNext, hhead ha.symm] at hm
      cases hm
    · rw [Mem.storeNext_head, Mem.marked_storeNext_of_ne ha] at hm
      apply h.headUnmarked hm
  · intro b hb
    rcases List.mem_cons.mp hb with rfl | hb
    · apply h.inHeap _ List.mem_cons_self
    · apply (hxs' b hb).1
  · intro b hb
    rw [Mem.succ_storeNext]
    rcases eq_or_ne b a with rfl | hne
    · rw [Mem.marked_storeNext] at hb
      rw [Function.update_self]
      obtain ⟨hpos, hsize, hp⟩ := hsucc hb
      exact ⟨hpos, hsize, hp.imp_right Or.inl⟩
    · rw [Mem.marked_storeNext_of_ne hne] at hb
      rw [Function.update_of_ne hne]
      obtain ⟨hpos, hsize, hb⟩ := h.marked b hb
      exact ⟨hpos, hsize, hb.imp_right (seen _)⟩

/-- A store to a node that is not linked yet. -/
theorem prepare (h : Shape m xs) {a : ℕ} {p : Ptr} (ha : Private m xs a) (hp : p.mark = false) :
  Shape (m.storeNext a p) xs
  := by
  apply h.store
  · apply h.linked.congr
    intro x hx
    rw [Function.update_of_ne]
    rintro rfl
    rcases List.mem_cons.mp hx with hx | hx
    · apply ha.notHead hx
    · apply ha.unseen (.inl hx)
  · apply h.sorted
  · intro b hb
    use h.inHeap b (List.mem_cons_of_mem _ hb)
    rintro rfl
    apply h.headOut hb
  · intro hm
    apply ha.unseen (.inr hm)
  · intro _
    apply hp
  · rw [hp]
    rintro ⟨⟩
  · intro b
    apply Or.inl

/-- A node of the chain is marked. -/
theorem mark (h : Shape m xs) {a : ℕ} (ha : a ∈ xs) (hunmarked : ¬ m.Marked a) :
  Shape (m.storeNext a (m.next a).getMarked) xs
  := by
  apply h.store
  · rw [show (m.next a).getMarked.addr = m.succ a from rfl, Function.update_eq_self]
    apply h.linked
  · apply h.sorted
  · intro b hb
    use h.inHeap b (List.mem_cons_of_mem _ hb)
    rintro rfl
    apply h.headOut hb
  · apply hunmarked
  · rintro rfl
    cases h.headOut ha
  · intro _
    refine ⟨?_, h.inHeap a (List.mem_cons_of_mem _ ha), ?_⟩
    · apply h.linked.ne_null a (List.mem_cons_of_mem _ ha)
    · apply h.linked.next_mem_tail (List.mem_cons_of_mem _ ha)
  · intro b
    apply Or.inl

/-- A private node that points where `pre` points, with a value in between, is linked in
behind `pre`. -/
theorem link (h : Shape m xs) {pre n : ℕ}
    (hpre : pre = m.head.addr ∨ pre ∈ xs ∧ m.value pre < m.value n) (hunmarked : ¬ m.Marked pre)
    (hn : Private m xs n) (hnext : m.succ n = m.succ pre)
    (hcur : m.succ pre = 0 ∨ m.value n < m.value (m.succ pre)) :
  ∃ xs', Shape (m.storeNext pre ⟨n, false⟩) xs' ∧ ∀ a, a ∈ xs' ↔ a = n ∨ a ∈ xs
  := by
  have hnew : n ∉ m.head.addr :: xs := by
    rintro hmem
    rcases List.mem_cons.mp hmem with hmem | hmem
    · apply hn.notHead hmem
    · apply hn.unseen (.inl hmem)
  have finish : ∀ xs', Linked 0 (Function.update m.succ pre n) m.head.addr (m.head.addr :: xs') →
      xs'.Pairwise (fun a b => m.value a < m.value b) → (∀ a, a ∈ xs' ↔ a = n ∨ a ∈ xs) →
      ∃ xs', Shape (m.storeNext pre ⟨n, false⟩) xs' ∧ ∀ a, a ∈ xs' ↔ a = n ∨ a ∈ xs := by
    intro xs' hlinked hsorted hmem
    refine ⟨xs', ?_, hmem⟩
    apply h.store hlinked hsorted _ hunmarked
    · intro _
      rfl
    · rintro ⟨⟩
    · intro b hb
      left
      rw [hmem]
      right
      apply hb
    · intro b hb
      rcases (hmem b).mp hb with rfl | hb
      · exact ⟨hn.inHeap, hn.notHead⟩
      · use h.inHeap b (List.mem_cons_of_mem _ hb)
        rintro rfl
        apply h.headOut hb
  have hlinked := h.linked
  have hnodup := h.nodup
  rcases hpre with rfl | ⟨hpre, hlt⟩
  · apply finish (n :: xs)
    · have hfirst : Linked 0 m.succ m.head.addr ([] ++ m.head.addr :: xs) := hlinked
      exact hfirst.insert hnodup hnew hn.pos.ne' hnext
    · apply List.pairwise_cons.mpr
      refine ⟨lt_of_lt_head h.sorted ?_, h.sorted⟩
      intro w hw
      have hfirst := hlinked.2.2.head_eq hw
      rw [← hfirst]
      apply hcur.resolve_left
      rw [hfirst]
      apply hlinked.ne_null w (List.mem_cons_of_mem _ (List.mem_of_mem_head? hw))
    · intro a
      apply List.mem_cons
  · obtain ⟨us, ws, rfl⟩ := List.append_of_mem hpre
    have hlater : Linked 0 m.succ m.head.addr ((m.head.addr :: us) ++ pre :: ws) := hlinked
    apply finish (us ++ pre :: n :: ws)
    · exact hlater.insert hnodup hnew hn.pos.ne' hnext
    · apply pairwise_insert h.sorted hlt
      intro w hw
      have hfirst := hlater.behind.head_eq hw
      rw [← hfirst]
      apply hcur.resolve_left
      rw [hfirst]
      apply hlinked.ne_null w
      have := List.mem_of_mem_head? hw
      simp [this]
    · intro a
      rw [List.mem_append, List.mem_append, List.mem_cons, List.mem_cons, List.mem_cons,
        @or_left_comm (a = pre), @or_left_comm (a ∈ us) (a = n)]

/-- The marked node behind `pre` is cut out of the chain. -/
theorem unlink (h : Shape m xs) {pre : ℕ} {p : Ptr} (hpre : pre = m.head.addr ∨ pre ∈ xs)
    (hunmarked : ¬ m.Marked pre) (hcur : m.Marked (m.succ pre)) (hp : p.addr = m.succ (m.succ pre))
    (hpmark : p.mark = false) :
  ∃ xs', Shape (m.storeNext pre p) xs' ∧ ∀ a, a ∈ xs' ↔ a ∈ xs ∧ a ≠ m.succ pre
  := by
  have hnull : m.succ pre ≠ 0 := (h.marked _ hcur).1
  have hhead : m.head.addr ≠ m.succ pre := by
    intro heq
    rw [← heq] at hcur
    apply h.headUnmarked hcur
  obtain ⟨us, ws, hsplit⟩ := List.append_of_mem (List.mem_cons.mpr hpre)
  have hlinked := h.linked
  have hnodup := h.nodup
  rw [hsplit] at hlinked hnodup
  cases ws with
  | nil => exact absurd hlinked.behind hnull
  | cons c ws =>
      obtain ⟨hc, -, -⟩ := hlinked.behind
      rw [hc] at hcur hhead hp ⊢
      have hmiddle : m.head.addr :: xs = (us ++ [pre]) ++ c :: ws := by
        simpa using hsplit
      have hout : c ∉ us ++ [pre] := by
        have hfirst := h.nodup
        rw [hmiddle, List.nodup_middle] at hfirst
        intro hmem
        apply hfirst.notMem (List.mem_append_left ws hmem)
      have herase : m.head.addr :: xs.erase c = us ++ pre :: ws := by
        rw [← List.erase_cons_tail (by simpa using hhead), hmiddle, List.erase_append_right _ hout,
          List.erase_cons_head, List.append_assoc, List.singleton_append]
      have hcut := hlinked.unlink hnodup
      rw [← hp, ← herase] at hcut
      have hmem : ∀ a, a ∈ xs.erase c ↔ a ∈ xs ∧ a ≠ c := by
        intro a
        rw [(List.nodup_cons.mp h.nodup).2.mem_erase_iff]
        apply and_comm
      refine ⟨xs.erase c, ?_, hmem⟩
      apply h.store hcut (h.sorted.sublist List.erase_sublist) _ hunmarked
      · intro _
        apply hpmark
      · rw [hpmark]
        rintro ⟨⟩
      · intro b hb
        rcases eq_or_ne b c with rfl | hne
        · right
          apply hcur
        · left
          exact (hmem b).mpr ⟨hb, hne⟩
      · intro b hb
        obtain ⟨hb, -⟩ := (hmem b).mp hb
        use h.inHeap b (List.mem_cons_of_mem _ hb)
        rintro rfl
        apply h.headOut hb

end Shape

end LockFreeList

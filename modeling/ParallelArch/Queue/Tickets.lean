import ParallelArch.Concurrency.Lock
import ParallelArch.Queue.NonBlocking

/-!
# Delivery by ticket

Over unbounded numbers every reachable state of the non-blocking queue satisfies `Ring`:
the tickets from `head` up to `tail` are taken by adds and not by removes, the slot of such
a ticket is being filled or holds its item, and the slot of a later ticket up to
`head + capacity` awaits it or is still being emptied.  Every thread between its
compare-exchange and its store owns the slot of its ticket (`ThreadOk`).  The history of
the run is described by `Ledger`.
-/

namespace NonBlockingQueue

variable {T ι : Type*}

/-! ### Histories -/

/-- The tickets won by adds, in the order they were won, each with the item of its add. -/
def addWins (h : List (ι × Event T)) : List (ℕ × T) :=
  h.filterMap fun e => match e.2 with
    | .addWon pos item => some (pos, item)
    | _ => none

/-- The tickets won by removes, in the order they were won. -/
def removeWins (h : List (ι × Event T)) : List ℕ :=
  h.filterMap fun e => match e.2 with
    | .removeWon pos => some pos
    | _ => none

/-- The tickets of the removes that have returned, each with the item returned. -/
def returns (h : List (ι × Event T)) : List (ℕ × T) :=
  h.filterMap fun e => match e.2 with
    | .removeReturned pos out => some (pos, out)
    | _ => none

@[simp]
theorem addWins_append (h g : List (ι × Event T)) :
  addWins (h ++ g) = addWins h ++ addWins g
  := List.filterMap_append

@[simp]
theorem removeWins_append (h g : List (ι × Event T)) :
  removeWins (h ++ g) = removeWins h ++ removeWins g
  := List.filterMap_append

@[simp]
theorem returns_append (h g : List (ι × Event T)) :
  returns (h ++ g) = returns h ++ returns g
  := List.filterMap_append

/-- `Won h pos item`: the add of `item` won the ticket `pos`. -/
def Won (h : List (ι × Event T)) (pos : ℕ) (item : T) : Prop :=
  (pos, item) ∈ addWins h

theorem Won.append {h : List (ι × Event T)} {pos : ℕ} {item : T} (hw : Won h pos item)
    (g : List (ι × Event T)) :
  Won (h ++ g) pos item
  := by
  rw [Won, addWins_append]
  apply List.mem_append_left _ hw

/-! ### The ring -/

/-- The ticket of an add between its compare-exchange and its store to `seq`. -/
def Pc.adding : Pc T → Option ℕ
  | .addWrite _ pos => some pos
  | .addPublish _ pos => some pos
  | _ => none

/-- The ticket of a remove between its compare-exchange and its store to `seq`. -/
def Pc.removing : Pc T → Option ℕ
  | .removeRead pos => some pos
  | .removeRelease pos _ => some pos
  | _ => none

/-- The slot of the ticket `pos`, won by the add of `item`, is to be filled. -/
structure Filling (c : ℕ) (m : Mem T) (won : ℕ → T → Prop) (item : T) (pos : ℕ) : Prop where
  head_le : m.head ≤ pos
  lt_tail : pos < m.tail
  seq : (m.buffer (pos % c)).seq = pos
  won : won pos item

/-- The slot of the ticket `pos`, won by a remove, is to be emptied. -/
structure Emptying (c : ℕ) (m : Mem T) (pos : ℕ) : Prop where
  lt_head : pos < m.head
  tail_le : m.tail ≤ pos + c
  seq : (m.buffer (pos % c)).seq = pos + 1

/-- What a thread knows at each point of its code. -/
def ThreadOk (c : ℕ) (m : Mem T) (won : ℕ → T → Prop) : Pc T → Prop
  | .addLoadSeq _ pos => pos ≤ m.tail
  | .addCas _ pos => pos ≤ m.tail ∧ (m.tail = pos → (m.buffer (pos % c)).seq = pos)
  | .addWrite item pos => Filling c m won item pos
  | .addPublish item pos => Filling c m won item pos ∧ (m.buffer (pos % c)).data = item
  | .removeLoadSeq pos => pos ≤ m.head
  | .removeCas pos => pos ≤ m.head ∧ (m.head = pos → (m.buffer (pos % c)).seq = pos + 1)
  | .removeRead pos => Emptying c m pos ∧ won pos (m.buffer (pos % c)).data
  | .removeRelease pos out => Emptying c m pos ∧ won pos out
  | _ => True

/-- The state of the ring between the tickets `head` and `head + c`. -/
structure Ring (c : ℕ) (m : Mem T) (l : ι → Thread T) (won : ℕ → T → Prop) : Prop where
  head_le : m.head ≤ m.tail
  tail_le : m.tail ≤ m.head + c
  filled : ∀ k, m.head ≤ k → k < m.tail → (m.buffer (k % c)).seq = k ∨
    (m.buffer (k % c)).seq = k + 1 ∧ won k (m.buffer (k % c)).data
  vacant : ∀ k, m.tail ≤ k → k < m.head + c →
    (m.buffer (k % c)).seq = k ∨ (m.buffer (k % c)).seq + c = k + 1
  seq_le : ∀ r, r < c → (m.buffer r).seq ≤ m.tail + c
  thread : ∀ i, ThreadOk c m won (l i).pc
  adding : Exclusive (fun t => t.pc.adding) l
  removing : Exclusive (fun t => t.pc.removing) l

/-- Consecutive tickets work on different slots. -/
theorem succ_mod_ne {c : ℕ} (hc : 2 ≤ c) (k : ℕ) :
  (k + 1) % c ≠ k % c
  := by
  apply slot_ne (Nat.lt_succ_self k)
  omega

section Keep

variable {c : ℕ} {m : Mem T} {l : ι → Thread T} {won won' : ℕ → T → Prop}

/-! ### What a thread knows under the steps of the others -/

theorem ThreadOk.mono (hw : ∀ k x, won k x → won' k x) {pc : Pc T}
    (h : ThreadOk c m won pc) :
  ThreadOk c m won' pc
  := by
  cases pc with
  | addWrite item pos => exact ⟨h.head_le, h.lt_tail, h.seq, hw _ _ h.won⟩
  | addPublish item pos =>
      exact ⟨⟨h.1.head_le, h.1.lt_tail, h.1.seq, hw _ _ h.1.won⟩, h.2⟩
  | removeRead pos => exact ⟨h.1, hw _ _ h.2⟩
  | removeRelease pos out => exact ⟨h.1, hw _ _ h.2⟩
  | _ => exact h

/-- An add has won the ticket `m.tail`, whose slot awaited it. -/
theorem ThreadOk.addWins (hc : 2 ≤ c) (hw : ∀ k x, won k x → won' k x)
    (hseq : (m.buffer (m.tail % c)).seq = m.tail) {pc : Pc T} (h : ThreadOk c m won pc) :
  ThreadOk c { m with tail := m.tail + 1 } won' pc
  := by
  have emptying : ∀ {pos}, Emptying c m pos → Emptying c { m with tail := m.tail + 1 } pos := by
    intro pos hpos
    have htail := hpos.tail_le
    refine ⟨hpos.lt_head, ?_, hpos.seq⟩
    show m.tail + 1 ≤ pos + c
    by_contra hge
    have heq : m.tail = pos + c := by omega
    have hs := hpos.seq
    rw [← Nat.add_mod_right, ← heq, hseq] at hs
    omega
  have filling : ∀ {item pos}, Filling c m won item pos →
      Filling c { m with tail := m.tail + 1 } won' item pos := by
    intro item pos hpos
    exact ⟨hpos.head_le, Nat.lt_succ_of_lt hpos.lt_tail, hpos.seq, hw _ _ hpos.won⟩
  cases pc with
  | addLoadSeq item pos => exact Nat.le_succ_of_le h
  | addCas item pos =>
      use Nat.le_succ_of_le h.1
      intro heq
      have := h.1
      change m.tail + 1 = pos at heq
      omega
  | addWrite item pos => exact filling h
  | addPublish item pos => exact ⟨filling h.1, h.2⟩
  | removeRead pos => exact ⟨emptying h.1, hw _ _ h.2⟩
  | removeRelease pos out => exact ⟨emptying h.1, hw _ _ h.2⟩
  | _ => exact h

/-- A remove has won the ticket `m.head`, whose slot held its item. -/
theorem ThreadOk.removeWins (hseq : (m.buffer (m.head % c)).seq = m.head + 1) {pc : Pc T}
    (h : ThreadOk c m won pc) :
  ThreadOk c { m with head := m.head + 1 } won pc
  := by
  have filling : ∀ {item pos}, Filling c m won item pos →
      Filling c { m with head := m.head + 1 } won item pos := by
    intro item pos hpos
    have hhead := hpos.head_le
    refine ⟨?_, hpos.lt_tail, hpos.seq, hpos.won⟩
    show m.head + 1 ≤ pos
    by_contra hge
    have heq : m.head = pos := by omega
    have hs := hpos.seq
    rw [← heq, hseq] at hs
    omega
  have emptying : ∀ {pos}, Emptying c m pos → Emptying c { m with head := m.head + 1 } pos := by
    intro pos hpos
    exact ⟨Nat.lt_succ_of_lt hpos.lt_head, hpos.tail_le, hpos.seq⟩
  cases pc with
  | addWrite item pos => exact filling h
  | addPublish item pos => exact ⟨filling h.1, h.2⟩
  | removeLoadSeq pos => exact Nat.le_succ_of_le h
  | removeCas pos =>
      use Nat.le_succ_of_le h.1
      intro heq
      have := h.1
      change m.head + 1 = pos at heq
      omega
  | removeRead pos => exact ⟨emptying h.1, h.2⟩
  | removeRelease pos out => exact ⟨emptying h.1, h.2⟩
  | _ => exact h

/-- The `seq` of a slot has changed that no fact about the thread is about: neither is its
ticket awaited by that slot, nor is it the ticket whose item the slot held. -/
theorem ThreadOk.storeSeq {r seq : ℕ} {pc : Pc T} (h : ThreadOk c m won pc)
    (hadd : ∀ k, k % c = r → (m.buffer r).seq = k → k < m.tail ∧ pc.adding ≠ some k)
    (hremove : ∀ k, k % c = r → (m.buffer r).seq = k + 1 → k < m.head ∧ pc.removing ≠ some k) :
  ThreadOk c (m.storeSeq r seq) won pc
  := by
  have filling : ∀ {item pos}, pc.adding = some pos → Filling c m won item pos →
      Filling c (m.storeSeq r seq) won item pos := by
    intro item pos hpc hpos
    refine ⟨hpos.head_le, hpos.lt_tail, ?_, hpos.won⟩
    rw [Mem.storeSeq_seq, if_neg]
    · apply hpos.seq
    · intro hr
      apply (hadd pos hr (hr ▸ hpos.seq)).2 hpc
  have emptying : ∀ {pos}, pc.removing = some pos → Emptying c m pos →
      Emptying c (m.storeSeq r seq) pos := by
    intro pos hpc hpos
    refine ⟨hpos.lt_head, hpos.tail_le, ?_⟩
    rw [Mem.storeSeq_seq, if_neg]
    · apply hpos.seq
    · intro hr
      apply (hremove pos hr (hr ▸ hpos.seq)).2 hpc
  cases pc with
  | addCas item pos =>
      use h.1
      intro htail
      change m.tail = pos at htail
      rw [Mem.storeSeq_seq, if_neg]
      · apply h.2 htail
      · intro hr
        have := (hadd pos hr (hr ▸ h.2 htail)).1
        omega
  | addWrite item pos => exact filling rfl h
  | addPublish item pos =>
      use filling rfl h.1
      rw [Mem.storeSeq_data]
      apply h.2
  | removeCas pos =>
      use h.1
      intro hhead
      change m.head = pos at hhead
      rw [Mem.storeSeq_seq, if_neg]
      · apply h.2 hhead
      · intro hr
        have := (hremove pos hr (hr ▸ h.2 hhead)).1
        omega
  | removeRead pos =>
      use emptying rfl h.1
      rw [Mem.storeSeq_data]
      apply h.2
  | removeRelease pos out => exact ⟨emptying rfl h.1, h.2⟩
  | _ => exact h

/-- The data of a slot has changed that the thread does not work on. -/
theorem ThreadOk.storeData {r : ℕ} {item : T} {pc : Pc T} (h : ThreadOk c m won pc)
    (hadd : ∀ k, k % c = r → (m.buffer r).seq = k → pc.adding ≠ some k)
    (hremove : ∀ k, k % c = r → (m.buffer r).seq = k + 1 → pc.removing ≠ some k) :
  ThreadOk c (m.storeData r item) won pc
  := by
  have filling : ∀ {x pos}, Filling c m won x pos → Filling c (m.storeData r item) won x pos := by
    intro x pos hpos
    exact ⟨hpos.head_le, hpos.lt_tail, by rw [Mem.storeData_seq]; exact hpos.seq, hpos.won⟩
  have emptying : ∀ {pos}, Emptying c m pos → Emptying c (m.storeData r item) pos := by
    intro pos hpos
    exact ⟨hpos.lt_head, hpos.tail_le, by rw [Mem.storeData_seq]; exact hpos.seq⟩
  cases pc with
  | addCas x pos =>
      use h.1
      rw [Mem.storeData_seq]
      apply h.2
  | addWrite x pos => exact filling h
  | addPublish x pos =>
      use filling h.1
      rw [Mem.storeData_data, if_neg]
      · apply h.2
      · intro hr
        apply hadd pos hr (hr ▸ h.1.seq) rfl
  | removeCas pos =>
      use h.1
      rw [Mem.storeData_seq]
      apply h.2
  | removeRead pos =>
      use emptying h.1
      rw [Mem.storeData_data, if_neg]
      · apply h.2
      · intro hr
        apply hremove pos hr (hr ▸ h.1.seq) rfl
  | removeRelease pos out => exact ⟨emptying h.1, h.2⟩
  | _ => exact h

/-! ### The steps keep the ring -/

theorem Ring.lt_tail_of_adding (h : Ring c m l won) {i : ι} {k : ℕ}
    (hi : (l i).pc.adding = some k) :
  k < m.tail
  := by
  have ht := h.thread i
  cases hpc : (l i).pc with
  | addWrite item pos =>
      rw [hpc] at hi ht
      cases hi
      apply ht.lt_tail
  | addPublish item pos =>
      rw [hpc] at hi ht
      cases hi
      apply ht.1.lt_tail
  | _ =>
      rw [hpc] at hi
      cases hi

theorem Ring.lt_head_of_removing (h : Ring c m l won) {i : ι} {k : ℕ}
    (hi : (l i).pc.removing = some k) :
  k < m.head
  := by
  have ht := h.thread i
  cases hpc : (l i).pc with
  | removeRead pos =>
      rw [hpc] at hi ht
      cases hi
      apply ht.1.lt_head
  | removeRelease pos out =>
      rw [hpc] at hi ht
      cases hi
      apply ht.1.lt_head
  | _ =>
      rw [hpc] at hi
      cases hi

theorem Ring.mono (hw : ∀ k x, won k x → won' k x) (h : Ring c m l won) :
  Ring c m l won'
  := by
  refine { h with filled := ?_, thread := fun i => (h.thread i).mono hw }
  intro k hk hk'
  rcases h.filled k hk hk' with hs | ⟨hs, hd⟩
  · left
    apply hs
  · right
    exact ⟨hs, hw _ _ hd⟩

variable [DecidableEq ι]

/-- A thread moves without touching the ring. -/
theorem Ring.silent (h : Ring c m l won) {i : ι} {v : Thread T}
    (hv : ThreadOk c m won v.pc) (ha : ∀ k, v.pc.adding = some k → (l i).pc.adding = some k)
    (hr : ∀ k, v.pc.removing = some k → (l i).pc.removing = some k) :
  Ring c m (Function.update l i v) won
  := by
  refine { h with thread := ?_, adding := h.adding.keep ha, removing := h.removing.keep hr }
  apply (Function.forall_update_iff l (fun _ t => ThreadOk c m won t.pc)).mpr
  exact ⟨hv, fun j _ => h.thread j⟩

/-- An add wins the ticket `m.tail`. -/
theorem Ring.addWins (hc : 2 ≤ c) (h : Ring c m l won) (hw : ∀ k x, won k x → won' k x)
    {i : ι} {v : Thread T} {item : T} (hseq : (m.buffer (m.tail % c)).seq = m.tail)
    (hv : v.pc = .addWrite item m.tail) (hwon : won' m.tail item) :
  Ring c { m with tail := m.tail + 1 } (Function.update l i v) won'
  := by
  have hhead := h.head_le
  -- the ring is not full: the slot of the ticket `head` does not await `head + c`
  have hroom : m.tail < m.head + c := by
    by_contra hge
    have hle := h.tail_le
    have heq : m.tail = m.head + c := by omega
    have hfull := h.filled m.head le_rfl (by omega)
    rw [← Nat.add_mod_right, ← heq, hseq] at hfull
    omega
  constructor
  · exact Nat.le_succ_of_le hhead
  · exact hroom
  · intro k hk hk'
    rcases Nat.lt_succ_iff_lt_or_eq.mp hk' with hlt | rfl
    · rcases h.filled k hk hlt with hs | ⟨hs, hd⟩
      · left
        apply hs
      · right
        exact ⟨hs, hw _ _ hd⟩
    · left
      apply hseq
  · intro k hk
    apply h.vacant k (Nat.le_of_succ_le hk)
  · intro r hr
    have := h.seq_le r hr
    show (m.buffer r).seq ≤ m.tail + 1 + c
    omega
  · apply (Function.forall_update_iff l
      (fun _ t => ThreadOk c { m with tail := m.tail + 1 } won' t.pc)).mpr
    constructor
    · rw [hv]
      exact ⟨hhead, Nat.lt_succ_self _, hseq, hwon⟩
    · intro j _
      apply (h.thread j).addWins hc hw hseq
  · apply h.adding.take (k := m.tail)
    · simp [hv, Pc.adding]
    · intro j hj
      have := h.lt_tail_of_adding hj
      omega
  · apply h.removing.keep
    simp [hv, Pc.removing]

/-- A remove wins the ticket `m.head`. -/
theorem Ring.removeWins (hc : 2 ≤ c) (h : Ring c m l won) {i : ι} {v : Thread T}
    (hseq : (m.buffer (m.head % c)).seq = m.head + 1) (hv : v.pc = .removeRead m.head) :
  Ring c { m with head := m.head + 1 } (Function.update l i v) won
  := by
  have htail := h.tail_le
  -- the ring is not empty: the slot of a vacant ticket holds no item of that ticket
  have hitem : m.head < m.tail := by
    by_contra hge
    have hle := h.head_le
    have hvacant := h.vacant m.head (by omega) (by omega)
    omega
  have hdata : won m.head (m.buffer (m.head % c)).data := by
    rcases h.filled m.head le_rfl hitem with hs | ⟨-, hd⟩
    · omega
    · apply hd
  constructor
  · exact hitem
  · show m.tail ≤ m.head + 1 + c
    omega
  · intro k hk
    apply h.filled k (Nat.le_of_succ_le hk)
  · intro k hk hk'
    change k < m.head + 1 + c at hk'
    by_cases hlt : k < m.head + c
    · apply h.vacant k hk hlt
    · right
      have heq : k = m.head + c := by omega
      show (m.buffer (k % c)).seq + c = k + 1
      rw [heq, Nat.add_mod_right, hseq]
      omega
  · exact h.seq_le
  · apply (Function.forall_update_iff l
      (fun _ t => ThreadOk c { m with head := m.head + 1 } won t.pc)).mpr
    constructor
    · rw [hv]
      exact ⟨⟨Nat.lt_succ_self _, htail, hseq⟩, hdata⟩
    · intro j _
      apply (h.thread j).removeWins hseq
  · apply h.adding.keep
    simp [hv, Pc.adding]
  · apply h.removing.take (k := m.head)
    · simp [hv, Pc.removing]
    · intro j hj
      have := h.lt_head_of_removing hj
      omega

/-- An add writes its item into its slot. -/
theorem Ring.addWrite (hc : 2 ≤ c) (h : Ring c m l won) {i : ι} {v : Thread T} {item : T}
    {pos : ℕ} (hpc : (l i).pc = .addWrite item pos) (hv : v.pc = .addPublish item pos) :
  Ring c (m.storeData (pos % c) item) (Function.update l i v) won
  := by
  have hi := h.thread i
  rw [hpc] at hi
  have hslot := hi.seq
  constructor
  · exact h.head_le
  · exact h.tail_le
  · intro k hk hk'
    rw [Mem.storeData_seq, Mem.storeData_data]
    rcases h.filled k hk hk' with hs | ⟨hs, hd⟩
    · left
      apply hs
    · right
      use hs
      rw [if_neg]
      · apply hd
      · intro hr
        rw [hr, hslot] at hs
        apply succ_mod_ne hc k
        rw [← hs, hr]
  · intro k hk hk'
    rw [Mem.storeData_seq]
    apply h.vacant k hk hk'
  · intro r hr
    rw [Mem.storeData_seq]
    apply h.seq_le r hr
  · apply (Function.forall_update_iff l
      (fun _ t => ThreadOk c (m.storeData (pos % c) item) won t.pc)).mpr
    constructor
    · rw [hv]
      refine ⟨⟨hi.head_le, hi.lt_tail, ?_, hi.won⟩, ?_⟩
      · rw [Mem.storeData_seq]
        apply hslot
      · rw [Mem.storeData_data, if_pos rfl]
    · intro j hji
      apply (h.thread j).storeData
      · rintro k - hs hk
        rw [hslot] at hs
        apply hji
        apply h.adding j i pos (hs ▸ hk)
        simp [hpc, Pc.adding]
      · intro k hk hs
        rw [hslot] at hs
        rw [hs] at hk
        exact absurd hk.symm (succ_mod_ne hc k)
  · apply h.adding.keep
    simp [hv, hpc, Pc.adding]
  · apply h.removing.keep
    simp [hv, Pc.removing]

/-- An add publishes its slot. -/
theorem Ring.addPublish (hc : 2 ≤ c) (h : Ring c m l won) {i : ι} {v : Thread T} {item : T}
    {pos : ℕ} (hpc : (l i).pc = .addPublish item pos) (hv : v.pc = .idle) :
  Ring c (m.storeSeq (pos % c) (pos + 1)) (Function.update l i v) won
  := by
  have hi := h.thread i
  rw [hpc] at hi
  obtain ⟨hi, hdata⟩ := hi
  have hslot := hi.seq
  have hlt := hi.lt_tail
  constructor
  · exact h.head_le
  · exact h.tail_le
  · intro k hk hk'
    rw [Mem.storeSeq_seq, Mem.storeSeq_data]
    by_cases hr : k % c = pos % c
    · have hfilled := h.filled k hk hk'
      rw [hr, hslot] at hfilled
      rcases hfilled with rfl | ⟨rfl, -⟩
      · right
        rw [if_pos rfl, hdata]
        exact ⟨rfl, hi.won⟩
      · exact absurd hr.symm (succ_mod_ne hc k)
    · rw [if_neg hr]
      apply h.filled k hk hk'
  · intro k hk hk'
    rw [Mem.storeSeq_seq]
    by_cases hr : k % c = pos % c
    · have hvacant := h.vacant k hk hk'
      rw [hr, hslot] at hvacant
      rcases hvacant with rfl | heq
      · change m.tail ≤ pos at hk
        omega
      · have := succ_mod_ne hc k
        rw [← heq, Nat.add_mod_right] at this
        exact absurd hr.symm this
    · rw [if_neg hr]
      apply h.vacant k hk hk'
  · intro r hr
    rw [Mem.storeSeq_seq]
    split
    · show pos + 1 ≤ m.tail + c
      omega
    · apply h.seq_le r hr
  · apply (Function.forall_update_iff l
      (fun _ t => ThreadOk c (m.storeSeq (pos % c) (pos + 1)) won t.pc)).mpr
    constructor
    · rw [hv]
      trivial
    · intro j hji
      apply (h.thread j).storeSeq
      · rintro k - hs
        rw [hslot] at hs
        subst hs
        use hlt
        intro hk
        apply hji
        apply h.adding j i pos hk
        simp [hpc, Pc.adding]
      · intro k hk hs
        rw [hslot] at hs
        rw [hs] at hk
        exact absurd hk.symm (succ_mod_ne hc k)
  · apply h.adding.keep
    simp [hv, Pc.adding]
  · apply h.removing.keep
    simp [hv, Pc.removing]

/-- A remove releases its slot to the add a lap later. -/
theorem Ring.removeRelease (hc : 2 ≤ c) (h : Ring c m l won) {i : ι} {v : Thread T} {out : T}
    {pos : ℕ} (hpc : (l i).pc = .removeRelease pos out) (hv : v.pc = .idle) :
  Ring c (m.storeSeq (pos % c) (pos + c)) (Function.update l i v) won
  := by
  have hi := h.thread i
  rw [hpc] at hi
  obtain ⟨hi, -⟩ := hi
  have hslot := hi.seq
  have hlt := hi.lt_head
  have hle := h.head_le
  constructor
  · exact h.head_le
  · exact h.tail_le
  · intro k hk hk'
    change m.head ≤ k at hk
    rw [Mem.storeSeq_seq, Mem.storeSeq_data, if_neg]
    · apply h.filled k hk hk'
    · intro hr
      have hfilled := h.filled k hk hk'
      rw [hr, hslot] at hfilled
      rcases hfilled with rfl | ⟨heq, -⟩
      · apply succ_mod_ne hc pos hr
      · omega
  · intro k hk hk'
    rw [Mem.storeSeq_seq]
    by_cases hr : k % c = pos % c
    · have hvacant := h.vacant k hk hk'
      rw [hr, hslot] at hvacant
      left
      rw [if_pos hr]
      rcases hvacant with rfl | heq
      · exact absurd hr (succ_mod_ne hc pos)
      · omega
    · rw [if_neg hr]
      apply h.vacant k hk hk'
  · intro r hr
    rw [Mem.storeSeq_seq]
    split
    · show pos + c ≤ m.tail + c
      omega
    · apply h.seq_le r hr
  · apply (Function.forall_update_iff l
      (fun _ t => ThreadOk c (m.storeSeq (pos % c) (pos + c)) won t.pc)).mpr
    constructor
    · rw [hv]
      trivial
    · intro j hji
      apply (h.thread j).storeSeq
      · intro k hk hs
        rw [hslot] at hs
        rw [← hs] at hk
        exact absurd hk (succ_mod_ne hc pos)
      · rintro k - hs
        rw [hslot] at hs
        obtain rfl := Nat.succ.inj hs
        use hlt
        intro hk
        apply hji
        apply h.removing j i pos hk
        simp [hpc, Pc.removing]
  · apply h.adding.keep
    simp [hv, Pc.adding]
  · apply h.removing.keep
    simp [hv, Pc.removing]

end Keep

/-! ### The ledger -/

/-- The history of a run, read against the state it has led to. -/
structure Ledger (m : Mem T) (l : ι → Thread T) (h : List (ι × Event T)) : Prop where
  addTickets : (addWins h).map Prod.fst = List.range m.tail
  removeTickets : removeWins h = List.range m.head
  once : ((returns h).map Prod.fst).Nodup
  delivered : ∀ k x, (k, x) ∈ returns h → Won h k x
  owner : ∀ i k, (l i).pc.removing = some k →
    (i, .removeWon k) ∈ h ∧ k ∉ (returns h).map Prod.fst
  returned : ∀ i k x, (i, .removeReturned k x) ∈ h → (i, .removeWon k) ∈ h
  accounted : ∀ k, k < m.head → k ∈ (returns h).map Prod.fst ∨ ∃ i, (l i).pc.removing = some k

theorem mem_addWins {h : List (ι × Event T)} {k : ℕ} {x : T} :
  (k, x) ∈ addWins h ↔ ∃ i, (i, .addWon k x) ∈ h
  := by
  simp only [addWins, List.mem_filterMap, Prod.exists]
  constructor
  · rintro ⟨i, e, he, hk⟩
    cases e with
    | addWon pos item =>
        cases hk
        use i
    | _ => cases hk
  · rintro ⟨i, hi⟩
    exact ⟨i, _, hi, rfl⟩

theorem mem_removeWins {h : List (ι × Event T)} {k : ℕ} :
  k ∈ removeWins h ↔ ∃ i, (i, .removeWon k) ∈ h
  := by
  simp only [removeWins, List.mem_filterMap, Prod.exists]
  constructor
  · rintro ⟨i, e, he, hk⟩
    cases e with
    | removeWon pos =>
        cases hk
        use i
    | _ => cases hk
  · rintro ⟨i, hi⟩
    exact ⟨i, _, hi, rfl⟩

theorem mem_returns {h : List (ι × Event T)} {k : ℕ} {x : T} :
  (k, x) ∈ returns h ↔ ∃ i, (i, .removeReturned k x) ∈ h
  := by
  simp only [returns, List.mem_filterMap, Prod.exists]
  constructor
  · rintro ⟨i, e, he, hk⟩
    cases e with
    | removeReturned pos out =>
        cases hk
        use i
    | _ => cases hk
  · rintro ⟨i, hi⟩
    exact ⟨i, _, hi, rfl⟩

namespace Ledger

variable {m m' : Mem T} {l : ι → Thread T} {h : List (ι × Event T)}

/-- A ticket a remove has returned was won by a remove. -/
theorem returned_lt (hL : Ledger m l h) {k : ℕ} (hk : k ∈ (returns h).map Prod.fst) :
  k < m.head
  := by
  obtain ⟨⟨k', x⟩, hmem, rfl⟩ := List.mem_map.mp hk
  obtain ⟨i, hi⟩ := mem_returns.mp hmem
  have hwon := mem_removeWins.mpr ⟨i, hL.returned i k' x hi⟩
  rw [hL.removeTickets] at hwon
  apply List.mem_range.mp hwon

/-- A ledger does not depend on the slots. -/
theorem slots (hL : Ledger m l h) (hhead : m'.head = m.head) (htail : m'.tail = m.tail) :
  Ledger m' l h
  := by
  refine { hL with addTickets := ?_, removeTickets := ?_, accounted := ?_ }
  · rw [htail]
    apply hL.addTickets
  · rw [hhead]
    apply hL.removeTickets
  · rw [hhead]
    apply hL.accounted

/-- An event of an add is not among those of the removes. -/
theorem addEvent (hL : Ledger m l h) {e : ι × Event T} (hremove : removeWins [e] = [])
    (hreturn : returns [e] = []) (hhead : m'.head = m.head)
    (htail : (addWins (h ++ [e])).map Prod.fst = List.range m'.tail) :
  Ledger m' l (h ++ [e])
  := by
  have hremoves : removeWins (h ++ [e]) = removeWins h := by
    rw [removeWins_append, hremove, List.append_nil]
  have hreturns : returns (h ++ [e]) = returns h := by
    rw [returns_append, hreturn, List.append_nil]
  constructor
  · apply htail
  · rw [hremoves, hhead]
    apply hL.removeTickets
  · rw [hreturns]
    apply hL.once
  · intro k x hk
    rw [hreturns] at hk
    apply Won.append (hL.delivered k x hk)
  · intro j k hk
    rw [hreturns]
    apply (hL.owner j k hk).imp_left (List.mem_append_left _)
  · intro j k x hj
    apply List.mem_append_left
    apply hL.returned j k x
    apply (List.mem_append.mp hj).resolve_right
    intro hmem
    obtain rfl := List.mem_singleton.mp hmem
    cases hreturn
  · rw [hreturns, hhead]
    apply hL.accounted

theorem addReturned (hL : Ledger m l h) {i : ι} {pos : ℕ} :
  Ledger m l (h ++ [(i, .addReturned pos)])
  := by
  apply hL.addEvent rfl rfl rfl
  rw [addWins_append, ← hL.addTickets]
  exact congrArg _ (List.append_nil _)

variable [DecidableEq ι]

/-- A thread moves without an event a ledger records. -/
theorem silent (hL : Ledger m l h) {i : ι} {v : Thread T}
    (hv : v.pc.removing = (l i).pc.removing) :
  Ledger m (Function.update l i v) h
  := by
  have same : ∀ j, (Function.update l i v j).pc.removing = (l j).pc.removing := by
    apply (Function.forall_update_iff l (fun j t => t.pc.removing = (l j).pc.removing)).mpr
    exact ⟨hv, fun _ _ => rfl⟩
  refine { hL with owner := ?_, accounted := ?_ }
  · intro j k hk
    rw [same] at hk
    apply hL.owner j k hk
  · intro k hk
    simp only [same]
    apply hL.accounted k hk

theorem addWon (hL : Ledger m l h) {i : ι} {v : Thread T} {item : T}
    (hv : v.pc.removing = (l i).pc.removing) :
  Ledger { m with tail := m.tail + 1 } (Function.update l i v)
    (h ++ [(i, .addWon m.tail item)])
  := by
  apply (hL.silent hv).addEvent
  · rfl
  · rfl
  · rfl
  · rw [addWins_append, List.map_append, hL.addTickets, List.range_succ]
    rfl

theorem removeWon (hL : Ledger m l h) {i : ι} {v : Thread T}
    (hi : (l i).pc.removing = none) (hv : v.pc.removing = some m.head) :
  Ledger { m with head := m.head + 1 } (Function.update l i v)
    (h ++ [(i, .removeWon m.head)])
  := by
  have hreturns : returns (h ++ [(i, .removeWon m.head)]) = returns h := by
    simp [returns]
  constructor
  · simpa [NonBlockingQueue.addWins] using hL.addTickets
  · simp only [removeWins_append, hL.removeTickets, List.range_succ]
    rfl
  · rw [hreturns]
    apply hL.once
  · intro k x hk
    rw [hreturns] at hk
    apply Won.append (hL.delivered k x hk)
  · intro j k hk
    rw [hreturns]
    by_cases hji : j = i
    · subst hji
      rw [Function.update_self, hv] at hk
      cases hk
      use List.mem_append_right _ (List.mem_singleton_self _)
      intro hmem
      apply lt_irrefl _ (hL.returned_lt hmem)
    · rw [Function.update_of_ne hji] at hk
      obtain ⟨hwon, hnot⟩ := hL.owner j k hk
      exact ⟨List.mem_append_left _ hwon, hnot⟩
  · intro j k x hj
    apply List.mem_append_left
    apply hL.returned j k x
    simpa using hj
  · intro k hk
    rw [hreturns]
    rcases Nat.lt_succ_iff_lt_or_eq.mp hk with hlt | rfl
    · rcases hL.accounted k hlt with hmem | ⟨j, hj⟩
      · left
        apply hmem
      · right
        use j
        rw [Function.update_of_ne]
        · apply hj
        · rintro rfl
          rw [hi] at hj
          cases hj
    · right
      use i
      rw [Function.update_self, hv]

theorem removeReturned (hL : Ledger m l h) (hex : Exclusive (fun t => t.pc.removing) l)
    {i : ι} {v : Thread T} {pos : ℕ} {out : T} (hi : (l i).pc.removing = some pos)
    (hv : v.pc.removing = none) (hwon : Won h pos out) :
  Ledger m (Function.update l i v) (h ++ [(i, .removeReturned pos out)])
  := by
  have hreturns : returns (h ++ [(i, .removeReturned pos out)]) = returns h ++ [(pos, out)] := by
    simp [returns]
  have hkeys : (returns (h ++ [(i, .removeReturned pos out)])).map Prod.fst
      = (returns h).map Prod.fst ++ [pos] := by
    simp [hreturns]
  obtain ⟨hown, hnot⟩ := hL.owner i pos hi
  constructor
  · simpa [NonBlockingQueue.addWins] using hL.addTickets
  · simpa [removeWins] using hL.removeTickets
  · rw [hkeys]
    apply List.Nodup.append hL.once (List.nodup_singleton _)
    simpa [List.disjoint_singleton] using hnot
  · intro k x hk
    apply Won.append
    rw [hreturns, List.mem_append, List.mem_singleton] at hk
    rcases hk with hk | hk
    · apply hL.delivered k x hk
    · cases hk
      apply hwon
  · intro j k hk
    by_cases hji : j = i
    · subst hji
      rw [Function.update_self, hv] at hk
      cases hk
    · rw [Function.update_of_ne hji] at hk
      obtain ⟨hwon, hnot⟩ := hL.owner j k hk
      use List.mem_append_left _ hwon
      rw [hkeys, List.mem_append, List.mem_singleton]
      rintro (hmem | rfl)
      · apply hnot hmem
      · apply hji (hex j i k hk hi)
  · intro j k x hj
    apply List.mem_append_left
    rw [List.mem_append, List.mem_singleton] at hj
    rcases hj with hj | hj
    · apply hL.returned j k x hj
    · cases hj
      apply hown
  · intro k hk
    rw [hkeys, List.mem_append, List.mem_singleton]
    rcases hL.accounted k hk with hmem | ⟨j, hj⟩
    · left
      left
      apply hmem
    · by_cases hji : j = i
      · subst hji
        rw [hi] at hj
        cases hj
        left
        right
        rfl
      · right
        use j
        rw [Function.update_of_ne hji]
        apply hj

end Ledger

/-! ### Reachable states -/

variable [DecidableEq ι]

/-- Every step over unbounded numbers keeps the ring and the ledger. -/
theorem step_keeps {c : ℕ} (hc : 2 ≤ c) {m : Mem T} {l : ι → Thread T}
    {h : List (ι × Event T)} {i : ι} {spurious : Bool}
    {o : Outcome (Mem T) (Thread T) (Event T)} (hR : Ring c m l (Won h)) (hL : Ledger m l h)
    (ho : step .unbounded c m (l i) spurious = some o) :
  Ring c o.mem (Function.update l i o.loc) (Won (h ++ o.events.map (Prod.mk i))) ∧
    Ledger o.mem (Function.update l i o.loc) (h ++ o.events.map (Prod.mk i))
  := by
  have hi := hR.thread i
  have grow : ∀ g k x, Won h k x → Won (h ++ g) k x := fun g k x hw => hw.append g
  have silent : ∀ v : Thread T, ThreadOk c m (Won h) v.pc → v.pc.adding = none →
      v.pc.removing = (l i).pc.removing →
      Ring c m (Function.update l i v) (Won (h ++ [])) ∧
        Ledger m (Function.update l i v) (h ++ []) := by
    intro v hv ha hr
    rw [List.append_nil]
    constructor
    · apply hR.silent hv
      · simp [ha]
      · simp [hr]
    · apply hL.silent hr
  cases step_moves ho with
  | addLoadTail hpc =>
      apply silent _ _ rfl (by rw [hpc]; rfl)
      exact le_refl m.tail
  | @addReady item pos hpc hdif =>
      rw [hpc] at hi
      apply silent _ _ rfl (by rw [hpc]; rfl)
      use hi
      intro _
      simp only [SizeT.unbounded] at hdif
      omega
  | @addWins item pos hpc htail =>
      subst htail
      rw [hpc] at hi
      constructor
      · apply hR.addWins hc (grow _) (hi.2 rfl) rfl
        simp [Won, addWins]
      · apply hL.addWon
        rw [hpc]
        rfl
  | addWrite hpc =>
      simp only [List.map_nil, List.append_nil]
      constructor
      · apply hR.addWrite hc hpc rfl
      · apply Ledger.slots _ (Mem.storeData_head ..) (Mem.storeData_tail ..)
        apply hL.silent
        rw [hpc]
        rfl
  | addPublish hpc =>
      constructor
      · apply Ring.mono (grow _)
        apply hR.addPublish hc hpc rfl
      · apply Ledger.addReturned
        apply Ledger.slots _ (Mem.storeSeq_head ..) (Mem.storeSeq_tail ..)
        apply hL.silent
        rw [hpc]
        rfl
  | removeLoadHead hpc =>
      apply silent _ _ rfl (by rw [hpc]; rfl)
      exact le_refl m.head
  | @removeReady pos hpc hdif =>
      rw [hpc] at hi
      apply silent _ _ rfl (by rw [hpc]; rfl)
      use hi
      intro _
      simp only [SizeT.unbounded] at hdif
      omega
  | @removeWins pos hpc hhead =>
      subst hhead
      rw [hpc] at hi
      constructor
      · apply Ring.mono (grow _)
        apply hR.removeWins hc (hi.2 rfl) rfl
      · apply hL.removeWon
        · rw [hpc]
          rfl
        · rfl
  | removeRead hpc =>
      rw [hpc] at hi
      simp only [List.map_nil, List.append_nil]
      constructor
      · apply hR.silent hi
        · simp [Pc.adding]
        · simp [hpc, Pc.removing]
      · apply hL.silent
        rw [hpc]
        rfl
  | removeRelease hpc =>
      rw [hpc] at hi
      constructor
      · apply Ring.mono (grow _)
        apply hR.removeRelease hc hpc rfl
      · apply Ledger.slots _ (Mem.storeSeq_head ..) (Mem.storeSeq_tail ..)
        apply hL.removeReturned hR.removing _ rfl hi.2
        rw [hpc]
        rfl
  | addFull hpc => exact silent _ trivial rfl (by rw [hpc]; rfl)
  | addBehind hpc => exact silent _ trivial rfl (by rw [hpc]; rfl)
  | addLoses hpc => exact silent _ trivial rfl (by rw [hpc]; rfl)
  | addBackoff hpc => exact silent _ trivial rfl (by rw [hpc]; rfl)
  | addRetry hpc => exact silent _ trivial rfl (by rw [hpc]; rfl)
  | beginAdd hpc => exact silent _ trivial rfl (by rw [hpc]; rfl)
  | beginRemove hpc => exact silent _ trivial rfl (by rw [hpc]; rfl)
  | removeEmpty hpc => exact silent _ trivial rfl (by rw [hpc]; rfl)
  | removeBehind hpc => exact silent _ trivial rfl (by rw [hpc]; rfl)
  | removeLoses hpc => exact silent _ trivial rfl (by rw [hpc]; rfl)
  | removeBackoff hpc => exact silent _ trivial rfl (by rw [hpc]; rfl)
  | removeRetry hpc => exact silent _ trivial rfl (by rw [hpc]; rfl)

end NonBlockingQueue

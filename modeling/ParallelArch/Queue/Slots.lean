import ParallelArch.Queue.Delivery

/-!
# The slots of the non-blocking queue

A slot has one owner at a time: the adds and removes between their compare-exchange and
their store to `seq` work on different slots (`slot_owned`).

The `seq` of a slot tells its history: the ticket `k` has been published if `seq` is above
`k`, and released if `seq` has reached `k + capacity` (`Told`).  So the test on `dif` is
never wrong about what it reports (`Reports`).
-/

namespace NonBlockingQueue

variable {T ι : Type*}

/-! ### Owners -/

/-- The slot a thread owns, between its compare-exchange and its store to `seq`. -/
def Pc.slot (c : ℕ) (pc : Pc T) : Option ℕ := (pc.adding.or pc.removing).map (· % c)

/-- The slot whose `data` a thread writes in its next step. -/
def Pc.writes (c : ℕ) : Pc T → Option ℕ
  | .addWrite _ pos => some (pos % c)
  | _ => none

/-- The slot whose `data` a thread reads in its next step. -/
def Pc.reads (c : ℕ) : Pc T → Option ℕ
  | .removeRead pos => some (pos % c)
  | _ => none

/-- What a thread writes or reads it owns. -/
theorem Pc.slot_of_access {c k : ℕ} {pc : Pc T} (h : pc.writes c = some k ∨ pc.reads c = some k) :
  pc.slot c = some k
  := by
  cases pc with
  | addWrite item pos =>
      rcases h with h | h
      · exact h
      · cases h
  | removeRead pos =>
      rcases h with h | h
      · cases h
      · exact h
  | _ => rcases h with h | h <;> cases h

section Ring

variable {c : ℕ} {m : Mem T} {l : ι → Thread T} {won : ℕ → T → Prop}

/-- The slot of an add that has won its ticket awaits that ticket. -/
theorem Ring.seq_of_adding (h : Ring c m l won) {i : ι} {k : ℕ}
    (hi : (l i).pc.adding = some k) :
  (m.buffer (k % c)).seq = k
  := by
  have ht := h.thread i
  cases hpc : (l i).pc with
  | addWrite item pos =>
      rw [hpc] at hi ht
      cases hi
      apply ht.seq
  | addPublish item pos =>
      rw [hpc] at hi ht
      cases hi
      apply ht.1.seq
  | _ =>
      rw [hpc] at hi
      cases hi

/-- The slot of a remove that has won its ticket holds the item of that ticket. -/
theorem Ring.seq_of_removing (h : Ring c m l won) {i : ι} {k : ℕ}
    (hi : (l i).pc.removing = some k) :
  (m.buffer (k % c)).seq = k + 1
  := by
  have ht := h.thread i
  cases hpc : (l i).pc with
  | removeRead pos =>
      rw [hpc] at hi ht
      cases hi
      apply ht.1.seq
  | removeRelease pos out =>
      rw [hpc] at hi ht
      cases hi
      apply ht.1.seq
  | _ =>
      rw [hpc] at hi
      cases hi

/-- A slot is owned by the ticket its `seq` names. -/
theorem Pc.slot_eq_some {pc : Pc T} {r : ℕ} :
  pc.slot c = some r ↔ ∃ k, k % c = r ∧ (pc.adding = some k ∨ pc.removing = some k)
  := by
  cases pc <;> simp [slot, adding, removing]

theorem Ring.exclusive_slots (hc : 2 ≤ c) (h : Ring c m l won) :
  Exclusive (fun t => t.pc.slot c) l
  := by
  intro i j r hi hj
  obtain ⟨k, rfl, hk⟩ := Pc.slot_eq_some.mp hi
  obtain ⟨k', hslot, hk'⟩ := Pc.slot_eq_some.mp hj
  have hne := succ_mod_ne hc
  rcases hk with hk | hk
  · have hseq := h.seq_of_adding hk
    rcases hk' with hk' | hk'
    · have hseq' := h.seq_of_adding hk'
      rw [hslot, hseq] at hseq'
      apply h.adding i j k hk (hseq' ▸ hk')
    · have hseq' := h.seq_of_removing hk'
      rw [hslot, hseq] at hseq'
      cases hne k' (hseq' ▸ hslot.symm)
  · have hseq := h.seq_of_removing hk
    rcases hk' with hk' | hk'
    · have hseq' := h.seq_of_adding hk'
      rw [hslot, hseq] at hseq'
      cases hne k (hseq' ▸ hslot)
    · have hseq' := h.seq_of_removing hk'
      rw [hslot, hseq] at hseq'
      apply h.removing i j k hk (Nat.succ.inj hseq' ▸ hk')

end Ring

variable [Inhabited T] [DecidableEq ι]

/-- The tickets in use are at most `c`, a slot has at most one owner, and no thread writes the
data of a slot while another writes or reads it. -/
theorem slot_owned {c : ℕ} (hc : 2 ≤ c) {h : List (ι × Event T)}
    {s : Global ι (Mem T) (Thread T)}
    (hs : (queue ι .bits64 c).Reachable (TicketsInRange c) h s) :
  s.mem.head ≤ s.mem.tail ∧ s.mem.tail ≤ s.mem.head + c ∧
    Exclusive (fun t => t.pc.slot c) s.loc ∧
    ∀ i j k, (s.loc i).pc.writes c = some k →
      (s.loc j).pc.writes c = some k ∨ (s.loc j).pc.reads c = some k → i = j
  := by
  obtain ⟨hR, -⟩ := reachable_bits64 hc hs
  have hexclusive := hR.exclusive_slots hc
  use hR.head_le, hR.tail_le, hexclusive
  intro i j k hi hj
  apply hexclusive i j k (Pc.slot_of_access (.inl hi)) (Pc.slot_of_access hj)

/-- Thread `0` is about to write the slot `0`, which thread `1` does not own. -/
theorem slot_owned_zero :
  ∃ (h : List (Fin 2 × Event ℕ)) (s : Global (Fin 2) (Mem ℕ) (Thread ℕ)),
    (queue (Fin 2) .bits64 2).Reachable (TicketsInRange 2) h s ∧
      (s.loc 0).pc.writes 2 = some 0 ∧ (s.loc 1).pc.slot 2 ≠ some 0
  := by
  have hinit : (queue (Fin 2) .bits64 2).Initial
      ⟨Mem.new 2, fun i => ⟨if i = 0 then [.add 7] else [.remove], .idle, 0⟩⟩ :=
    ⟨rfl, fun _ => ⟨rfl, rfl⟩⟩
  have hs := Machine.exec_reachable (G := TicketsInRange 2)
    [(0, false), (0, false), (1, false), (1, false), (0, false), (0, false)] hinit rfl
  refine ⟨_, _, hs, rfl, ?_⟩
  have hexclusive := (slot_owned le_rfl hs).2.2.1
  intro hslot
  have hsame := hexclusive 0 1 0 (Pc.slot_of_access (.inl rfl)) hslot
  cases hsame

/-! ### What `seq` tells -/

/-- The add of the ticket `k` has stored its `seq`. -/
def Published (h : List (ι × Event T)) (k : ℕ) : Prop := ∃ i, (i, .addReturned k) ∈ h

/-- The remove of the ticket `k` has stored its `seq`. -/
def Released (h : List (ι × Event T)) (k : ℕ) : Prop := ∃ i x, (i, .removeReturned k x) ∈ h

omit [Inhabited T] [DecidableEq ι] in
theorem published_append {h g : List (ι × Event T)} {k : ℕ} :
  Published (h ++ g) k ↔ Published h k ∨ Published g k
  := by
  simp only [Published, List.mem_append, exists_or]

omit [Inhabited T] [DecidableEq ι] in
theorem released_append {h g : List (ι × Event T)} {k : ℕ} :
  Released (h ++ g) k ↔ Released h k ∨ Released g k
  := by
  simp only [Released, List.mem_append, exists_or]

/-- The `seq` of a slot tells which of its tickets have been published and released. -/
structure Told (c : ℕ) (m : Mem T) (h : List (ι × Event T)) : Prop where
  lower : ∀ r, r < c → r ≤ (m.buffer r).seq
  published : ∀ k, Published h k ↔ k < (m.buffer (k % c)).seq
  released : ∀ k, Released h k ↔ k + c ≤ (m.buffer (k % c)).seq

section Told

variable {c : ℕ} {m m' : Mem T} {h g : List (ι × Event T)}

omit [Inhabited T] [DecidableEq ι]

/-- Nothing is stored and nobody returns. -/
theorem Told.silent (ht : Told c m h) (hseq : ∀ r, (m'.buffer r).seq = (m.buffer r).seq)
    (hp : ∀ k, ¬ Published g k) (hr : ∀ k, ¬ Released g k) :
  Told c m' (h ++ g)
  := by
  constructor
  · intro r hlt
    rw [hseq]
    apply ht.lower r hlt
  · intro k
    rw [hseq, published_append, or_iff_left (hp k)]
    apply ht.published
  · intro k
    rw [hseq, released_append, or_iff_left (hr k)]
    apply ht.released

/-- The ticket `pos` is published. -/
theorem Told.publish (hc : 2 ≤ c) (ht : Told c m h) {pos : ℕ}
    (hslot : (m.buffer (pos % c)).seq = pos) (hp : ∀ k, Published g k ↔ k = pos)
    (hr : ∀ k, ¬ Released g k) :
  Told c (m.storeSeq (pos % c) (pos + 1)) (h ++ g)
  := by
  have hlower := ht.lower (pos % c) (Nat.mod_lt _ (by omega))
  constructor
  · intro r hlt
    rw [Mem.storeSeq_seq]
    split_ifs with hslot'
    · omega
    · apply ht.lower r hlt
  · intro k
    rw [published_append, hp, ht.published, Mem.storeSeq_seq]
    split_ifs with hslot'
    · rw [hslot', hslot]
      omega
    · have hne : k ≠ pos := by
        rintro rfl
        apply hslot' rfl
      simp [hne]
  · intro k
    rw [released_append, or_iff_left (hr k), ht.released, Mem.storeSeq_seq]
    split_ifs with hslot'
    · have hne : k + c ≠ pos + 1 := by
        intro heq
        apply succ_mod_ne hc pos
        rw [← heq, Nat.add_mod_right, hslot']
      rw [hslot', hslot]
      omega
    · rfl

/-- Tickets of one slot are a lap apart. -/
theorem lap_le {k pos : ℕ} (hslot : k % c = pos % c) (hlt : k < pos) :
  k + c ≤ pos
  := by
  by_contra hlap
  apply slot_ne hlt (not_le.mp hlap) hslot.symm

/-- The ticket `pos` is released. -/
theorem Told.release (ht : Told c m h) {pos : ℕ}
    (hslot : (m.buffer (pos % c)).seq = pos + 1) (hp : ∀ k, ¬ Published g k)
    (hr : ∀ k, Released g k ↔ k = pos) (hc : 2 ≤ c) :
  Told c (m.storeSeq (pos % c) (pos + c)) (h ++ g)
  := by
  have hlower := ht.lower (pos % c) (Nat.mod_lt _ (by omega))
  constructor
  · intro r hlt
    rw [Mem.storeSeq_seq]
    split_ifs with hslot'
    · omega
    · apply ht.lower r hlt
  · intro k
    rw [published_append, or_iff_left (hp k), ht.published, Mem.storeSeq_seq]
    split_ifs with hslot'
    · rw [hslot', hslot]
      constructor
      · omega
      · intro hlt
        by_contra hge
        have hlap := lap_le hslot'.symm (by omega : pos < k)
        omega
    · rfl
  · intro k
    rw [released_append, hr, ht.released, Mem.storeSeq_seq]
    split_ifs with hslot'
    · rw [hslot', hslot]
      constructor
      · omega
      · intro hle
        rcases Nat.lt_or_ge k pos with hlt | hge
        · left
          have hlap := lap_le hslot' hlt
          omega
        · right
          omega
    · have hne : k ≠ pos := by
        rintro rfl
        apply hslot' rfl
      simp [hne]

end Told

omit [Inhabited T] [DecidableEq ι] in
/-- Every step over unbounded numbers keeps what `seq` tells. -/
theorem Told.step {c : ℕ} (hc : 2 ≤ c) {m : Mem T} {l : ι → Thread T} {won : ℕ → T → Prop}
    {h : List (ι × Event T)} {i : ι} {spurious : Bool} {o : Outcome (Mem T) (Thread T) (Event T)}
    (hR : Ring c m l won) (ht : Told c m h)
    (ho : step .unbounded c m (l i) spurious = some o) :
  Told c o.mem (h ++ o.events.map (Prod.mk i))
  := by
  cases step_moves ho with
  | @addPublish item pos hpc =>
      have hslot : (m.buffer (pos % c)).seq = pos := by
        apply hR.seq_of_adding (i := i)
        rw [hpc]
        rfl
      apply ht.publish hc hslot
      · simp [Published]
      · simp [Released]
  | @removeRelease pos out hpc =>
      have hslot : (m.buffer (pos % c)).seq = pos + 1 := by
        apply hR.seq_of_removing (i := i)
        rw [hpc]
        rfl
      apply ht.release hslot _ _ hc
      · simp [Published]
      · simp [Released]
  | addWrite =>
      apply ht.silent
      · simp
      · simp [Published]
      · simp [Released]
  | _ =>
      apply ht.silent
      · simp
      · simp [Published]
      · simp [Released]

omit [DecidableEq ι] in
theorem Told.new {c : ℕ} (hc : 2 ≤ c) :
  Told c (Mem.new c : Mem T) ([] : List (ι × Event T))
  := by
  have hle : ∀ k, k % c ≤ k := fun k => Nat.mod_le k c
  constructor
  · intro r _
    rfl
  · intro k
    simpa [Published, Mem.new] using hle k
  · intro k
    have hmod := hle k
    have hlt : k % c < k + c := by omega
    simpa [Released, Mem.new] using hlt

/-- A ticket dealt out to an add has been published, or its add is on the way. -/
def Promised (m : Mem T) (l : ι → Thread T) (h : List (ι × Event T)) : Prop :=
  ∀ k, k < m.tail → Published h k ∨ ∃ i, (l i).pc.adding = some k

section Promised

variable {m m' : Mem T} {l : ι → Thread T} {h g : List (ι × Event T)} {i : ι} {v : Thread T}

omit [Inhabited T] in
/-- A thread moves and keeps its ticket, if it has one. -/
theorem Promised.keep (hP : Promised m l h) (htail : m'.tail = m.tail)
    (hv : v.pc.adding = (l i).pc.adding) :
  Promised m' (Function.update l i v) (h ++ g)
  := by
  intro k hk
  rw [htail] at hk
  rcases hP k hk with hpublished | ⟨j, hj⟩
  · left
    exact published_append.mpr (.inl hpublished)
  · right
    use j
    rcases eq_or_ne j i with rfl | hne
    · rw [Function.update_self, hv, hj]
    · rw [Function.update_of_ne hne, hj]

omit [Inhabited T] in
theorem Promised.win (hP : Promised m l h) (hi : (l i).pc.adding = none)
    (hv : v.pc.adding = some m.tail) :
  Promised { m with tail := m.tail + 1 } (Function.update l i v) (h ++ g)
  := by
  intro k hk
  rcases Nat.lt_succ_iff_lt_or_eq.mp hk with hlt | rfl
  · rcases hP k hlt with hpublished | ⟨j, hj⟩
    · left
      exact published_append.mpr (.inl hpublished)
    · right
      use j
      have hne : j ≠ i := by
        rintro rfl
        rw [hi] at hj
        cases hj
      rw [Function.update_of_ne hne, hj]
  · right
    use i
    rw [Function.update_self, hv]

omit [Inhabited T] in
theorem Promised.publish (hP : Promised m l h) {pos : ℕ} (htail : m'.tail = m.tail)
    (hi : (l i).pc.adding = some pos) (hg : Published g pos) :
  Promised m' (Function.update l i v) (h ++ g)
  := by
  intro k hk
  rw [htail] at hk
  rcases hP k hk with hpublished | ⟨j, hj⟩
  · left
    exact published_append.mpr (.inl hpublished)
  · rcases eq_or_ne j i with rfl | hne
    · left
      rw [hi] at hj
      obtain rfl := Option.some.inj hj
      exact published_append.mpr (.inr hg)
    · right
      use j
      rw [Function.update_of_ne hne, hj]

end Promised

omit [Inhabited T] in
theorem Promised.step {c : ℕ} {m : Mem T} {l : ι → Thread T} {h : List (ι × Event T)} {i : ι}
    {spurious : Bool} {o : Outcome (Mem T) (Thread T) (Event T)} (hP : Promised m l h)
    (ho : step .unbounded c m (l i) spurious = some o) :
  Promised o.mem (Function.update l i o.loc) (h ++ o.events.map (Prod.mk i))
  := by
  cases step_moves ho with
  | @addWins item pos hpc htail =>
      subst htail
      apply hP.win
      · rw [hpc]
        rfl
      · rfl
  | @addPublish item pos hpc =>
      apply hP.publish (Mem.storeSeq_tail ..)
      · rw [hpc]
        rfl
      · simp [Published]
  | _ =>
      apply hP.keep
      · rfl
      · simp [*, Pc.adding]

/-- In every reachable state `seq` tells which tickets have been published and released. -/
theorem reachable_told {c : ℕ} (hc : 2 ≤ c) {h : List (ι × Event T)}
    {s : Global ι (Mem T) (Thread T)}
    (hs : (queue ι .bits64 c).Reachable (TicketsInRange c) h s) :
  Ring c s.mem s.loc (Won h) ∧ Ledger s.mem s.loc h ∧ Told c s.mem h ∧ Promised s.mem s.loc h
  := by
  apply threads_invariant (I := fun m l h => Ring c m l (Won h) ∧ Ledger m l h ∧ Told c m h ∧
    Promised m l h) _ _ hs
  · rintro m l ⟨rfl, hl⟩
    use Ring.new (fun i => (hl i).1), Ledger.new (fun i => (hl i).1), Told.new hc
    intro k hk
    cases hk
  · rintro m l h i spurious o ⟨hR, hL, ht, hP⟩ hG ho
    rw [step_bits64 hc hR hG] at ho
    obtain ⟨hR', hL'⟩ := step_keeps hc hR hL ho
    use hR', hL', ht.step hc hR ho
    apply hP.step ho

/-! ### The test on `dif` -/

section Dif

variable {c : ℕ} {m : Mem T} {l : ι → Thread T} {won : ℕ → T → Prop} {h : List (ι × Event T)}

omit [Inhabited T] [DecidableEq ι]

/-- A ticket whose slot is ahead of it has been dealt out to an add. -/
theorem Ring.lt_tail_of_lt_seq (hc : 2 ≤ c) (hR : Ring c m l won) {pos : ℕ} (hpos : pos ≤ m.tail)
    (hseq : pos < (m.buffer (pos % c)).seq) :
  pos < m.tail
  := by
  have hle := hR.head_le
  have htail := hR.tail_le
  by_contra hge
  obtain rfl : pos = m.tail := Nat.le_antisymm hpos (Nat.le_of_not_lt hge)
  rcases Nat.lt_or_ge m.tail (m.head + c) with hroom | hfull
  · have hvacant := hR.vacant m.tail le_rfl hroom
    omega
  · have hfilled := hR.filled m.head le_rfl (by omega)
    have heq : m.tail = m.head + c := by omega
    rw [heq, Nat.add_mod_right] at hseq
    omega

/-- A ticket whose slot is ahead of its item has been dealt out to a remove. -/
theorem Ring.lt_head_of_lt_seq (hc : 2 ≤ c) (hR : Ring c m l won) {pos : ℕ} (hpos : pos ≤ m.head)
    (hseq : pos + 1 < (m.buffer (pos % c)).seq) :
  pos < m.head
  := by
  have hle := hR.head_le
  by_contra hge
  obtain rfl : pos = m.head := Nat.le_antisymm hpos (Nat.le_of_not_lt hge)
  rcases Nat.lt_or_ge m.head m.tail with hitem | hempty
  · have hfilled := hR.filled m.head le_rfl hitem
    omega
  · have hvacant := hR.vacant m.head hempty (by omega)
    omega

/-- A slot behind a ticket still has to be released by the ticket a lap before. -/
theorem Told.unreleased (ht : Told c m h) {pos : ℕ} (hseq : (m.buffer (pos % c)).seq < pos) :
  c ≤ pos ∧ ¬ Released h (pos - c)
  := by
  have hlap : c ≤ pos := by
    by_contra hlt
    have hlower := ht.lower (pos % c)
    rw [Nat.mod_eq_of_lt (by omega)] at hlower hseq
    have := hlower (by omega)
    omega
  use hlap
  rw [ht.released, ← Nat.mod_eq_sub_mod hlap]
  omega

end Dif

/-- What the branch a thread has taken says about the ticket: its slot has not been released,
or not been published, or the ticket has been dealt out. -/
structure Reports (c : ℕ) (m : Mem T) (h : List (ι × Event T)) (pc : Pc T) : Prop where
  full : ∀ item pos, pc = .addFull item pos → c ≤ pos ∧ ¬ Released h (pos - c)
  empty : ∀ pos, pc = .removeEmpty pos → ¬ Published h pos
  addPast : ∀ item pos, pc = .addRetry item pos → pos < m.tail
  removePast : ∀ pos, pc = .removeRetry pos → pos < m.head

/-- What the branches of the test on `dif` report is true. -/
theorem dif_reports {c : ℕ} (hc : 2 ≤ c) {h : List (ι × Event T)}
    {s : Global ι (Mem T) (Thread T)}
    (hs : (queue ι .bits64 c).Reachable (TicketsInRange c) h s) (hrange : s.mem.tail + c < 2 ^ 63)
    {i : ι} {spurious : Bool} {o : Outcome (Mem T) (Thread T) (Event T)}
    (ho : step .bits64 c s.mem (s.loc i) spurious = some o) :
  Reports c s.mem h o.loc.pc
  := by
  obtain ⟨hR, -, ht, -⟩ := reachable_told hc hs
  rw [step_bits64 hc hR hrange] at ho
  have hi := hR.thread i
  cases step_moves ho with
  | @addFull item pos hpc hdif =>
      simp only [SizeT.unbounded] at hdif
      have hreport := ht.unreleased (by omega : (s.mem.buffer (pos % c)).seq < pos)
      constructor <;> simp [hreport]
  | @removeEmpty pos hpc hdif =>
      simp only [SizeT.unbounded] at hdif
      have hreport : ¬ Published h pos := by
        rw [ht.published]
        omega
      constructor <;> simp [hreport]
  | @addBehind item pos hpc hdif =>
      rw [hpc] at hi
      simp only [SizeT.unbounded] at hdif
      have hreport := hR.lt_tail_of_lt_seq hc hi (by omega)
      constructor <;> simp [hreport]
  | @removeBehind pos hpc hdif =>
      rw [hpc] at hi
      simp only [SizeT.unbounded] at hdif
      have hreport := hR.lt_head_of_lt_seq hc hi (by omega)
      constructor <;> simp [hreport]
  | _ => constructor <;> simp

end NonBlockingQueue

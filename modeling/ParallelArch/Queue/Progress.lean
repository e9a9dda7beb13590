import ParallelArch.Queue.Sequential
import ParallelArch.Queue.Slots

/-!
# A thread alone in the non-blocking queue

A thread that runs alone, without spurious failures, returns from its `add` if and only if
the slot of the next ticket has been released, and from its `remove` if and only if it has
been published.  Between the calls of all threads this is the case as long as the queue is not
full, or not empty (`dif_exact`); when another thread stops between its compare-exchange and
its store, its slot holds up the others (`unstopped_iff`).
-/

namespace NonBlockingQueue

variable {T ι : Type*}

/-! ### Runs of one thread -/

/-- The call a thread begins or makes, while it has won no ticket. -/
def Thread.seeks (t : Thread T) : Option (QueueCall T) :=
  match t.pc with
  | .idle => t.todo.head?
  | .addLoadTail item | .addLoadSeq item _ | .addCas item _ | .addFull item _
  | .addRetry item _ => some (.add item)
  | .removeLoadHead | .removeLoadSeq _ | .removeCas _ | .removeEmpty _ | .removeRetry _ =>
      some .remove
  | _ => none

section Solo

variable {W : SizeT} {c : ℕ} {i : ι} {m : Mem T} {t : Thread T}

/-- A silent step before a run. -/
theorem solo_step {k : ℕ} {t' : Thread T} {o : Outcome (Mem T) (Thread T) (Event T)}
    (hstep : step W c m t false = some { mem := m, loc := t' })
    (hrest : solo (fun _ : ι => step W c) i (List.replicate k false) m t' = some o) :
  solo (fun _ : ι => step W c) i (List.replicate (k + 1) false) m t = some o
  := by
  simp [List.replicate_succ, solo, hstep, hrest]

theorem solo_addLoadTail (hready : m.AddReady W c) (item : T) (todo : List (QueueCall T))
    (spins : ℕ) :
  solo (fun _ : ι => step W c) i (List.replicate 5 false) m ⟨todo, .addLoadTail item, spins⟩
    = some { mem := m.push W c item, loc := ⟨todo, .idle, spins⟩,
             events := [.addWon m.tail item, .addReturned m.tail] }
  := by
  have hdif : W.dif (m.buffer (m.tail % c)).seq m.tail = 0 := hready
  simp [solo, step, Thread.goto, hdif, Mem.push]

theorem solo_removeLoadHead (hready : m.RemoveReady W c) (todo : List (QueueCall T))
    (spins : ℕ) :
  solo (fun _ : ι => step W c) i (List.replicate 5 false) m ⟨todo, .removeLoadHead, spins⟩
    = some { mem := m.pop W c, loc := ⟨todo, .idle, spins⟩,
             events := [.removeWon m.head,
               .removeReturned m.head (m.buffer (m.head % c)).data] }
  := by
  have hdif : W.dif (m.buffer (m.head % c)).seq (W.wrap (m.head + 1)) = 0 := hready
  simp [solo, step, Thread.goto, hdif, Mem.pop]

/-- The thread `i` returns from an add if it runs alone. -/
def AddReturns (W : SizeT) (c : ℕ) (i : ι) (m : Mem T) (t : Thread T) : Prop :=
  ∃ k o pos, solo (fun _ : ι => step W c) i (List.replicate k false) m t = some o ∧
    .addReturned pos ∈ o.events

/-- The thread `i` returns from a remove if it runs alone. -/
def RemoveReturns (W : SizeT) (c : ℕ) (i : ι) (m : Mem T) (t : Thread T) : Prop :=
  ∃ k o pos out, solo (fun _ : ι => step W c) i (List.replicate k false) m t = some o ∧
    .removeReturned pos out ∈ o.events

/-- The way back to the load of `tail`. -/
theorem addReturns_of_step {t' : Thread T}
    (hstep : step W c m t false = some { mem := m, loc := t' })
    (ht' : AddReturns W c i m t') :
  AddReturns W c i m t
  := by
  obtain ⟨k, o, pos, hsolo, hmem⟩ := ht'
  use k + 1, o, pos, solo_step hstep hsolo

theorem removeReturns_of_step {t' : Thread T}
    (hstep : step W c m t false = some { mem := m, loc := t' })
    (ht' : RemoveReturns W c i m t') :
  RemoveReturns W c i m t
  := by
  obtain ⟨k, o, pos, out, hsolo, hmem⟩ := ht'
  use k + 1, o, pos, out, solo_step hstep hsolo

/-- With its slot free an add returns from wherever it is. -/
theorem addReturns (hready : m.AddReady W c) {item : T} (ht : t.seeks = some (.add item)) :
  AddReturns W c i m t
  := by
  obtain ⟨todo, pc, spins⟩ := t
  have hload : ∀ todo spins, AddReturns W c i m ⟨todo, .addLoadTail item, spins⟩ := by
    intro todo spins
    exact ⟨5, _, m.tail, solo_addLoadTail hready item todo spins, by simp⟩
  have hcas : ∀ pos, AddReturns W c i m ⟨todo, .addCas item pos, spins⟩ := by
    intro pos
    rcases eq_or_ne m.tail pos with rfl | hne
    · use 3, { mem := m.push W c item, loc := ⟨todo, .idle, spins⟩,
               events := [.addWon m.tail item, .addReturned m.tail] }, m.tail
      simp [solo, step, Thread.goto, Mem.push]
    · apply addReturns_of_step _ (hload todo spins)
      simp [step, Thread.goto, hne]
  cases pc with
  | idle =>
      obtain ⟨rest, rfl⟩ := List.head?_eq_some_iff.mp ht
      apply addReturns_of_step rfl (hload rest spins)
  | addLoadTail item' =>
      cases ht
      apply hload
  | addLoadSeq item' pos =>
      cases ht
      rcases lt_trichotomy (W.dif (m.buffer (pos % c)).seq pos) 0 with hneg | hzero | hpos
      · have hfull : step W c m ⟨todo, .addLoadSeq item pos, spins⟩ false
            = some { mem := m, loc := ⟨todo, .addFull item pos, spins⟩ } := by
          simp [step, Thread.goto, hneg, hneg.ne]
        apply addReturns_of_step hfull
        apply addReturns_of_step rfl (hload todo _)
      · apply addReturns_of_step _ (hcas pos)
        simp [step, Thread.goto, hzero]
      · have hbehind : step W c m ⟨todo, .addLoadSeq item pos, spins⟩ false
            = some { mem := m, loc := ⟨todo, .addRetry item pos, spins⟩ } := by
          simp [step, Thread.goto, hpos.not_gt, hpos.ne']
        apply addReturns_of_step hbehind
        apply addReturns_of_step rfl (hload todo _)
  | addCas item' pos =>
      cases ht
      apply hcas
  | addFull item' pos | addRetry item' pos =>
      cases ht
      apply addReturns_of_step rfl (hload todo _)
  | _ => cases ht

/-- With its slot filled a remove returns from wherever it is. -/
theorem removeReturns (hready : m.RemoveReady W c) (ht : t.seeks = some .remove) :
  RemoveReturns W c i m t
  := by
  obtain ⟨todo, pc, spins⟩ := t
  have hload : ∀ todo spins, RemoveReturns W c i m ⟨todo, .removeLoadHead, spins⟩ := by
    intro todo spins
    exact ⟨5, _, m.head, (m.buffer (m.head % c)).data, solo_removeLoadHead hready todo spins,
      by simp⟩
  have hcas : ∀ pos, RemoveReturns W c i m ⟨todo, .removeCas pos, spins⟩ := by
    intro pos
    rcases eq_or_ne m.head pos with rfl | hne
    · use 3, { mem := m.pop W c, loc := ⟨todo, .idle, spins⟩,
               events := [.removeWon m.head,
                 .removeReturned m.head (m.buffer (m.head % c)).data] }, m.head,
        (m.buffer (m.head % c)).data
      simp [solo, step, Thread.goto, Mem.pop]
    · apply removeReturns_of_step _ (hload todo spins)
      simp [step, Thread.goto, hne]
  cases pc with
  | idle =>
      obtain ⟨rest, rfl⟩ := List.head?_eq_some_iff.mp ht
      apply removeReturns_of_step rfl (hload rest spins)
  | removeLoadHead => apply hload
  | removeLoadSeq pos =>
      rcases lt_trichotomy (W.dif (m.buffer (pos % c)).seq (W.wrap (pos + 1))) 0
        with hneg | hzero | hpos
      · have hempty : step W c m ⟨todo, .removeLoadSeq pos, spins⟩ false
            = some { mem := m, loc := ⟨todo, .removeEmpty pos, spins⟩ } := by
          simp [step, Thread.goto, hneg, hneg.ne]
        apply removeReturns_of_step hempty
        apply removeReturns_of_step rfl (hload todo _)
      · apply removeReturns_of_step _ (hcas pos)
        simp [step, Thread.goto, hzero]
      · have hbehind : step W c m ⟨todo, .removeLoadSeq pos, spins⟩ false
            = some { mem := m, loc := ⟨todo, .removeRetry pos, spins⟩ } := by
          simp [step, Thread.goto, hpos.not_gt, hpos.ne']
        apply removeReturns_of_step hbehind
        apply removeReturns_of_step rfl (hload todo _)
  | removeCas pos => apply hcas
  | removeEmpty pos | removeRetry pos => apply removeReturns_of_step rfl (hload todo _)
  | _ => cases ht

/-- With its slot taken an add spins for ever. -/
theorem add_spins (hready : ¬ m.AddReady W c) {item : T} (ht : t.seeks = some (.add item))
    (hcas : ∀ pos, t.pc = .addCas item pos → m.tail ≠ pos) {k : ℕ}
    {o : Outcome (Mem T) (Thread T) (Event T)}
    (ho : solo (fun _ : ι => step W c) i (List.replicate k false) m t = some o) :
  o.events = []
  := by
  have key : o.mem = m ∧ [] ++ o.events = [] ∧ o.loc.seeks = some (.add item) ∧
      ∀ pos, o.loc.pc = .addCas item pos → m.tail ≠ pos := by
    apply solo_keeps (I := fun m' t h => m' = m ∧ h = [] ∧ t.seeks = some (.add item) ∧
      ∀ pos, t.pc = .addCas item pos → m.tail ≠ pos) _ _ ho
    · rintro _ t _ spurious o ⟨rfl, rfl, ht, hcas⟩ ho
      cases step_moves ho with
      | beginAdd hpc htodo =>
          rw [Thread.seeks, hpc, htodo] at ht
          cases ht
          refine ⟨rfl, rfl, rfl, ?_⟩
          rintro pos ⟨⟩
      | addReady hpc hdif =>
          rw [Thread.seeks, hpc] at ht
          cases ht
          refine ⟨rfl, rfl, rfl, ?_⟩
          rintro pos ⟨⟩ rfl
          apply hready hdif
      | addWins hpc htail =>
          rw [Thread.seeks, hpc] at ht
          cases ht
          cases hcas _ hpc htail
      | addLoadTail hpc | addFull hpc | addBehind hpc | addLoses hpc | addBackoff hpc
      | addRetry hpc =>
          rw [Thread.seeks, hpc] at ht
          cases ht
          refine ⟨rfl, rfl, rfl, ?_⟩
          rintro pos ⟨⟩
      | beginRemove hpc htodo =>
          rw [Thread.seeks, hpc, htodo] at ht
          cases ht
      | _ hpc =>
          rw [Thread.seeks, hpc] at ht
          cases ht
    · exact ⟨rfl, rfl, ht, hcas⟩
  exact key.2.1

/-- With its slot not filled a remove spins for ever. -/
theorem remove_spins (hready : ¬ m.RemoveReady W c) (ht : t.seeks = some .remove)
    (hcas : ∀ pos, t.pc = .removeCas pos → m.head ≠ pos) {k : ℕ}
    {o : Outcome (Mem T) (Thread T) (Event T)}
    (ho : solo (fun _ : ι => step W c) i (List.replicate k false) m t = some o) :
  o.events = []
  := by
  have key : o.mem = m ∧ [] ++ o.events = [] ∧ o.loc.seeks = some .remove ∧
      ∀ pos, o.loc.pc = .removeCas pos → m.head ≠ pos := by
    apply solo_keeps (I := fun m' t h => m' = m ∧ h = [] ∧ t.seeks = some .remove ∧
      ∀ pos, t.pc = .removeCas pos → m.head ≠ pos) _ _ ho
    · rintro _ t _ spurious o ⟨rfl, rfl, ht, hcas⟩ ho
      cases step_moves ho with
      | removeReady hpc hdif =>
          refine ⟨rfl, rfl, rfl, ?_⟩
          rintro pos ⟨⟩ rfl
          apply hready hdif
      | removeWins hpc hhead => cases hcas _ hpc hhead
      | beginRemove | removeLoadHead | removeEmpty | removeBehind | removeLoses | removeBackoff
      | removeRetry =>
          refine ⟨rfl, rfl, rfl, ?_⟩
          rintro pos ⟨⟩
      | beginAdd hpc htodo =>
          rw [Thread.seeks, hpc, htodo] at ht
          cases ht
      | _ hpc =>
          rw [Thread.seeks, hpc] at ht
          cases ht
    · exact ⟨rfl, rfl, ht, hcas⟩
  exact key.2.1

/-- An add that has won its ticket returns. -/
theorem addReturns_of_adding {pos : ℕ} (ht : t.pc.adding = some pos) :
  AddReturns W c i m t
  := by
  obtain ⟨todo, pc, spins⟩ := t
  cases pc with
  | addWrite item pos =>
      refine ⟨2, _, pos, rfl, ?_⟩
      simp
  | addPublish item pos =>
      refine ⟨1, _, pos, rfl, ?_⟩
      simp
  | _ => cases ht

/-- A remove that has won its ticket returns. -/
theorem removeReturns_of_removing {pos : ℕ} (ht : t.pc.removing = some pos) :
  RemoveReturns W c i m t
  := by
  obtain ⟨todo, pc, spins⟩ := t
  cases pc with
  | removeRead pos =>
      refine ⟨2, _, pos, (m.buffer (pos % c)).data, rfl, ?_⟩
      exact List.mem_singleton_self _
  | removeRelease pos out =>
      refine ⟨1, _, pos, out, rfl, ?_⟩
      exact List.mem_singleton_self _
  | _ => cases ht

end Solo

/-! ### When the slots are ready -/

section Ready

variable {c : ℕ} {m : Mem T} {l : ι → Thread T} {won : ℕ → T → Prop} {h : List (ι × Event T)}

/-- The slot of the next add is free once the remove of the last lap has released it. -/
theorem addReady_iff (hc : 2 ≤ c) (hR : Ring c m l won) (ht : Told c m h)
    (hrange : m.tail + c < 2 ^ 63) :
  m.AddReady .bits64 c ↔ m.tail < c ∨ Released h (m.tail - c)
  := by
  have hle := hR.seq_le (m.tail % c) (Nat.mod_lt _ (by omega))
  have hlower := ht.lower (m.tail % c) (Nat.mod_lt _ (by omega))
  have hahead := fun hlt => hR.lt_tail_of_lt_seq hc le_rfl hlt
  have hbehind : (m.buffer (m.tail % c)).seq < m.tail → _ := ht.unreleased
  rw [Mem.AddReady, SizeT.bits64_dif (by omega) (by omega)]
  simp only [SizeT.unbounded]
  constructor
  · intro hdif
    rcases Nat.lt_or_ge m.tail c with hlt | hge
    · left
      apply hlt
    · right
      rw [ht.released, ← Nat.mod_eq_sub_mod hge]
      omega
  · intro hfree
    have hge : ¬ (m.buffer (m.tail % c)).seq < m.tail := by
      intro hlt
      obtain ⟨hlap, hunreleased⟩ := hbehind hlt
      rcases hfree with hfirst | hreleased
      · omega
      · apply hunreleased hreleased
    have hnot : ¬ m.tail < (m.buffer (m.tail % c)).seq := fun hlt => lt_irrefl _ (hahead hlt)
    omega

/-- The slot of the next remove is filled once its add has published it. -/
theorem removeReady_iff (hc : 2 ≤ c) (hR : Ring c m l won) (ht : Told c m h)
    (hrange : m.tail + c < 2 ^ 63) :
  m.RemoveReady .bits64 c ↔ Published h m.head
  := by
  have hle := hR.seq_le (m.head % c) (Nat.mod_lt _ (by omega))
  have hhead := hR.head_le
  have hahead := fun hlt => hR.lt_head_of_lt_seq hc le_rfl hlt
  rw [Mem.RemoveReady, SizeT.bits64_wrap (by omega), SizeT.bits64_dif (by omega) (by omega),
    ht.published]
  simp only [SizeT.unbounded]
  have hnot : ¬ m.head + 1 < (m.buffer (m.head % c)).seq := fun hlt => lt_irrefl _ (hahead hlt)
  omega

end Ready

section Returns

variable {c : ℕ} {h : List (ι × Event T)} {s : Global ι (Mem T) (Thread T)}
  [Inhabited T] [DecidableEq ι]

/-- An add that has won no ticket returns, running alone, if and only if its slot has been
released. -/
theorem addReturns_iff (hc : 2 ≤ c) (hs : (queue ι .bits64 c).Reachable (TicketsInRange c) h s)
    (hrange : s.mem.tail + c < 2 ^ 63) {i : ι} {item : T}
    (hi : (s.loc i).seeks = some (.add item)) :
  AddReturns .bits64 c i s.mem (s.loc i) ↔ s.mem.tail < c ∨ Released h (s.mem.tail - c)
  := by
  obtain ⟨hR, -, ht, -⟩ := reachable_told hc hs
  rw [← addReady_iff hc hR ht hrange]
  constructor
  · rintro ⟨k, o, pos, hsolo, hmem⟩
    by_contra hready
    have hcas : ∀ pos, (s.loc i).pc = .addCas item pos → s.mem.tail ≠ pos := by
      rintro pos hpc rfl
      have hok := hR.thread i
      rw [hpc] at hok
      apply hready
      rw [Mem.AddReady, hok.2 rfl, SizeT.bits64_dif (by omega) (by omega)]
      simp [SizeT.unbounded]
    rw [add_spins hready hi hcas hsolo] at hmem
    cases hmem
  · intro hready
    apply addReturns hready hi

/-- A remove that has won no ticket returns, running alone, if and only if its slot has been
published. -/
theorem removeReturns_iff (hc : 2 ≤ c)
    (hs : (queue ι .bits64 c).Reachable (TicketsInRange c) h s)
    (hrange : s.mem.tail + c < 2 ^ 63) {i : ι} (hi : (s.loc i).seeks = some .remove) :
  RemoveReturns .bits64 c i s.mem (s.loc i) ↔ Published h s.mem.head
  := by
  obtain ⟨hR, -, ht, -⟩ := reachable_told hc hs
  rw [← removeReady_iff hc hR ht hrange]
  constructor
  · rintro ⟨k, o, pos, out, hsolo, hmem⟩
    by_contra hready
    have hle := hR.head_le
    have hcas : ∀ pos, (s.loc i).pc = .removeCas pos → s.mem.head ≠ pos := by
      rintro pos hpc rfl
      have hok := hR.thread i
      rw [hpc] at hok
      apply hready
      rw [Mem.RemoveReady, hok.2 rfl, SizeT.bits64_wrap (by omega),
        SizeT.bits64_dif (by omega) (by omega)]
      simp [SizeT.unbounded]
    rw [remove_spins hready hi hcas hsolo] at hmem
    cases hmem
  · intro hready
    apply removeReturns hready hi

omit [Inhabited T] [DecidableEq ι] in
/-- Between the calls every ticket dealt out to a remove has been released. -/
theorem released_iff {m : Mem T} {l : ι → Thread T} (hL : Ledger m l h)
    (hidle : ∀ j, (l j).pc = .idle) (k : ℕ) :
  Released h k ↔ k < m.head
  := by
  constructor
  · rintro ⟨i, x, hmem⟩
    have hwon := mem_removeWins.mpr ⟨i, hL.returned i k x hmem⟩
    rw [hL.removeTickets, List.mem_range] at hwon
    exact hwon
  · intro hk
    rcases hL.accounted k hk with hmem | ⟨i, hi⟩
    · obtain ⟨⟨k', x⟩, hret, rfl⟩ := List.mem_map.mp hmem
      obtain ⟨i, hi⟩ := mem_returns.mp hret
      exact ⟨i, x, hi⟩
    · rw [hidle i] at hi
      cases hi

omit [Inhabited T] [DecidableEq ι] in
/-- Between the calls the next ticket of a remove has been published if it has been dealt
out. -/
theorem published_head_iff {m : Mem T} {l : ι → Thread T} (hc : 2 ≤ c) (hR : Ring c m l (Won h))
    (ht : Told c m h) (hP : Promised m l h) (hidle : ∀ j, (l j).pc = .idle) :
  Published h m.head ↔ m.head < m.tail
  := by
  constructor
  · intro hpublished
    apply hR.lt_tail_of_lt_seq hc hR.head_le
    apply (ht.published m.head).mp hpublished
  · intro hlt
    rcases hP m.head hlt with hpublished | ⟨i, hi⟩
    · exact hpublished
    · rw [hidle i] at hi
      cases hi

/-- The test on `dif` is exact: its branches report the truth, and between the calls an add
alone returns if and only if the queue is not full, a remove alone if and only if it is not
empty, and then at the first attempt. -/
theorem dif_exact (hc : 2 ≤ c) (hs : (queue ι .bits64 c).Reachable (TicketsInRange c) h s)
    (hrange : s.mem.tail + c < 2 ^ 63) :
  (∀ i spurious o, step .bits64 c s.mem (s.loc i) spurious = some o →
      Reports c s.mem h o.loc.pc) ∧
    ((∀ j, (s.loc j).pc = .idle) → ∀ i,
      (∀ item, (s.loc i).todo.head? = some (.add item) →
        (AddReturns .bits64 c i s.mem (s.loc i) ↔ s.mem.tail - s.mem.head < c) ∧
        (s.mem.tail - s.mem.head < c → ∃ o, solo (fun _ : ι => step .bits64 c) i
          (List.replicate 6 false) s.mem (s.loc i) = some o ∧ o.loc.pc = .idle ∧
          o.events = [.addWon s.mem.tail item, .addReturned s.mem.tail])) ∧
      ((s.loc i).todo.head? = some .remove →
        (RemoveReturns .bits64 c i s.mem (s.loc i) ↔ s.mem.head < s.mem.tail) ∧
        (s.mem.head < s.mem.tail → ∃ o out, solo (fun _ : ι => step .bits64 c) i
          (List.replicate 6 false) s.mem (s.loc i) = some o ∧ o.loc.pc = .idle ∧
          o.events = [.removeWon s.mem.head, .removeReturned s.mem.head out])))
  := by
  constructor
  · intro i spurious o ho
    apply dif_reports hc hs hrange ho
  · intro hidle i
    obtain ⟨hR, hL, ht, hP⟩ := reachable_told hc hs
    have hle := hR.head_le
    have hseeks : (s.loc i).seeks = (s.loc i).todo.head? := by
      rw [Thread.seeks, hidle i]
    have hroom : (s.mem.tail < c ∨ Released h (s.mem.tail - c)) ↔ s.mem.tail - s.mem.head < c := by
      rw [released_iff hL hidle]
      omega
    have hitem := published_head_iff hc hR ht hP hidle
    have hi := hidle i
    constructor
    · intro item hcall
      rw [addReturns_iff hc hs hrange (hseeks.trans hcall), hroom]
      use Iff.rfl
      rw [← hroom, ← addReady_iff hc hR ht hrange]
      intro hready
      obtain ⟨todo, htodo⟩ := List.head?_eq_some_iff.mp hcall
      generalize s.loc i = t at *
      obtain ⟨_, _, spins⟩ := t
      obtain rfl := hi
      obtain rfl := htodo
      exact ⟨_, solo_add hready item todo spins, rfl, rfl⟩
    · intro hcall
      rw [removeReturns_iff hc hs hrange (hseeks.trans hcall), hitem]
      use Iff.rfl
      rw [← hitem, ← removeReady_iff hc hR ht hrange]
      intro hready
      obtain ⟨todo, htodo⟩ := List.head?_eq_some_iff.mp hcall
      generalize s.loc i = t at *
      obtain ⟨_, _, spins⟩ := t
      obtain rfl := hi
      obtain rfl := htodo
      exact ⟨_, _, solo_remove hready todo spins, rfl, rfl⟩

end Returns

/-- Thread `0` has added `7`, and thread `1` is to remove. -/
theorem reach_seven :
  ∃ (h : List (Fin 2 × Event ℕ)) (s : Global (Fin 2) (Mem ℕ) (Thread ℕ)),
    (queue (Fin 2) .bits64 2).Reachable (TicketsInRange 2) h s ∧ (∀ j, (s.loc j).pc = .idle) ∧
      (s.loc 1).todo = [.remove] ∧ s.mem.head = 0 ∧ s.mem.tail = 1
  := by
  have hinit : (queue (Fin 2) .bits64 2).Initial
      ⟨Mem.new 2, fun i => ⟨if i = 0 then [.add 7] else [.remove], .idle, 0⟩⟩ :=
    ⟨rfl, fun _ => ⟨rfl, rfl⟩⟩
  have hs := Machine.exec_reachable (G := TicketsInRange 2) (List.replicate 6 (0, false)) hinit rfl
  refine ⟨_, _, hs, ?_, rfl, rfl, rfl⟩
  intro j
  match j with
  | 0 => rfl
  | 1 => rfl

/-- Thread `1` alone removes it. -/
theorem dif_exact_seven :
  ∃ (h : List (Fin 2 × Event ℕ)) (s : Global (Fin 2) (Mem ℕ) (Thread ℕ)),
    (queue (Fin 2) .bits64 2).Reachable (TicketsInRange 2) h s ∧
      (s.loc 1).todo = [.remove] ∧ RemoveReturns .bits64 2 (1 : Fin 2) s.mem (s.loc 1)
  := by
  obtain ⟨h, s, hs, hidle, htodo, hhead, htail⟩ := reach_seven
  have hcall : (s.loc 1).todo.head? = some .remove := by
    rw [htodo]
    rfl
  obtain ⟨-, hlone⟩ := dif_exact le_rfl hs (by omega)
  use h, s, hs, htodo
  apply ((hlone hidle 1).2 hcall).1.mpr
  omega

/-! ### Stopped threads -/

/-- Whatever the other threads are doing, if an item has been added that no remove has claimed,
a remove of the thread `i` returns running alone; and if the completed removes fall short of
the tickets of the adds by less than the capacity, an add does. -/
def Unstopped [DecidableEq ι] (c : ℕ) (i : ι) (h : List (ι × Event T))
    (s : Global ι (Mem T) (Thread T)) : Prop :=
  ((s.loc i).seeks = some .remove ∨ (∃ pos, (s.loc i).pc.removing = some pos) →
      (∃ k, Published h k ∧ k ∉ removeWins h) →
      RemoveReturns .bits64 c i s.mem (s.loc i)) ∧
    ((∃ item, (s.loc i).seeks = some (.add item)) ∨ (∃ pos, (s.loc i).pc.adding = some pos) →
      s.mem.tail < (returns h).length + c →
      AddReturns .bits64 c i s.mem (s.loc i))

/-- A call of the thread `i` that has won no ticket does not meet the slot of a thread that has
stopped: the add of the ticket `head` has stored its `seq`, and the remove of the ticket
`tail - c` has. -/
def NotHeldUp (c : ℕ) (i : ι) (h : List (ι × Event T)) (s : Global ι (Mem T) (Thread T)) : Prop :=
  ((s.loc i).seeks = some .remove → (∃ k, Published h k ∧ k ∉ removeWins h) →
      Published h s.mem.head) ∧
    ∀ item, (s.loc i).seeks = some (.add item) → s.mem.tail < (returns h).length + c →
      s.mem.tail < c ∨ Released h (s.mem.tail - c)

/-- A thread cannot be stopped by others if and only if it does not meet the slot of a stopped
thread. -/
theorem unstopped_iff [Inhabited T] [DecidableEq ι] {c : ℕ} (hc : 2 ≤ c) {h : List (ι × Event T)}
    {s : Global ι (Mem T) (Thread T)}
    (hs : (queue ι .bits64 c).Reachable (TicketsInRange c) h s)
    (hrange : s.mem.tail + c < 2 ^ 63) (i : ι) :
  Unstopped c i h s ↔ NotHeldUp c i h s
  := by
  constructor
  · rintro ⟨hremove, hadd⟩
    constructor
    · intro hi hitem
      apply (removeReturns_iff hc hs hrange hi).mp (hremove (.inl hi) hitem)
    · intro item hi hroom
      apply (addReturns_iff hc hs hrange hi).mp (hadd (.inl ⟨item, hi⟩) hroom)
  · rintro ⟨hremove, hadd⟩
    constructor
    · rintro (hi | ⟨pos, hi⟩) hitem
      · apply (removeReturns_iff hc hs hrange hi).mpr (hremove hi hitem)
      · apply removeReturns_of_removing hi
    · rintro (⟨item, hi⟩ | ⟨pos, hi⟩) hroom
      · apply (addReturns_iff hc hs hrange hi).mpr (hadd item hi hroom)
      · apply addReturns_of_adding hi

/-- Thread `1` is not stopped in its remove. -/
theorem unstopped_seven :
  ∃ (h : List (Fin 2 × Event ℕ)) (s : Global (Fin 2) (Mem ℕ) (Thread ℕ)),
    (queue (Fin 2) .bits64 2).Reachable (TicketsInRange 2) h s ∧
      (s.loc 1).todo = [.remove] ∧ Unstopped 2 1 h s
  := by
  obtain ⟨h, s, hs, hidle, htodo, hhead, htail⟩ := reach_seven
  obtain ⟨hR, hL, ht, hP⟩ := reachable_told le_rfl hs
  use h, s, hs, htodo
  apply (unstopped_iff le_rfl hs (by omega) 1).mpr
  constructor
  · intro _ _
    apply (published_head_iff le_rfl hR ht hP hidle).mpr
    omega
  · intro item _ _
    left
    omega

/-- Thread `0` stops in its add of `7`, and thread `1` has added `8`. -/
theorem reach_stopped :
  ∃ s : Global (Fin 3) (Mem ℕ) (Thread ℕ),
    (queue (Fin 3) .bits64 2).Reachable (TicketsInRange 2)
      [(0, .addWon 0 7), (1, .addWon 1 8), (1, .addReturned 1)] s ∧
      (s.loc 2).seeks = some .remove ∧ s.mem.head = 0 ∧ s.mem.tail = 2
  := by
  have hinit : (queue (Fin 3) .bits64 2).Initial ⟨Mem.new 2, fun i =>
      ⟨if i = 0 then [.add 7] else if i = 1 then [.add 8] else [.remove], .idle, 0⟩⟩ :=
    ⟨rfl, fun _ => ⟨rfl, rfl⟩⟩
  have hs := Machine.exec_reachable (G := TicketsInRange 2)
    (List.replicate 4 (0, false) ++ List.replicate 6 (1, false)) hinit rfl
  exact ⟨_, hs, rfl, rfl, rfl⟩

/-- Thread `2` finds the queue empty for ever, although `8` is in it. -/
theorem stopped_by_add :
  ∃ (h : List (Fin 3 × Event ℕ)) (s : Global (Fin 3) (Mem ℕ) (Thread ℕ)),
    (queue (Fin 3) .bits64 2).Reachable (TicketsInRange 2) h s ∧ s.mem.tail + 2 < 2 ^ 63 ∧
      (s.loc 2).seeks = some .remove ∧ Published h 1 ∧ 1 ∉ removeWins h ∧ ¬ Unstopped 2 2 h s
  := by
  obtain ⟨s, hs, hi, hhead, htail⟩ := reach_stopped
  have hitem :
      Published [((0 : Fin 3), Event.addWon 0 7), (1, .addWon 1 8), (1, .addReturned 1)] 1 ∧
        1 ∉ removeWins [((0 : Fin 3), Event.addWon 0 7), (1, .addWon 1 8),
          (1, .addReturned 1)] := by
    simp [Published, removeWins]
  have hrange : s.mem.tail + 2 < 2 ^ 63 := by omega
  refine ⟨_, s, hs, hrange, hi, hitem.1, hitem.2, ?_⟩
  rintro ⟨hremove, -⟩
  have hpublished := (removeReturns_iff le_rfl hs hrange hi).mp (hremove (.inl hi) ⟨1, hitem⟩)
  rw [hhead] at hpublished
  simp [Published] at hpublished

end NonBlockingQueue

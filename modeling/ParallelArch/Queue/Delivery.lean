import ParallelArch.Concurrency.CallHistory
import ParallelArch.Queue.Tickets

/-!
# The non-blocking queue over 64 bits

As long as the tickets dealt out so far plus the capacity stay below `2^63`, no sum of the
code leaves the range of `size_t` and no difference leaves that of `intptr_t`, so a step
over 64 bits is a step over unbounded numbers (`step_bits64`).  Hence the ring and the
ledger describe the runs of the queue as it is compiled, and every remove returns the item
passed to the add that won the same ticket (`delivers_by_ticket`).
-/

namespace NonBlockingQueue

variable {T ι : Type*}

/-- The tickets dealt out so far plus the capacity stay below `2^63`. -/
def TicketsInRange (c : ℕ) (s : Global ι (Mem T) (Thread T)) (_ : ι × Bool) : Prop :=
  s.mem.tail + c < 2 ^ 63

instance (c : ℕ) (s : Global ι (Mem T) (Thread T)) (a : ι × Bool) :
    Decidable (TicketsInRange c s a) :=
  inferInstanceAs (Decidable (_ < _))

/-- Within the range of the tickets a step over 64 bits is a step over unbounded
numbers. -/
theorem step_bits64 {c : ℕ} (hc : 2 ≤ c) {m : Mem T} {l : ι → Thread T} {won : ℕ → T → Prop}
    (hR : Ring c m l won) (hrange : m.tail + c < 2 ^ 63) (i : ι) (spurious : Bool) :
  step .bits64 c m (l i) spurious = step .unbounded c m (l i) spurious
  := by
  have hi := hR.thread i
  have hle := hR.head_le
  have hslot : ∀ pos, (m.buffer (pos % c)).seq < 2 ^ 63 := by
    intro pos
    have := hR.seq_le (pos % c) (Nat.mod_lt _ (by omega))
    omega
  cases hpc : (l i).pc with
  | addLoadSeq item pos =>
      rw [hpc] at hi
      simp only [ThreadOk] at hi
      simp only [step, hpc, SizeT.bits64_dif (hslot pos) (show pos ≤ 2 ^ 63 by omega)]
  | addCas item pos =>
      rw [hpc] at hi
      have hpos := hi.1
      simp only [step, hpc, SizeT.bits64_wrap (show pos + 1 < 2 ^ 64 by omega), SizeT.unbounded]
  | addPublish item pos =>
      rw [hpc] at hi
      have hpos := hi.1.lt_tail
      simp only [step, hpc, SizeT.bits64_wrap (show pos + 1 < 2 ^ 64 by omega), SizeT.unbounded]
  | removeLoadSeq pos =>
      rw [hpc] at hi
      simp only [ThreadOk] at hi
      simp only [step, hpc, SizeT.bits64_wrap (show pos + 1 < 2 ^ 64 by omega), SizeT.unbounded]
      simp only [SizeT.unbounded,
        SizeT.bits64_dif (hslot pos) (show pos + 1 ≤ 2 ^ 63 by omega)]
      rfl
  | removeCas pos =>
      rw [hpc] at hi
      have hpos := hi.1
      simp only [step, hpc, SizeT.bits64_wrap (show pos + 1 < 2 ^ 64 by omega), SizeT.unbounded]
  | removeRelease pos out =>
      rw [hpc] at hi
      have hpos := hi.1.lt_head
      simp only [step, hpc, SizeT.bits64_wrap (show pos + c < 2 ^ 64 by omega), SizeT.unbounded]
  | _ => simp only [step, hpc]

variable [Inhabited T]

theorem Ring.new {c : ℕ} {l : ι → Thread T} {won : ℕ → T → Prop} (hl : ∀ i, (l i).pc = .idle) :
  Ring c (Mem.new c) l won
  := by
  constructor
  · exact le_refl 0
  · exact Nat.zero_le _
  · intro k hk hk'
    cases hk'
  · intro k _ hk
    left
    rw [show (Mem.new c : Mem T).head = 0 from rfl, zero_add] at hk
    apply Nat.mod_eq_of_lt hk
  · intro r hr
    show r ≤ 0 + c
    omega
  · intro i
    rw [hl i]
    trivial
  · apply Exclusive.of_none
    intro i
    simp [hl i, Pc.adding]
  · apply Exclusive.of_none
    intro i
    simp [hl i, Pc.removing]

theorem Ledger.new {c : ℕ} {l : ι → Thread T} (hl : ∀ i, (l i).pc = .idle) :
  Ledger (Mem.new c) l []
  := by
  constructor
  · rfl
  · rfl
  · exact List.nodup_nil
  · intro k x hk
    cases hk
  · intro i k hk
    rw [hl i] at hk
    cases hk
  · intro i k x hk
    cases hk
  · intro k hk
    cases hk

variable [DecidableEq ι]

/-- The ring and the ledger describe every reachable state, over unbounded numbers and, as
long as the tickets are in range, over 64 bits. -/
theorem reachable_ring {c : ℕ} (hc : 2 ≤ c) {W : SizeT}
    {G : Global ι (Mem T) (Thread T) → ι × Bool → Prop}
    (hW : ∀ m l won i spurious, Ring c m l won → G ⟨m, l⟩ (i, spurious) →
      step W c m (l i) spurious = step .unbounded c m (l i) spurious)
    {h : List (ι × Event T)} {s : Global ι (Mem T) (Thread T)}
    (hs : (queue ι W c).Reachable G h s) :
  Ring c s.mem s.loc (Won h) ∧ Ledger s.mem s.loc h
  := by
  apply threads_invariant (I := fun m l h => Ring c m l (Won h) ∧ Ledger m l h) _ _ hs
  · rintro m l ⟨rfl, hl⟩
    constructor
    · apply Ring.new (fun i => (hl i).1)
    · apply Ledger.new (fun i => (hl i).1)
  · rintro m l h i spurious o ⟨hR, hL⟩ hG ho
    rw [hW m l (Won h) i spurious hR hG] at ho
    apply step_keeps hc hR hL ho

theorem reachable_bits64 {c : ℕ} (hc : 2 ≤ c) {h : List (ι × Event T)}
    {s : Global ι (Mem T) (Thread T)}
    (hs : (queue ι .bits64 c).Reachable (TicketsInRange c) h s) :
  Ring c s.mem s.loc (Won h) ∧ Ledger s.mem s.loc h
  := by
  apply reachable_ring hc _ hs
  intro m l won i spurious hR hG
  apply step_bits64 hc hR hG

/-! ### The calls of a thread -/

/-- What a call shows: an add wins a ticket with its argument, a remove wins one and returns what
it found there. -/
inductive Serves : QueueCall T → List (Event T) → Prop where
  | add (pos : ℕ) (item : T) : Serves (.add item) [.addWon pos item, .addReturned pos]
  | remove (pos : ℕ) (out : T) : Serves .remove [.removeWon pos, .removeReturned pos out]

/-- The call a thread is in, if any, and what it has shown of it. -/
def Pc.Now : Pc T → List (QueueCall T) → List (Event T) → Prop
  | .idle, call, e => call = [] ∧ e = []
  | .addLoadTail item, call, e | .addLoadSeq item _, call, e | .addCas item _, call, e
  | .addFull item _, call, e | .addRetry item _, call, e => call = [.add item] ∧ e = []
  | .addWrite item pos, call, e => call = [.add item] ∧ e = [.addWon pos item]
  | .addPublish item pos, call, e => call = [.add item] ∧ e = [.addWon pos item]
  | .removeLoadHead, call, e | .removeLoadSeq _, call, e | .removeCas _, call, e
  | .removeEmpty _, call, e | .removeRetry _, call, e => call = [.remove] ∧ e = []
  | .removeRead pos, call, e | .removeRelease pos _, call, e =>
      call = [.remove] ∧ e = [.removeWon pos]

omit [DecidableEq ι] in
/-- What a thread has shown of a call, the call can still complete. -/
theorem Pc.Now.cut {pc : Pc T} {call : List (QueueCall T)} {e : List (Event T)}
    (h : pc.Now call e) :
  call = [] ∧ e = [] ∨ ∃ c e', call = [c] ∧ Serves c (e ++ e')
  := by
  cases pc with
  | idle =>
      left
      apply h
  | addLoadTail item | addLoadSeq item pos | addCas item pos | addFull item pos
  | addRetry item pos =>
      right
      obtain ⟨rfl, rfl⟩ := h
      exact ⟨_, _, rfl, .add 0 item⟩
  | addWrite item pos | addPublish item pos =>
      right
      obtain ⟨rfl, rfl⟩ := h
      exact ⟨_, _, rfl, .add pos item⟩
  | removeRead pos | removeRelease pos out =>
      right
      obtain ⟨rfl, rfl⟩ := h
      exact ⟨_, _, rfl, .remove pos default⟩
  | _ =>
      right
      obtain ⟨rfl, rfl⟩ := h
      exact ⟨_, _, rfl, .remove 0 default⟩

omit [Inhabited T] [DecidableEq ι] in
/-- Every step of a thread goes on with its call, begins one or ends one. -/
theorem step_follows {W : SizeT} {c : ℕ} {m : Mem T} {t : Thread T} {calls : List (QueueCall T)}
    {es : List (Event T)} {spurious : Bool} {o : Outcome (Mem T) (Thread T) (Event T)}
    (hf : Follows Serves Thread.todo (fun t => t.pc.Now) calls es t)
    (ho : step W c m t spurious = some o) :
  Follows Serves Thread.todo (fun t => t.pc.Now) calls (es ++ o.events) o.loc
  := by
  cases step_moves ho with
  | @beginAdd item todo hpc htodo =>
      apply hf.go
      intro call e hnow
      rw [hpc] at hnow
      obtain ⟨rfl, rfl⟩ := hnow
      exact ⟨[.add item], ⟨rfl, rfl⟩, htodo⟩
  | beginRemove hpc htodo =>
      apply hf.go
      intro call e hnow
      rw [hpc] at hnow
      obtain ⟨rfl, rfl⟩ := hnow
      exact ⟨[.remove], ⟨rfl, rfl⟩, htodo⟩
  | @addPublish item pos hpc =>
      apply hf.done
      · intro call e hnow
        rw [hpc] at hnow
        obtain ⟨rfl, rfl⟩ := hnow
        exact ⟨.add item, rfl, .add pos item⟩
      · rfl
      · exact ⟨rfl, rfl⟩
  | @removeRelease pos out hpc =>
      apply hf.done
      · intro call e hnow
        rw [hpc] at hnow
        obtain ⟨rfl, rfl⟩ := hnow
        exact ⟨.remove, rfl, .remove pos out⟩
      · rfl
      · exact ⟨rfl, rfl⟩
  | addWins hpc | removeWins hpc =>
      apply hf.go
      intro call e hnow
      rw [hpc] at hnow
      obtain ⟨rfl, rfl⟩ := hnow
      exact ⟨_, ⟨rfl, rfl⟩, rfl⟩
  | addLoadTail hpc | addReady hpc | addFull hpc | addBehind hpc | addLoses hpc | addBackoff hpc
  | addRetry hpc | addWrite hpc | removeLoadHead hpc | removeReady hpc | removeEmpty hpc
  | removeBehind hpc | removeLoses hpc | removeBackoff hpc | removeRetry hpc | removeRead hpc =>
      apply hf.go
      intro call e hnow
      rw [hpc] at hnow
      rw [List.append_nil]
      exact ⟨call, hnow, rfl⟩

/-- In a run from the state `s₀` the events of a thread are those of the calls it has begun; when
it is outside a call, they are all there. -/
theorem run_showing {W : SizeT} {c : ℕ} {s₀ s : Global ι (Mem T) (Thread T)}
    {G : Global ι (Mem T) (Thread T) → ι × Bool → Prop} {h : List (ι × Event T)}
    (hinit : (queue ι W c).Initial s₀) (hrun : (queue ι W c).Run G s₀ h s) (i : ι) :
  ∃ calls, (s₀.loc i).todo = calls ++ (s.loc i).todo ∧ Showing Serves calls (ofThread i h) ∧
    ((s.loc i).pc = .idle → Shown Serves calls (ofThread i h))
  := by
  have hf : Follows Serves Thread.todo (fun t => t.pc.Now) (s₀.loc i).todo (ofThread i h)
      (s.loc i) := by
    apply run_own (I := fun i es t => Follows Serves Thread.todo (fun t => t.pc.Now)
      (s₀.loc i).todo es t) _ _ hrun
    · intro i
      refine ⟨[], [], [], [], .nil, ?_, rfl, rfl⟩
      show (s₀.loc i).pc.Now [] []
      rw [(hinit.2 i).1]
      exact ⟨rfl, rfl⟩
    · intro i m t es spurious o hf ho
      apply step_follows hf ho
  apply hf.showing
  · intro call e hidle hnow
    rw [hidle] at hnow
    apply hnow
  · intro call e hnow
    apply Pc.Now.cut hnow

/-! ### Delivery -/

/-- The history of a queue that delivers by ticket: the adds and the removes win the
tickets `0, 1, 2, …` in this order; a remove returns once, with the ticket it won, and what
it returns is the item of the add that won that ticket. -/
structure DeliversByTicket (h : List (ι × Event T)) : Prop where
  addTickets : (addWins h).map Prod.fst = List.range (addWins h).length
  removeTickets : removeWins h = List.range (removeWins h).length
  own : ∀ i k x, (i, .removeReturned k x) ∈ h → (i, .removeWon k) ∈ h
  once : ((returns h).map Prod.fst).Nodup
  delivered : ∀ i k x, (i, .removeReturned k x) ∈ h → ∃ j, (j, .addWon k x) ∈ h

/-- The remove that takes `head` from `k` to `k + 1` returns the item of the add that took
`tail` from `k` to `k + 1`, and every ticket a remove has taken was returned by it or is
still in its hands.  The item of an add is its argument: every thread shows the calls it has
begun, and shows them whole when it is outside a call. -/
theorem delivers_by_ticket {c : ℕ} (hc : 2 ≤ c) {s₀ s : Global ι (Mem T) (Thread T)}
    {h : List (ι × Event T)} (hinit : (queue ι .bits64 c).Initial s₀)
    (hrun : (queue ι .bits64 c).Run (TicketsInRange c) s₀ h s) :
  DeliversByTicket h ∧
    (∀ k ∈ removeWins h,
      (∃ i x, (i, .removeReturned k x) ∈ h) ∨ ∃ i, (s.loc i).pc.removing = some k) ∧
    ∀ i, ∃ calls, (s₀.loc i).todo = calls ++ (s.loc i).todo ∧
      Showing Serves calls (ofThread i h) ∧
      ((s.loc i).pc = .idle → Shown Serves calls (ofThread i h))
  := by
  obtain ⟨-, hL⟩ := reachable_bits64 hc ⟨s₀, hinit, hrun⟩
  refine ⟨?_, ?_, run_showing hinit hrun⟩
  · constructor
    · have hlen := congrArg List.length hL.addTickets
      rw [List.length_map, List.length_range] at hlen
      rw [hlen]
      apply hL.addTickets
    · have hlen := congrArg List.length hL.removeTickets
      rw [List.length_range] at hlen
      rw [hlen]
      apply hL.removeTickets
    · exact hL.returned
    · exact hL.once
    · intro i k x hi
      apply mem_addWins.mp
      apply hL.delivered k x
      apply mem_returns.mpr ⟨i, hi⟩
  · intro k hk
    rw [hL.removeTickets, List.mem_range] at hk
    rcases hL.accounted k hk with hmem | hi
    · left
      obtain ⟨⟨k', x⟩, hret, rfl⟩ := List.mem_map.mp hmem
      obtain ⟨i, hi⟩ := mem_returns.mp hret
      use i, x, hi
    · right
      apply hi

/-- Thread `0` adds `7` while thread `1` finds the queue empty, and then removes it. -/
theorem delivers_by_ticket_seven :
  ∃ (h : List (Fin 2 × Event ℕ)) (s : Global (Fin 2) (Mem ℕ) (Thread ℕ)),
    (queue (Fin 2) .bits64 2).Run (TicketsInRange 2)
      ⟨Mem.new 2, fun i => ⟨if i = 0 then [.add 7] else [.remove], .idle, 0⟩⟩ h s ∧
      (1, .removeReturned 0 7) ∈ h ∧ DeliversByTicket h ∧
      Shown Serves [.add 7] (ofThread 0 h)
  := by
  have hinit : (queue (Fin 2) .bits64 2).Initial
      ⟨Mem.new 2, fun i => ⟨if i = 0 then [.add 7] else [.remove], .idle, 0⟩⟩ :=
    ⟨rfl, fun _ => ⟨rfl, rfl⟩⟩
  have hexec : (queue (Fin 2) .bits64 2).exec (TicketsInRange 2)
      ⟨Mem.new 2, fun i => ⟨if i = 0 then [.add 7] else [.remove], .idle, 0⟩⟩
      [(0, false), (0, false), (1, false), (1, false), (0, false), (0, false), (1, false),
        (0, false), (0, false), (1, false), (1, false), (1, false), (1, false), (1, false),
        (1, false)] = some (_, _) := rfl
  have hrun := Machine.exec_run hexec
  obtain ⟨hdelivers, -, hcalls⟩ := delivers_by_ticket le_rfl hinit hrun
  obtain ⟨calls, htodo, -, hshown⟩ := hcalls 0
  have hcall : [.add 7] = calls ++ [] := htodo
  rw [List.append_nil] at hcall
  subst hcall
  refine ⟨_, _, hrun, ?_, hdelivers, hshown rfl⟩
  decide

end NonBlockingQueue

import Mathlib.Tactic.FinCases
import ParallelArch.Concurrency.Atomic
import ParallelArch.Queue.BoundedFifo
import ParallelArch.Queue.Slots

/-!
# Both queues are linearizable

`boundedQueue` is the ideal queue of capacity `c`.  What the clients of `NonBlockingQueue` and
of `BlockingQueue` see, the invocations and the returns of their calls, is a history of the
ideal queue shared as an atomic object: a call on `NonBlockingQueue` takes effect when it wins
its ticket, a call on `BlockingQueue` when it changes `size`.
-/

/-- The ideal queue of capacity `c`: an add waits while it is full, a remove while it is
empty. -/
def boundedQueue (T : Type*) (c : ℕ) : SeqObject (List T) (QueueCall T) (Option T) where
  start := []
  apply
    | q, .add item => if q.length < c then some (q ++ [item], none) else none
    | [], .remove => none
    | out :: q, .remove => some (q, some out)

/-- A call leads the ideal queue to what it holds after the call. -/
theorem boundedQueue_after {T : Type*} {c : ℕ} (q : List T) (call : QueueCall T) :
  ((boundedQueue T c).apply q call).map Prod.fst = call.after c q
  := by
  cases call with
  | add item =>
      simp only [boundedQueue, QueueCall.after]
      split_ifs
      · rfl
      · rfl
  | remove =>
      cases q with
      | nil => rfl
      | cons out q => rfl

/-- An add to the items `A`, of which `r` have been removed. -/
theorem boundedQueue_add {T : Type*} {c r : ℕ} {A : List T} (item : T) (hr : r ≤ A.length)
    (hroom : A.length < r + c) :
  (boundedQueue T c).apply (A.drop r) (.add item) = some ((A ++ [item]).drop r, none)
  := by
  simp only [boundedQueue, List.length_drop]
  rw [if_pos (by omega), List.drop_append_of_le_length hr]

/-- A remove from the items `A`, of which `r` have been removed. -/
theorem boundedQueue_remove {T : Type*} {c r : ℕ} {A : List T} {out : T}
    (hout : A[r]? = some out) :
  (boundedQueue T c).apply (A.drop r) .remove = some (A.drop (r + 1), some out)
  := by
  obtain ⟨hr, rfl⟩ := List.getElem?_eq_some_iff.mp hout
  rw [List.drop_eq_getElem_cons hr]
  rfl

namespace NonBlockingQueue

variable {T ι : Type*}

/-- What the clients see of a step: a thread outside a call invokes its next one, and the
returns. -/
def clientView (s : Global ι (Mem T) (Thread T)) (a : ι × Bool) (e : List (ι × Event T)) :
    List (ι × ClientEvent (QueueCall T) (Option T)) :=
  match (s.loc a.1).pc, (s.loc a.1).todo with
  | .idle, call :: _ => [(a.1, .invoked call)]
  | _, _ => e.filterMap fun
      | (i, .addReturned _) => some (i, .returned none)
      | (i, .removeReturned _ out) => some (i, .returned (some out))
      | _ => none

/-- The items added, in the order the adds won their tickets. -/
def items (h : List (ι × Event T)) : List T := (addWins h).map Prod.snd

theorem items_append (h g : List (ι × Event T)) :
  items (h ++ g) = items h ++ items g
  := by simp [items]

/-- Where a thread of the ideal queue is. -/
def Pc.shows (won : ℕ → T → Prop) : Pc T → SeqObject.Pc (QueueCall T) (Option T) → Prop
  | .idle, pc => pc = .idle
  | .addLoadTail item, pc | .addLoadSeq item _, pc | .addCas item _, pc | .addFull item _, pc
  | .addRetry item _, pc => pc = .pending (.add item)
  | .addWrite _ _, pc | .addPublish _ _, pc => pc = .done none
  | .removeLoadHead, pc | .removeLoadSeq _, pc | .removeCas _, pc | .removeEmpty _, pc
  | .removeRetry _, pc => pc = .pending .remove
  | .removeRead pos, pc => ∃ out, won pos out ∧ pc = .done (some out)
  | .removeRelease _ out, pc => pc = .done (some out)

/-- The state `r` of the ideal queue explains the state of the ring after the history `h`. -/
structure Explains (c : ℕ) (m : Mem T) (l : ι → Thread T) (h : List (ι × Event T))
    (r : Global ι (List T) (SeqObject.Pc (QueueCall T) (Option T))) : Prop where
  ring : Ring c m l (Won h)
  ledger : Ledger m l h
  items : r.mem = (items h).drop m.head
  thread : ∀ i, (l i).pc.shows (Won h) (r.loc i)

theorem Pc.shows.append {h : List (ι × Event T)} {pc : Pc T}
    {q : SeqObject.Pc (QueueCall T) (Option T)} (hq : pc.shows (Won h) q)
    (g : List (ι × Event T)) :
  pc.shows (Won (h ++ g)) q
  := by
  cases pc with
  | removeRead pos =>
      obtain ⟨out, hwon, rfl⟩ := hq
      exact ⟨out, hwon.append g, rfl⟩
  | _ => exact hq

section Ledger

variable {m : Mem T} {l : ι → Thread T} {h : List (ι × Event T)}

theorem Ledger.length_items (hL : Ledger m l h) :
  (NonBlockingQueue.items h).length = m.tail
  := by
  have hlen := congrArg List.length hL.addTickets
  simpa [NonBlockingQueue.items] using hlen

/-- The add that won a ticket is the one at this place among the adds. -/
theorem Ledger.getElem?_items (hL : Ledger m l h) {k : ℕ} {x : T} (hw : Won h k x) :
  (NonBlockingQueue.items h)[k]? = some x
  := by
  obtain ⟨j, hj, hget⟩ := List.getElem_of_mem hw
  have hticket : ((addWins h).map Prod.fst)[j]? = some k := by
    rw [List.getElem?_map, List.getElem?_eq_getElem hj, hget]
    rfl
  rw [hL.addTickets] at hticket
  obtain ⟨_, hjk⟩ := List.getElem?_eq_some_iff.mp hticket
  rw [List.getElem_range] at hjk
  subst hjk
  rw [NonBlockingQueue.items, List.getElem?_map, List.getElem?_eq_getElem hj, hget]
  rfl

end Ledger

variable [DecidableEq ι]

section Step

variable {c : ℕ} {m : Mem T} {l : ι → Thread T} {h : List (ι × Event T)}
  {r : Global ι (List T) (SeqObject.Pc (QueueCall T) (Option T))}

/-- One thread has moved, on the ring and on the ideal queue. -/
theorem Explains.update (hE : Explains c m l h r) {i : ι} {m' : Mem T} {v : Thread T}
    {q : List T} {p : SeqObject.Pc (QueueCall T) (Option T)} {g : List (ι × Event T)}
    (hkeep : Ring c m' (Function.update l i v) (Won (h ++ g)) ∧
      Ledger m' (Function.update l i v) (h ++ g))
    (hitems : q = (NonBlockingQueue.items (h ++ g)).drop m'.head)
    (hv : v.pc.shows (Won (h ++ g)) p) :
  Explains c m' (Function.update l i v) (h ++ g) ⟨q, Function.update r.loc i p⟩
  := by
  constructor
  · apply hkeep.1
  · apply hkeep.2
  · apply hitems
  · intro j
    by_cases hj : j = i
    · subst hj
      simpa only [Function.update_self] using hv
    · simpa only [Function.update_of_ne hj] using (hE.thread j).append g

/-- Every step of the ring is a run of the ideal queue that shows the clients the same. -/
theorem Explains.step (hc : 2 ≤ c) (hE : Explains c m l h r) {i : ι} {spurious : Bool}
    {o : Outcome (Mem T) (Thread T) (Event T)}
    (ho : step .unbounded c m (l i) spurious = some o) :
  ∃ r', ((boundedQueue T c).atomic ι).Run Machine.Free r
      (clientView ⟨m, l⟩ (i, spurious) (o.events.map (Prod.mk i))) r' ∧
    Explains c o.mem (Function.update l i o.loc) (h ++ o.events.map (Prod.mk i)) r'
  := by
  have hkeep := step_keeps hc hE.ring hE.ledger ho
  have hi := hE.thread i
  have hok := hE.ring.thread i
  -- a step of a thread inside a call that the ideal queue does not take part in
  have silent : ∀ {m' : Mem T} {v : Thread T}, (l i).pc ≠ .idle → m'.head = m.head →
      v.pc.shows (Won h) (r.loc i) → Ring c m' (Function.update l i v) (Won (h ++ [])) ∧
        Ledger m' (Function.update l i v) (h ++ []) →
      ∃ r', ((boundedQueue T c).atomic ι).Run Machine.Free r (clientView ⟨m, l⟩ (i, spurious) [])
        r' ∧ Explains c m' (Function.update l i v) (h ++ []) r' := by
    intro m' v hpc hhead hv hkeep
    use r
    constructor
    · have hview : clientView ⟨m, l⟩ (i, spurious) [] = [] := by
        simp only [clientView]
        split
        · contradiction
        · rfl
      rw [hview]
      apply Machine.Run.nil
    · have hq : r.mem = (NonBlockingQueue.items (h ++ [])).drop m'.head := by
        rw [List.append_nil, hhead, hE.items]
      have hE' := hE.update hkeep hq (hv.append [])
      rwa [Function.update_eq_self] at hE'
  cases step_moves ho with
  | @beginAdd item todo hpc htodo =>
      rw [hpc] at hi
      refine ⟨⟨r.mem, Function.update r.loc i (.pending (.add item))⟩, ?_, ?_⟩
      · simp only [clientView, hpc, htodo]
        apply SeqObject.run_invoke hi
      · apply hE.update hkeep _ rfl
        simpa using hE.items
  | @beginRemove todo hpc htodo =>
      rw [hpc] at hi
      refine ⟨⟨r.mem, Function.update r.loc i (.pending .remove)⟩, ?_, ?_⟩
      · simp only [clientView, hpc, htodo]
        apply SeqObject.run_invoke hi
      · apply hE.update hkeep _ rfl
        simpa using hE.items
  | addLoadTail hpc | addReady hpc | addFull hpc | addBehind hpc | addLoses hpc | addBackoff hpc
  | addRetry hpc | addWrite hpc | removeLoadHead hpc | removeReady hpc | removeEmpty hpc
  | removeBehind hpc | removeLoses hpc | removeBackoff hpc | removeRetry hpc =>
      rw [hpc] at hi
      refine silent ?_ ?_ hi hkeep
      · rw [hpc]
        rintro ⟨⟩
      · rfl
  | @addWins item pos hpc htail =>
      subst htail
      rw [hpc] at hi
      have hle := hE.ring.head_le
      have hroom : m.tail < m.head + c := hkeep.1.tail_le
      rw [← hE.ledger.length_items] at hle hroom
      have hadd := boundedQueue_add item hle hroom
      rw [← hE.items] at hadd
      refine ⟨⟨(NonBlockingQueue.items h ++ [item]).drop m.head,
        Function.update r.loc i (.done none)⟩, ?_, hE.update hkeep ?_ rfl⟩
      · simp only [clientView, hpc]
        apply SeqObject.run_take hi hadd
      · rw [items_append]
        rfl
  | @addPublish item pos hpc =>
      rw [hpc] at hi
      refine ⟨⟨r.mem, Function.update r.loc i .idle⟩, ?_, hE.update hkeep ?_ rfl⟩
      · simp only [clientView, hpc]
        apply SeqObject.run_reply hi
      · rw [items_append, hE.items]
        exact congrArg _ (List.append_nil _).symm
  | @removeWins pos hpc hhead =>
      subst hhead
      rw [hpc] at hi
      have hread := hkeep.1.thread i
      simp only [Function.update_self, Thread.goto_pc] at hread
      obtain ⟨-, hread⟩ := hread
      generalize (m.buffer (m.head % c)).data = out at hread
      have hsame : NonBlockingQueue.items (h ++ [(i, .removeWon m.head)])
          = NonBlockingQueue.items h := (items_append _ _).trans (List.append_nil _)
      have hout : (NonBlockingQueue.items h)[m.head]? = some out := by
        rw [← hsame]
        apply hkeep.2.getElem?_items hread
      have hremove := boundedQueue_remove (c := c) hout
      rw [← hE.items] at hremove
      refine ⟨⟨(NonBlockingQueue.items h).drop (m.head + 1),
        Function.update r.loc i (.done (some out))⟩, ?_, hE.update hkeep ?_ ⟨out, hread, rfl⟩⟩
      · simp only [clientView, hpc]
        apply SeqObject.run_take hi hremove
      · exact congrArg _ hsame.symm
  | @removeRead pos hpc =>
      rw [hpc] at hi hok
      obtain ⟨out, hwon, hdone⟩ := hi
      have hget := hE.ledger.getElem?_items hwon
      rw [hE.ledger.getElem?_items hok.2] at hget
      obtain rfl := Option.some.inj hget
      refine silent ?_ rfl hdone hkeep
      rw [hpc]
      rintro ⟨⟩
  | @removeRelease pos out hpc =>
      rw [hpc] at hi
      refine ⟨⟨r.mem, Function.update r.loc i .idle⟩, ?_, hE.update hkeep ?_ rfl⟩
      · simp only [clientView, hpc]
        apply SeqObject.run_reply hi
      · rw [items_append, hE.items]
        exact congrArg _ (List.append_nil _).symm

end Step

variable [Inhabited T]

theorem reachable_explained {c : ℕ} (hc : 2 ≤ c)
    {v : List (ι × ClientEvent (QueueCall T) (Option T))} {s : Global ι (Mem T) (Thread T)}
    (hs : ((queue ι .bits64 c).watch clientView).Reachable (TicketsInRange c) v s) :
  ∃ r, ((boundedQueue T c).atomic ι).Reachable Machine.Free v r ∧
    ∃ h, Explains c s.mem s.loc h r
  := by
  apply Machine.Reachable.simulates _ _ hs
  · rintro ⟨m, l⟩ ⟨rfl, hl⟩
    use ⟨[], fun _ => .idle⟩, ⟨rfl, fun _ => rfl⟩, []
    constructor
    · apply Ring.new (fun i => (hl i).1)
    · apply Ledger.new (c := c) (fun i => (hl i).1)
    · rfl
    · intro i
      rw [(hl i).1]
      rfl
  · rintro ⟨m, l⟩ r ⟨i, spurious⟩ t e ⟨h, hE⟩ hrange hstep
    obtain ⟨_, hnext, rfl⟩ := Machine.watch_next.mp hstep
    obtain ⟨o, ho, rfl, rfl⟩ := threads_next.mp hnext
    simp only [step_bits64 hc hE.ring hrange] at ho
    obtain ⟨r', hrun, hE'⟩ := hE.step hc ho
    exact ⟨r', hrun, _, hE'⟩

/-- The items in the ring, from `head` on. -/
def contents (c : ℕ) (m : Mem T) : List T :=
  (List.range (m.tail - m.head)).map fun k => (m.buffer ((m.head + k) % c)).data

/-- When no call is in progress, every ticket dealt out to an add has been published. -/
theorem reachable_published {c : ℕ} (hc : 2 ≤ c) {h : List (ι × Event T)}
    {s : Global ι (Mem T) (Thread T)}
    (hs : (queue ι .bits64 c).Reachable (TicketsInRange c) h s)
    (hidle : ∀ i, (s.loc i).pc = .idle) :
  ∀ k, k < s.mem.tail → k < (s.mem.buffer (k % c)).seq
  := by
  obtain ⟨-, -, ht, hP⟩ := reachable_told hc hs
  intro k hk
  apply (ht.published k).mp
  apply (hP k hk).resolve_right
  rintro ⟨i, hi⟩
  rw [hidle i] at hi
  cases hi

omit [DecidableEq ι] [Inhabited T] in
theorem Explains.items_eq_contents {c : ℕ} {m : Mem T} {l : ι → Thread T}
    {h : List (ι × Event T)} {r : Global ι (List T) (SeqObject.Pc (QueueCall T) (Option T))}
    (hE : Explains c m l h r) (hpublished : ∀ k, k < m.tail → k < (m.buffer (k % c)).seq) :
  (NonBlockingQueue.items h).drop m.head = contents c m
  := by
  have hlen := hE.ledger.length_items
  apply List.ext_getElem?
  intro k
  rw [List.getElem?_drop, contents, List.getElem?_map]
  by_cases hk : m.head + k < m.tail
  · rw [List.getElem?_range (by omega)]
    apply hE.ledger.getElem?_items
    rcases hE.ring.filled (m.head + k) (Nat.le_add_right _ _) hk with hseq | ⟨-, hwon⟩
    · have := hpublished _ hk
      omega
    · apply hwon
  · rw [List.getElem?_eq_none (by omega), List.getElem?_eq_none (by simp; omega)]
    rfl

/-- What the clients see of `NonBlockingQueue` is a history of the ideal queue.  When no call
is in progress, one order of the calls explains it, in which a call that returned before
another was invoked stands before it and after which the ideal queue holds the items in the
ring. -/
theorem ring_linearizable {c : ℕ} (hc : 2 ≤ c)
    {v : List (ι × ClientEvent (QueueCall T) (Option T))} {s : Global ι (Mem T) (Thread T)}
    (hs : ((queue ι .bits64 c).watch clientView).Reachable (TicketsInRange c) v s) :
  (boundedQueue T c).Linearizable v ∧ ((∀ i, (s.loc i).pc = .idle) →
    ∃ order, (boundedQueue T c).Ordered v (contents c s.mem) (fun _ : ι => .idle) order)
  := by
  obtain ⟨r, hr, h, hE⟩ := reachable_explained hc hs
  use ⟨r, hr⟩
  intro hidle
  obtain ⟨order, horder⟩ := SeqObject.Reachable.ordered hr
  have hloc : r.loc = fun _ => .idle := by
    funext i
    have hi := hE.thread i
    rw [hidle i] at hi
    apply hi
  obtain ⟨h', hs'⟩ := hs.unwatch
  rw [hE.items, hE.items_eq_contents (reachable_published hc hs' hidle), hloc] at horder
  use order

/-- Thread `0` adds `7` while thread `1` finds the queue empty, and then removes it. -/
theorem ring_linearizable_seven :
  ∃ (v : List (Fin 2 × ClientEvent (QueueCall ℕ) (Option ℕ)))
    (s : Global (Fin 2) (Mem ℕ) (Thread ℕ)),
    ((queue (Fin 2) .bits64 2).watch clientView).Reachable (TicketsInRange 2) v s ∧
      v = [(0, .invoked (.add 7)), (1, .invoked .remove), (0, .returned none),
        (1, .returned (some 7))] ∧ (boundedQueue ℕ 2).Linearizable v ∧
      ∃ order, (boundedQueue ℕ 2).Ordered v [] (fun _ : Fin 2 => .idle) order
  := by
  have hinit : ((queue (Fin 2) .bits64 2).watch clientView).Initial
      ⟨Mem.new 2, fun i => ⟨if i = 0 then [.add 7] else [.remove], .idle, 0⟩⟩ :=
    ⟨rfl, fun _ => ⟨rfl, rfl⟩⟩
  have hs := Machine.exec_reachable (G := TicketsInRange 2)
    [(0, false), (0, false), (1, false), (1, false), (0, false), (0, false), (1, false),
      (0, false), (0, false), (1, false), (1, false), (1, false), (1, false), (1, false),
      (1, false)] hinit rfl
  obtain ⟨hlinear, horder⟩ := ring_linearizable le_rfl hs
  refine ⟨_, _, hs, rfl, hlinear, horder ?_⟩
  intro i
  fin_cases i <;> rfl

end NonBlockingQueue

namespace BlockingQueue

variable {T ι : Type*}

/-- What the clients see of a step: a thread outside a call invokes its next one, and the
returns. -/
def clientView (s : Global ι (Mem ι T) (Thread T)) (a : ι × Choice ι) (e : List (ι × Event T)) :
    List (ι × ClientEvent (QueueCall T) (Option T)) :=
  match (s.loc a.1).pc, (s.loc a.1).todo with
  | .idle, call :: _ => [(a.1, .invoked call)]
  | _, _ => e.filterMap fun
      | (i, .addReturned) => some (i, .returned none)
      | (i, .removeReturned out) => some (i, .returned (some out))
      | _ => none

/-- Where a thread of the ideal queue is. -/
def Pc.shows : Pc T → SeqObject.Pc (QueueCall T) (Option T)
  | .idle => .idle
  | .addLock item | .addTest item | .addWait item | .addAsleep item | .addWrite item
  | .addIndex item | .addIncr item => .pending (.add item)
  | .addNotify | .addUnlock => .done none
  | .removeLock | .removeTest | .removeWait | .removeAsleep | .removeRead | .removeIndex _
  | .removeDecr _ => .pending .remove
  | .removeNotify out | .removeUnlock out => .done (some out)

/-- The state `r` of the ideal queue explains the state of the queue after `A` have been added
and `R` removed. -/
structure Explains (c : ℕ) (m : Mem ι T) (l : ι → Thread T) (A R : List T)
    (r : Global ι (List T) (SeqObject.Pc (QueueCall T) (Option T))) : Prop where
  inv : Inv c m l A R
  items : r.mem = A.drop R.length
  thread : r.loc = fun i => (l i).pc.shows

variable [DecidableEq ι]

section Step

variable {c : ℕ} {m : Mem ι T} {l : ι → Thread T} {A R : List T}
  {r : Global ι (List T) (SeqObject.Pc (QueueCall T) (Option T))}

/-- One thread has moved, in the queue and in the ideal queue. -/
theorem Explains.update (hE : Explains c m l A R r) {i : ι} {m' : Mem ι T} {v : Thread T}
    {q : List T} {A' R' : List T} (hinv : Inv c m' (Function.update l i v) A' R')
    (hitems : q = A'.drop R'.length) :
  Explains c m' (Function.update l i v) A' R' ⟨q, Function.update r.loc i v.pc.shows⟩
  := by
  use hinv, hitems
  rw [hE.thread]
  funext j
  by_cases hj : j = i
  · subst hj
    simp only [Function.update_self]
  · simp only [Function.update_of_ne hj]

/-- Every step of the queue is a run of the ideal queue that shows the clients the same. -/
theorem Explains.step (hc : 0 < c) (hc' : c < 2 ^ 64) (hE : Explains c m l A R r) {i : ι}
    {choice : Choice ι} {o : Outcome (Mem ι T) (Thread T) (Event T)}
    (ho : step c i m (l i) choice = some o) :
  ∃ r', ((boundedQueue T c).atomic ι).Run Machine.Free r
      (clientView ⟨m, l⟩ (i, choice) (o.events.map (Prod.mk i))) r' ∧
    Explains c o.mem (Function.update l i o.loc) (A ++ added (o.events.map (Prod.mk i)))
      (R ++ removed (o.events.map (Prod.mk i))) r'
  := by
  have hkeep := step_keeps hc hc' hE.inv ho
  have hi : r.loc i = (l i).pc.shows := congrFun hE.thread i
  have hsize := hE.inv.size
  -- a step of a thread inside a call that the ideal queue does not take part in
  have silent : ∀ {m' : Mem ι T} {v : Thread T}, (l i).pc ≠ .idle →
      v.pc.shows = (l i).pc.shows → Inv c m' (Function.update l i v) (A ++ []) (R ++ []) →
      ∃ r', ((boundedQueue T c).atomic ι).Run Machine.Free r (clientView ⟨m, l⟩ (i, choice) [])
        r' ∧ Explains c m' (Function.update l i v) (A ++ []) (R ++ []) r' := by
    intro m' v hpc hv hkeep
    use r
    constructor
    · have hview : clientView ⟨m, l⟩ (i, choice) [] = [] := by
        simp only [clientView]
        split
        · contradiction
        · rfl
      rw [hview]
      apply Machine.Run.nil
    · have hitems : r.mem = (A ++ []).drop (R ++ []).length := by
        simpa using hE.items
      have hE' := hE.update hkeep hitems
      rwa [hv, ← hi, Function.update_eq_self] at hE'
  have same : ∀ {q : List T}, q = A.drop R.length → q = (A ++ []).drop (R ++ []).length := by
    intro q hq
    simpa using hq
  cases step_moves ho with
  | @beginAdd item todo hpc htodo =>
      rw [hpc] at hi
      refine ⟨_, ?_, hE.update hkeep (same hE.items)⟩
      simp only [clientView, hpc, htodo]
      apply SeqObject.run_invoke hi
  | @beginRemove todo hpc htodo =>
      rw [hpc] at hi
      refine ⟨_, ?_, hE.update hkeep (same hE.items)⟩
      simp only [clientView, hpc, htodo]
      apply SeqObject.run_invoke hi
  | @addIncr item hpc =>
      rw [hpc] at hi
      have hok := hE.inv.add i
      rw [hpc] at hok
      have hle : R.length ≤ A.length := by omega
      have hroom : A.length < R.length + c := by
        have := hok.2.1
        omega
      have hadd := boundedQueue_add item hle hroom
      rw [← hE.items] at hadd
      have hitems : (A ++ [item]).drop R.length = (A ++ [item]).drop (R ++ []).length := by
        rw [List.append_nil]
      refine ⟨_, ?_, hE.update hkeep hitems⟩
      simp only [clientView, hpc]
      apply SeqObject.run_take hi hadd
  | @removeDecr out hpc =>
      rw [hpc] at hi
      have hok := hE.inv.remove i
      rw [hpc] at hok
      have hremove := boundedQueue_remove (c := c) hok.2.2
      rw [← hE.items] at hremove
      have hitems : A.drop (R.length + 1) = (A ++ []).drop (R ++ [out]).length := by
        simp
      refine ⟨_, ?_, hE.update hkeep hitems⟩
      simp only [clientView, hpc]
      apply SeqObject.run_take hi hremove
  | addUnlock hpc | removeUnlock hpc =>
      rw [hpc] at hi
      refine ⟨_, ?_, hE.update hkeep (same hE.items)⟩
      simp only [clientView, hpc]
      apply SeqObject.run_reply hi
  | addSpurious hpc | removeSpurious hpc =>
      refine silent ?_ rfl hkeep
      rw [hpc]
      rintro ⟨⟩
  | addLock hpc | addRoom hpc | addFull hpc | addWait hpc | addWake hpc | addWrite hpc
  | addIndex hpc | addNotify hpc | addNotifyNone hpc | removeLock hpc | removeItem hpc
  | removeEmpty hpc | removeWait hpc | removeWake hpc | removeRead hpc | removeIndex hpc
  | removeNotify hpc | removeNotifyNone hpc =>
      refine silent ?_ (by rw [hpc]; rfl) hkeep
      rw [hpc]
      rintro ⟨⟩

end Step

variable [Inhabited T]

theorem reachable_explained {c : ℕ} (hc : 0 < c) (hc' : c < 2 ^ 64)
    {v : List (ι × ClientEvent (QueueCall T) (Option T))}
    {s : Global ι (Mem ι T) (Thread T)}
    (hs : ((queue ι c).watch clientView).Reachable Machine.Free v s) :
  ∃ r, ((boundedQueue T c).atomic ι).Reachable Machine.Free v r ∧
    ∃ A R, Explains c s.mem s.loc A R r
  := by
  apply Machine.Reachable.simulates _ _ hs
  · rintro ⟨m, l⟩ ⟨rfl, hl⟩
    use ⟨[], fun _ => .idle⟩, ⟨rfl, fun _ => rfl⟩, [], []
    constructor
    · apply Inv.new hl
    · rfl
    · funext i
      rw [hl i]
      rfl
  · rintro ⟨m, l⟩ r ⟨i, choice⟩ t e ⟨A, R, hE⟩ - hstep
    obtain ⟨_, hnext, rfl⟩ := Machine.watch_next.mp hstep
    obtain ⟨o, ho, rfl, rfl⟩ := threads_next.mp hnext
    obtain ⟨r', hrun, hE'⟩ := hE.step hc hc' ho
    exact ⟨r', hrun, _, _, hE'⟩

/-- The items in the ring, from `head` on. -/
def contents (c : ℕ) (m : Mem ι T) : List T :=
  (List.range m.size).map fun k => m.buffer ((m.head + k) % c)

omit [DecidableEq ι] [Inhabited T] in
theorem Explains.items_eq_contents {c : ℕ} {m : Mem ι T} {l : ι → Thread T} {A R : List T}
    {r : Global ι (List T) (SeqObject.Pc (QueueCall T) (Option T))} (hE : Explains c m l A R r)
    (hfree : m.headMutex = none) :
  A.drop R.length = contents c m
  := by
  have hsize := hE.inv.size
  apply List.ext_getElem?
  intro k
  simp only [List.getElem?_drop, contents, List.getElem?_map, hE.inv.head hfree, Nat.mod_add_mod]
  by_cases hk : k < m.size
  · rw [List.getElem?_range hk]
    apply hE.inv.buffer
    · apply Nat.le_add_right
    · omega
  · rw [List.getElem?_eq_none (by omega), List.getElem?_eq_none (by simp; omega)]
    rfl

/-- What the clients see of `BlockingQueue` is a history of the ideal queue.  When no call is
in progress, one order of the calls explains it, in which a call that returned before another
was invoked stands before it and after which the ideal queue holds the items in the ring. -/
theorem lock_linearizable {c : ℕ} (hc : 0 < c) (hc' : c < 2 ^ 64)
    {v : List (ι × ClientEvent (QueueCall T) (Option T))}
    {s : Global ι (Mem ι T) (Thread T)}
    (hs : ((queue ι c).watch clientView).Reachable Machine.Free v s) :
  (boundedQueue T c).Linearizable v ∧ ((∀ i, (s.loc i).pc = .idle) →
    ∃ order, (boundedQueue T c).Ordered v (contents c s.mem) (fun _ : ι => .idle) order)
  := by
  obtain ⟨r, hr, A, R, hE⟩ := reachable_explained hc hc' hs
  use ⟨r, hr⟩
  intro hidle
  obtain ⟨order, horder⟩ := SeqObject.Reachable.ordered hr
  have hfree : s.mem.headMutex = none := by
    cases hm : s.mem.headMutex with
    | none => rfl
    | some i =>
        have hin := (hE.inv.removeLock i).mpr hm
        simp only [hidle i] at hin
        cases hin
  have hloc : r.loc = fun _ => .idle := by
    rw [hE.thread]
    funext i
    rw [hidle i]
    rfl
  rw [hE.items, hE.items_eq_contents hfree, hloc] at horder
  use order

/-- With a single slot, `7` is added by thread `0` and removed by thread `1`, which had to
wait for it. -/
theorem lock_linearizable_seven :
  ∃ (v : List (Fin 2 × ClientEvent (QueueCall ℕ) (Option ℕ)))
    (s : Global (Fin 2) (Mem (Fin 2) ℕ) (Thread ℕ)),
    ((queue (Fin 2) 1).watch clientView).Reachable Machine.Free v s ∧
      v = [(1, .invoked .remove), (0, .invoked (.add 7)), (0, .returned none),
        (1, .returned (some 7))] ∧ (boundedQueue ℕ 1).Linearizable v ∧
      ∃ order, (boundedQueue ℕ 1).Ordered v [] (fun _ : Fin 2 => .idle) order
  := by
  have hinit : ((queue (Fin 2) 1).watch clientView).Initial
      ⟨Mem.new, fun i => ⟨if i = 0 then [.add 7] else [.remove], .idle⟩⟩ :=
    ⟨rfl, fun _ => rfl⟩
  have hs := Machine.exec_reachable (G := Machine.Free)
    [(1, .go), (1, .go), (1, .go), (1, .go), (0, .go), (0, .go), (0, .go), (0, .go), (0, .go),
      (0, .go), (0, .wake 1), (0, .go), (1, .go), (1, .go), (1, .go), (1, .go), (1, .go),
      (1, .go), (1, .go)] hinit rfl
  obtain ⟨hlinear, horder⟩ := lock_linearizable Nat.one_pos (by omega) hs
  refine ⟨_, _, hs, rfl, hlinear, horder ?_⟩
  intro i
  fin_cases i <;> rfl

end BlockingQueue

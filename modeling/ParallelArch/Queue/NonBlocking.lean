import ParallelArch.Concurrency.Threads
import ParallelArch.Queue.Calls

/-!
# The non-blocking queue

`NonBlockingQueue` keeps its items in a ring of `capacity` slots.  The counters `tail` and
`head` deal out tickets to the adds and the removes; ticket `pos` works on the slot
`pos % capacity`, whose `seq` says whose turn it is.  `step` is one atomic step of a
thread inside `add` or `remove`: a load, a compare-exchange, a data access or a store.
-/

namespace NonBlockingQueue

/-- A slot of the ring. -/
structure Node (T : Type*) where
  seq : ℕ
  data : T

/-- The fields of the queue that threads share. -/
structure Mem (T : Type*) where
  buffer : ℕ → Node T
  head : ℕ
  tail : ℕ

/-- Where a thread is in `add` or `remove`, with the local variables it still needs. -/
inductive Pc (T : Type*) where
  | idle
  | addLoadTail (item : T)
  | addLoadSeq (item : T) (pos : ℕ)
  | addCas (item : T) (pos : ℕ)
  | addFull (item : T) (pos : ℕ)
  | addRetry (item : T) (pos : ℕ)
  | addWrite (item : T) (pos : ℕ)
  | addPublish (item : T) (pos : ℕ)
  | removeLoadHead
  | removeLoadSeq (pos : ℕ)
  | removeCas (pos : ℕ)
  | removeEmpty (pos : ℕ)
  | removeRetry (pos : ℕ)
  | removeRead (pos : ℕ)
  | removeRelease (pos : ℕ) (out : T)

/-- The state of a thread: the calls it still has to make, where it is in the current one,
and the `thread_local` counter of `backoff`. -/
structure Thread (T : Type*) where
  todo : List (QueueCall T)
  pc : Pc T
  spins : ℕ

/-- What an observer sees: an add or a remove winning a ticket, and a call returning. -/
inductive Event (T : Type*) where
  | addWon (pos : ℕ) (item : T)
  | removeWon (pos : ℕ)
  | addReturned (pos : ℕ)
  | removeReturned (pos : ℕ) (out : T)
deriving DecidableEq

variable {T : Type*}

/-- `buffer[k].seq.store(seq)`. -/
def Mem.storeSeq (m : Mem T) (k seq : ℕ) : Mem T :=
  { m with buffer := Function.update m.buffer k { m.buffer k with seq := seq } }

/-- `buffer[k].data = item`. -/
def Mem.storeData (m : Mem T) (k : ℕ) (item : T) : Mem T :=
  { m with buffer := Function.update m.buffer k { m.buffer k with data := item } }

/-- `NonBlockingQueue(capacity)`: slot `i` awaits ticket `i`. -/
def Mem.new [Inhabited T] (_capacity : ℕ) : Mem T where
  buffer i := ⟨i, default⟩
  head := 0
  tail := 0

/-- `backoff`: spin for the first sixteen turns, then yield, starting over after 1024. -/
def backoff (spins : ℕ) : ℕ :=
  if spins + 1 < 16 then spins + 1
  else if spins + 1 > 1024 then 0
  else spins + 1

/-- The thread at another point of its code. -/
def Thread.goto (l : Thread T) (pc : Pc T) : Thread T := { l with pc := pc }

/-- One atomic step of a thread.  `spurious` lets a `compare_exchange_weak` fail although
the counter has the expected value. -/
def step (W : SizeT) (capacity : ℕ) (m : Mem T) (l : Thread T) (spurious : Bool) :
    Option (Outcome (Mem T) (Thread T) (Event T)) :=
  match l.pc with
  | .idle =>
      match l.todo with
      | [] => none
      | .add item :: todo => some { mem := m, loc := { l with todo, pc := .addLoadTail item } }
      | .remove :: todo => some { mem := m, loc := { l with todo, pc := .removeLoadHead } }
  | .addLoadTail item => some { mem := m, loc := l.goto (.addLoadSeq item m.tail) }
  | .addLoadSeq item pos =>
      let seq := (m.buffer (pos % capacity)).seq
      let dif := W.dif seq pos
      if dif = 0 then some { mem := m, loc := l.goto (.addCas item pos) }
      else if dif < 0 then some { mem := m, loc := l.goto (.addFull item pos) }
      else some { mem := m, loc := l.goto (.addRetry item pos) }
  | .addCas item pos =>
      if m.tail = pos ∧ spurious = false then
        some { mem := { m with tail := W.wrap (pos + 1) }, loc := l.goto (.addWrite item pos),
               events := [.addWon pos item] }
      else some { mem := m, loc := l.goto (.addLoadTail item) }
  | .addFull item _ =>
      some { mem := m, loc := { l with pc := .addLoadTail item, spins := backoff l.spins } }
  | .addRetry item _ => some { mem := m, loc := l.goto (.addLoadTail item) }
  | .addWrite item pos =>
      some { mem := m.storeData (pos % capacity) item, loc := l.goto (.addPublish item pos) }
  | .addPublish _ pos =>
      some { mem := m.storeSeq (pos % capacity) (W.wrap (pos + 1)), loc := l.goto .idle,
             events := [.addReturned pos] }
  | .removeLoadHead => some { mem := m, loc := l.goto (.removeLoadSeq m.head) }
  | .removeLoadSeq pos =>
      let seq := (m.buffer (pos % capacity)).seq
      let dif := W.dif seq (W.wrap (pos + 1))
      if dif = 0 then some { mem := m, loc := l.goto (.removeCas pos) }
      else if dif < 0 then some { mem := m, loc := l.goto (.removeEmpty pos) }
      else some { mem := m, loc := l.goto (.removeRetry pos) }
  | .removeCas pos =>
      if m.head = pos ∧ spurious = false then
        some { mem := { m with head := W.wrap (pos + 1) }, loc := l.goto (.removeRead pos),
               events := [.removeWon pos] }
      else some { mem := m, loc := l.goto .removeLoadHead }
  | .removeEmpty _ =>
      some { mem := m, loc := { l with pc := .removeLoadHead, spins := backoff l.spins } }
  | .removeRetry _ => some { mem := m, loc := l.goto .removeLoadHead }
  | .removeRead pos =>
      some { mem := m, loc := l.goto (.removeRelease pos (m.buffer (pos % capacity)).data) }
  | .removeRelease pos out =>
      some { mem := m.storeSeq (pos % capacity) (W.wrap (pos + capacity)), loc := l.goto .idle,
             events := [.removeReturned pos out] }

/-! ### What a step can do -/

section Moves

variable (W : SizeT) (capacity : ℕ) (m : Mem T) (l : Thread T)

/-- The steps of a thread in state `l`, one constructor for each branch of the code. -/
inductive Moves : Outcome (Mem T) (Thread T) (Event T) → Prop where
  | beginAdd {item : T} {todo : List (QueueCall T)} (hpc : l.pc = .idle)
      (htodo : l.todo = .add item :: todo) :
      Moves { mem := m, loc := { l with todo, pc := .addLoadTail item } }
  | addLoadTail {item : T} (hpc : l.pc = .addLoadTail item) :
      Moves { mem := m, loc := l.goto (.addLoadSeq item m.tail) }
  | addReady {item : T} {pos : ℕ} (hpc : l.pc = .addLoadSeq item pos)
      (hdif : W.dif (m.buffer (pos % capacity)).seq pos = 0) :
      Moves { mem := m, loc := l.goto (.addCas item pos) }
  | addFull {item : T} {pos : ℕ} (hpc : l.pc = .addLoadSeq item pos)
      (hdif : W.dif (m.buffer (pos % capacity)).seq pos < 0) :
      Moves { mem := m, loc := l.goto (.addFull item pos) }
  | addBehind {item : T} {pos : ℕ} (hpc : l.pc = .addLoadSeq item pos)
      (hdif : 0 < W.dif (m.buffer (pos % capacity)).seq pos) :
      Moves { mem := m, loc := l.goto (.addRetry item pos) }
  | addWins {item : T} {pos : ℕ} (hpc : l.pc = .addCas item pos) (htail : m.tail = pos) :
      Moves { mem := { m with tail := W.wrap (pos + 1) }, loc := l.goto (.addWrite item pos),
              events := [.addWon pos item] }
  | addLoses {item : T} {pos : ℕ} (hpc : l.pc = .addCas item pos) :
      Moves { mem := m, loc := l.goto (.addLoadTail item) }
  | addBackoff {item : T} {pos : ℕ} (hpc : l.pc = .addFull item pos) :
      Moves { mem := m, loc := { l with pc := .addLoadTail item, spins := backoff l.spins } }
  | addRetry {item : T} {pos : ℕ} (hpc : l.pc = .addRetry item pos) :
      Moves { mem := m, loc := l.goto (.addLoadTail item) }
  | addWrite {item : T} {pos : ℕ} (hpc : l.pc = .addWrite item pos) :
      Moves { mem := m.storeData (pos % capacity) item, loc := l.goto (.addPublish item pos) }
  | addPublish {item : T} {pos : ℕ} (hpc : l.pc = .addPublish item pos) :
      Moves { mem := m.storeSeq (pos % capacity) (W.wrap (pos + 1)), loc := l.goto .idle,
              events := [.addReturned pos] }
  | beginRemove {todo : List (QueueCall T)} (hpc : l.pc = .idle)
      (htodo : l.todo = .remove :: todo) :
      Moves { mem := m, loc := { l with todo, pc := .removeLoadHead } }
  | removeLoadHead (hpc : l.pc = .removeLoadHead) :
      Moves { mem := m, loc := l.goto (.removeLoadSeq m.head) }
  | removeReady {pos : ℕ} (hpc : l.pc = .removeLoadSeq pos)
      (hdif : W.dif (m.buffer (pos % capacity)).seq (W.wrap (pos + 1)) = 0) :
      Moves { mem := m, loc := l.goto (.removeCas pos) }
  | removeEmpty {pos : ℕ} (hpc : l.pc = .removeLoadSeq pos)
      (hdif : W.dif (m.buffer (pos % capacity)).seq (W.wrap (pos + 1)) < 0) :
      Moves { mem := m, loc := l.goto (.removeEmpty pos) }
  | removeBehind {pos : ℕ} (hpc : l.pc = .removeLoadSeq pos)
      (hdif : 0 < W.dif (m.buffer (pos % capacity)).seq (W.wrap (pos + 1))) :
      Moves { mem := m, loc := l.goto (.removeRetry pos) }
  | removeWins {pos : ℕ} (hpc : l.pc = .removeCas pos) (hhead : m.head = pos) :
      Moves { mem := { m with head := W.wrap (pos + 1) }, loc := l.goto (.removeRead pos),
              events := [.removeWon pos] }
  | removeLoses {pos : ℕ} (hpc : l.pc = .removeCas pos) :
      Moves { mem := m, loc := l.goto .removeLoadHead }
  | removeBackoff {pos : ℕ} (hpc : l.pc = .removeEmpty pos) :
      Moves { mem := m, loc := { l with pc := .removeLoadHead, spins := backoff l.spins } }
  | removeRetry {pos : ℕ} (hpc : l.pc = .removeRetry pos) :
      Moves { mem := m, loc := l.goto .removeLoadHead }
  | removeRead {pos : ℕ} (hpc : l.pc = .removeRead pos) :
      Moves { mem := m, loc := l.goto (.removeRelease pos (m.buffer (pos % capacity)).data) }
  | removeRelease {pos : ℕ} {out : T} (hpc : l.pc = .removeRelease pos out) :
      Moves { mem := m.storeSeq (pos % capacity) (W.wrap (pos + capacity)), loc := l.goto .idle,
              events := [.removeReturned pos out] }

end Moves

theorem step_moves {W : SizeT} {capacity : ℕ} {m : Mem T} {l : Thread T} {spurious : Bool}
    {o : Outcome (Mem T) (Thread T) (Event T)} (h : step W capacity m l spurious = some o) :
  Moves W capacity m l o
  := by
  cases hpc : l.pc with
  | idle =>
      rcases htodo : l.todo with _ | ⟨_ | _, todo⟩
      · simp [step, hpc, htodo] at h
      · simp only [step, hpc, htodo, Option.some.injEq] at h
        subst h
        apply Moves.beginAdd hpc htodo
      · simp only [step, hpc, htodo, Option.some.injEq] at h
        subst h
        apply Moves.beginRemove hpc htodo
  | addLoadSeq item pos =>
      simp only [step, hpc] at h
      split_ifs at h with hzero hneg
      · cases h
        apply Moves.addReady hpc hzero
      · cases h
        apply Moves.addFull hpc hneg
      · cases h
        apply Moves.addBehind hpc
        omega
  | addCas item pos =>
      simp only [step, hpc] at h
      split_ifs at h with hcas
      · cases h
        apply Moves.addWins hpc hcas.1
      · cases h
        apply Moves.addLoses hpc
  | removeLoadSeq pos =>
      simp only [step, hpc] at h
      split_ifs at h with hzero hneg
      · cases h
        apply Moves.removeReady hpc hzero
      · cases h
        apply Moves.removeEmpty hpc hneg
      · cases h
        apply Moves.removeBehind hpc
        omega
  | removeCas pos =>
      simp only [step, hpc] at h
      split_ifs at h with hcas
      · cases h
        apply Moves.removeWins hpc hcas.1
      · cases h
        apply Moves.removeLoses hpc
  | addRetry item pos =>
      simp only [step, hpc, Option.some.injEq] at h
      subst h
      apply Moves.addRetry hpc
  | removeRetry pos =>
      simp only [step, hpc, Option.some.injEq] at h
      subst h
      apply Moves.removeRetry hpc
  | _ =>
      simp only [step, hpc, Option.some.injEq] at h
      subst h
      constructor
      assumption

/-! ### The shared fields after a store -/

section Stores

variable (m : Mem T) (k j seq : ℕ) (item : T)

@[simp]
theorem Mem.storeSeq_head : (m.storeSeq k seq).head = m.head := rfl

@[simp]
theorem Mem.storeSeq_tail : (m.storeSeq k seq).tail = m.tail := rfl

@[simp]
theorem Mem.storeSeq_seq :
  ((m.storeSeq k seq).buffer j).seq = if j = k then seq else (m.buffer j).seq
  := by
  by_cases h : j = k
  · simp [Mem.storeSeq, h]
  · simp [Mem.storeSeq, h]

@[simp]
theorem Mem.storeSeq_data :
  ((m.storeSeq k seq).buffer j).data = (m.buffer j).data
  := by
  by_cases h : j = k
  · simp [Mem.storeSeq, h]
  · simp [Mem.storeSeq, h]

@[simp]
theorem Mem.storeData_head : (m.storeData k item).head = m.head := rfl

@[simp]
theorem Mem.storeData_tail : (m.storeData k item).tail = m.tail := rfl

@[simp]
theorem Mem.storeData_seq :
  ((m.storeData k item).buffer j).seq = (m.buffer j).seq
  := by
  by_cases h : j = k
  · simp [Mem.storeData, h]
  · simp [Mem.storeData, h]

@[simp]
theorem Mem.storeData_data :
  ((m.storeData k item).buffer j).data = if j = k then item else (m.buffer j).data
  := by
  by_cases h : j = k
  · simp [Mem.storeData, h]
  · simp [Mem.storeData, h]

end Stores

@[simp]
theorem Thread.goto_pc (l : Thread T) (pc : Pc T) : (l.goto pc).pc = pc := rfl

/-- The queue of a given capacity, used by the threads `ι`, each with any calls to make. -/
def queue (ι : Type*) [DecidableEq ι] [Inhabited T] (W : SizeT) (capacity : ℕ) :
    Machine (Global ι (Mem T) (Thread T)) (ι × Bool) (ι × Event T) :=
  threads (fun m l => m = Mem.new capacity ∧ ∀ i, (l i).pc = .idle ∧ (l i).spins = 0)
    (fun _ => step W capacity)

end NonBlockingQueue

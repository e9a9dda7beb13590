import Mathlib.Data.Finset.Card
import Mathlib.Tactic.SplitIfs
import ParallelArch.Concurrency.Threads
import ParallelArch.Queue.Calls

/-!
# The blocking queue

`BlockingQueue` keeps its items in a ring of `capacity` slots.  An add works under
`tail_mutex` and a remove under `head_mutex`; the two share the atomic counter `size`.  An
add waits in `not_full` while `size` is `capacity`, a remove in `not_empty` while it is `0`.

`wait(lock, pred)` tests `pred`; if it is false, a later step releases the mutex and joins
the waiting set at once, and the thread goes on when it is no longer in the waiting set and
the mutex is free.  `notify_one` takes one thread out of the waiting set, if there is one;
a thread may also leave it spuriously.
-/

namespace BlockingQueue

/-- The fields of the queue that threads share, with the holder of each mutex and the
threads waiting in each condition variable. -/
structure Mem (ι T : Type*) where
  buffer : ℕ → T
  head : ℕ
  tail : ℕ
  size : ℕ
  headMutex : Option ι
  tailMutex : Option ι
  notEmpty : Finset ι
  notFull : Finset ι

/-- Where a thread is in `add` or `remove`, with the local variables it still needs. -/
inductive Pc (T : Type*) where
  | idle
  | addLock (item : T)
  | addTest (item : T)
  | addWait (item : T)
  | addAsleep (item : T)
  | addWrite (item : T)
  | addIndex (item : T)
  | addIncr (item : T)
  | addNotify
  | addUnlock
  | removeLock
  | removeTest
  | removeWait
  | removeAsleep
  | removeRead
  | removeIndex (out : T)
  | removeDecr (out : T)
  | removeNotify (out : T)
  | removeUnlock (out : T)

/-- The state of a thread: the calls it still has to make, and where it is in the current
one. -/
structure Thread (T : Type*) where
  todo : List (QueueCall T)
  pc : Pc T

/-- What an observer sees: the changes of `size`, and a call returning. -/
inductive Event (T : Type*) where
  | added (item : T)
  | removed (out : T)
  | addReturned
  | removeReturned (out : T)
deriving DecidableEq

/-- The choice a step makes: a sleeping thread wakes spuriously, a notification reaches a
waiting thread, or none of these. -/
inductive Choice (ι : Type*) where
  | go
  | spurious
  | wake (j : ι)

variable {ι T : Type*}

/-- The thread at another point of its code. -/
def Thread.goto (l : Thread T) (pc : Pc T) : Thread T := { l with pc := pc }

@[simp]
theorem Thread.goto_pc (l : Thread T) (pc : Pc T) : (l.goto pc).pc = pc := rfl

@[simp]
theorem Thread.goto_todo (l : Thread T) (pc : Pc T) : (l.goto pc).todo = l.todo := rfl

/-- `BlockingQueue(capacity)`: an empty ring, both mutexes free and nobody waiting. -/
def Mem.new [Inhabited T] : Mem ι T where
  buffer _ := default
  head := 0
  tail := 0
  size := 0
  headMutex := none
  tailMutex := none
  notEmpty := ∅
  notFull := ∅

variable [DecidableEq ι]

/-- One step of the thread `i`. -/
def step (capacity : ℕ) (i : ι) (m : Mem ι T) (l : Thread T) (choice : Choice ι) :
    Option (Outcome (Mem ι T) (Thread T) (Event T)) :=
  match l.pc with
  | .idle =>
      match l.todo with
      | [] => none
      | .add item :: todo => some { mem := m, loc := ⟨todo, .addLock item⟩ }
      | .remove :: todo => some { mem := m, loc := ⟨todo, .removeLock⟩ }
  | .addLock item =>
      if m.tailMutex = none then
        some { mem := { m with tailMutex := some i }, loc := l.goto (.addTest item) }
      else none
  | .addTest item =>
      if m.size < capacity then some { mem := m, loc := l.goto (.addWrite item) }
      else some { mem := m, loc := l.goto (.addWait item) }
  | .addWait item =>
      some { mem := { m with tailMutex := none, notFull := insert i m.notFull },
             loc := l.goto (.addAsleep item) }
  | .addAsleep item =>
      if i ∈ m.notFull then
        match choice with
        | .spurious => some { mem := { m with notFull := m.notFull.erase i }, loc := l }
        | _ => none
      else if m.tailMutex = none then
        some { mem := { m with tailMutex := some i }, loc := l.goto (.addTest item) }
      else none
  | .addWrite item =>
      some { mem := { m with buffer := Function.update m.buffer m.tail item },
             loc := l.goto (.addIndex item) }
  | .addIndex item =>
      some { mem := { m with tail := SizeT.bits64.wrap (m.tail + 1) % capacity },
             loc := l.goto (.addIncr item) }
  | .addIncr item =>
      some { mem := { m with size := SizeT.bits64.wrap (m.size + 1) }, loc := l.goto .addNotify,
             events := [.added item] }
  | .addNotify =>
      match choice with
      | .wake j =>
          if j ∈ m.notEmpty then
            some { mem := { m with notEmpty := m.notEmpty.erase j }, loc := l.goto .addUnlock }
          else none
      | _ => if m.notEmpty = ∅ then some { mem := m, loc := l.goto .addUnlock } else none
  | .addUnlock =>
      some { mem := { m with tailMutex := none }, loc := l.goto .idle, events := [.addReturned] }
  | .removeLock =>
      if m.headMutex = none then
        some { mem := { m with headMutex := some i }, loc := l.goto .removeTest }
      else none
  | .removeTest =>
      if m.size > 0 then some { mem := m, loc := l.goto .removeRead }
      else some { mem := m, loc := l.goto .removeWait }
  | .removeWait =>
      some { mem := { m with headMutex := none, notEmpty := insert i m.notEmpty },
             loc := l.goto .removeAsleep }
  | .removeAsleep =>
      if i ∈ m.notEmpty then
        match choice with
        | .spurious => some { mem := { m with notEmpty := m.notEmpty.erase i }, loc := l }
        | _ => none
      else if m.headMutex = none then
        some { mem := { m with headMutex := some i }, loc := l.goto .removeTest }
      else none
  | .removeRead => some { mem := m, loc := l.goto (.removeIndex (m.buffer m.head)) }
  | .removeIndex out =>
      some { mem := { m with head := SizeT.bits64.wrap (m.head + 1) % capacity },
             loc := l.goto (.removeDecr out) }
  | .removeDecr out =>
      some { mem := { m with size := SizeT.bits64.wrap (m.size + (2 ^ 64 - 1)) },
             loc := l.goto (.removeNotify out), events := [.removed out] }
  | .removeNotify out =>
      match choice with
      | .wake j =>
          if j ∈ m.notFull then
            some { mem := { m with notFull := m.notFull.erase j },
                   loc := l.goto (.removeUnlock out) }
          else none
      | _ => if m.notFull = ∅ then some { mem := m, loc := l.goto (.removeUnlock out) } else none
  | .removeUnlock out =>
      some { mem := { m with headMutex := none }, loc := l.goto .idle,
             events := [.removeReturned out] }

/-- The queue of a given capacity, used by the threads `ι`, each with any calls to make. -/
def queue (ι : Type*) [DecidableEq ι] [Inhabited T] (capacity : ℕ) :
    Machine (Global ι (Mem ι T) (Thread T)) (ι × Choice ι) (ι × Event T) :=
  threads (fun m l => m = Mem.new ∧ ∀ i, (l i).pc = .idle) (step capacity)

/-! ### What a step can do -/

section Moves

variable (capacity : ℕ) (i : ι) (m : Mem ι T) (l : Thread T)

/-- The steps of the thread `i` in state `l`, one constructor for each branch of the
code. -/
inductive Moves : Outcome (Mem ι T) (Thread T) (Event T) → Prop where
  | beginAdd {item : T} {todo : List (QueueCall T)} (hpc : l.pc = .idle)
      (htodo : l.todo = .add item :: todo) : Moves { mem := m, loc := ⟨todo, .addLock item⟩ }
  | addLock {item : T} (hpc : l.pc = .addLock item) (hfree : m.tailMutex = none) :
      Moves { mem := { m with tailMutex := some i }, loc := l.goto (.addTest item) }
  | addRoom {item : T} (hpc : l.pc = .addTest item) (hroom : m.size < capacity) :
      Moves { mem := m, loc := l.goto (.addWrite item) }
  | addFull {item : T} (hpc : l.pc = .addTest item) (hfull : capacity ≤ m.size) :
      Moves { mem := m, loc := l.goto (.addWait item) }
  | addWait {item : T} (hpc : l.pc = .addWait item) :
      Moves { mem := { m with tailMutex := none, notFull := insert i m.notFull },
              loc := l.goto (.addAsleep item) }
  | addSpurious {item : T} (hpc : l.pc = .addAsleep item) (hin : i ∈ m.notFull) :
      Moves { mem := { m with notFull := m.notFull.erase i }, loc := l }
  | addWake {item : T} (hpc : l.pc = .addAsleep item) (hout : i ∉ m.notFull)
      (hfree : m.tailMutex = none) :
      Moves { mem := { m with tailMutex := some i }, loc := l.goto (.addTest item) }
  | addWrite {item : T} (hpc : l.pc = .addWrite item) :
      Moves { mem := { m with buffer := Function.update m.buffer m.tail item },
              loc := l.goto (.addIndex item) }
  | addIndex {item : T} (hpc : l.pc = .addIndex item) :
      Moves { mem := { m with tail := SizeT.bits64.wrap (m.tail + 1) % capacity },
              loc := l.goto (.addIncr item) }
  | addIncr {item : T} (hpc : l.pc = .addIncr item) :
      Moves { mem := { m with size := SizeT.bits64.wrap (m.size + 1) },
              loc := l.goto .addNotify, events := [.added item] }
  | addNotify {j : ι} (hpc : l.pc = .addNotify) (hin : j ∈ m.notEmpty) :
      Moves { mem := { m with notEmpty := m.notEmpty.erase j }, loc := l.goto .addUnlock }
  | addNotifyNone (hpc : l.pc = .addNotify) (hnone : m.notEmpty = ∅) :
      Moves { mem := m, loc := l.goto .addUnlock }
  | addUnlock (hpc : l.pc = .addUnlock) :
      Moves { mem := { m with tailMutex := none }, loc := l.goto .idle,
              events := [.addReturned] }
  | beginRemove {todo : List (QueueCall T)} (hpc : l.pc = .idle)
      (htodo : l.todo = .remove :: todo) : Moves { mem := m, loc := ⟨todo, .removeLock⟩ }
  | removeLock (hpc : l.pc = .removeLock) (hfree : m.headMutex = none) :
      Moves { mem := { m with headMutex := some i }, loc := l.goto .removeTest }
  | removeItem (hpc : l.pc = .removeTest) (hitem : 0 < m.size) :
      Moves { mem := m, loc := l.goto .removeRead }
  | removeEmpty (hpc : l.pc = .removeTest) (hempty : m.size = 0) :
      Moves { mem := m, loc := l.goto .removeWait }
  | removeWait (hpc : l.pc = .removeWait) :
      Moves { mem := { m with headMutex := none, notEmpty := insert i m.notEmpty },
              loc := l.goto .removeAsleep }
  | removeSpurious (hpc : l.pc = .removeAsleep) (hin : i ∈ m.notEmpty) :
      Moves { mem := { m with notEmpty := m.notEmpty.erase i }, loc := l }
  | removeWake (hpc : l.pc = .removeAsleep) (hout : i ∉ m.notEmpty)
      (hfree : m.headMutex = none) :
      Moves { mem := { m with headMutex := some i }, loc := l.goto .removeTest }
  | removeRead (hpc : l.pc = .removeRead) :
      Moves { mem := m, loc := l.goto (.removeIndex (m.buffer m.head)) }
  | removeIndex {out : T} (hpc : l.pc = .removeIndex out) :
      Moves { mem := { m with head := SizeT.bits64.wrap (m.head + 1) % capacity },
              loc := l.goto (.removeDecr out) }
  | removeDecr {out : T} (hpc : l.pc = .removeDecr out) :
      Moves { mem := { m with size := SizeT.bits64.wrap (m.size + (2 ^ 64 - 1)) },
              loc := l.goto (.removeNotify out), events := [.removed out] }
  | removeNotify {out : T} {j : ι} (hpc : l.pc = .removeNotify out) (hin : j ∈ m.notFull) :
      Moves { mem := { m with notFull := m.notFull.erase j }, loc := l.goto (.removeUnlock out) }
  | removeNotifyNone {out : T} (hpc : l.pc = .removeNotify out) (hnone : m.notFull = ∅) :
      Moves { mem := m, loc := l.goto (.removeUnlock out) }
  | removeUnlock {out : T} (hpc : l.pc = .removeUnlock out) :
      Moves { mem := { m with headMutex := none }, loc := l.goto .idle,
              events := [.removeReturned out] }

end Moves

theorem step_moves {capacity : ℕ} {i : ι} {m : Mem ι T} {l : Thread T} {choice : Choice ι}
    {o : Outcome (Mem ι T) (Thread T) (Event T)} (h : step capacity i m l choice = some o) :
  Moves capacity i m l o
  := by
  cases hpc : l.pc with
  | idle =>
      rcases htodo : l.todo with _ | ⟨_ | _, todo⟩
      · simp [step, hpc, htodo] at h
      · simp only [step, hpc, htodo, Option.some.injEq] at h
        subst h
        apply Moves.beginAdd hpc htodo
      · simp only [step, hpc, htodo, Option.some.injEq] at h
        subst h
        apply Moves.beginRemove hpc htodo
  | addLock item =>
      simp only [step, hpc, Option.ite_none_right_eq_some, Option.some.injEq] at h
      obtain ⟨hfree, rfl⟩ := h
      apply Moves.addLock hpc hfree
  | addTest item =>
      simp only [step, hpc] at h
      split_ifs at h with hroom
      · cases h
        apply Moves.addRoom hpc hroom
      · cases h
        apply Moves.addFull hpc (Nat.le_of_not_lt hroom)
  | addAsleep item =>
      simp only [step, hpc] at h
      split_ifs at h with hin hfree
      · cases choice with
        | spurious =>
            cases h
            apply Moves.addSpurious hpc hin
        | _ => cases h
      · cases h
        apply Moves.addWake hpc hin hfree
  | addNotify =>
      simp only [step, hpc] at h
      cases choice with
      | wake j =>
          simp only [Option.ite_none_right_eq_some, Option.some.injEq] at h
          obtain ⟨hin, rfl⟩ := h
          apply Moves.addNotify hpc hin
      | _ =>
          simp only [Option.ite_none_right_eq_some, Option.some.injEq] at h
          obtain ⟨hnone, rfl⟩ := h
          apply Moves.addNotifyNone hpc hnone
  | removeLock =>
      simp only [step, hpc, Option.ite_none_right_eq_some, Option.some.injEq] at h
      obtain ⟨hfree, rfl⟩ := h
      apply Moves.removeLock hpc hfree
  | removeTest =>
      simp only [step, hpc] at h
      split_ifs at h with hitem
      · cases h
        apply Moves.removeItem hpc hitem
      · cases h
        apply Moves.removeEmpty hpc (Nat.eq_zero_of_not_pos hitem)
  | removeAsleep =>
      simp only [step, hpc] at h
      split_ifs at h with hin hfree
      · cases choice with
        | spurious =>
            cases h
            apply Moves.removeSpurious hpc hin
        | _ => cases h
      · cases h
        apply Moves.removeWake hpc hin hfree
  | removeNotify out =>
      simp only [step, hpc] at h
      cases choice with
      | wake j =>
          simp only [Option.ite_none_right_eq_some, Option.some.injEq] at h
          obtain ⟨hin, rfl⟩ := h
          apply Moves.removeNotify hpc hin
      | _ =>
          simp only [Option.ite_none_right_eq_some, Option.some.injEq] at h
          obtain ⟨hnone, rfl⟩ := h
          apply Moves.removeNotifyNone hpc hnone
  | addIndex item =>
      simp only [step, hpc, Option.some.injEq] at h
      subst h
      apply Moves.addIndex hpc
  | addIncr item =>
      simp only [step, hpc, Option.some.injEq] at h
      subst h
      apply Moves.addIncr hpc
  | removeIndex out =>
      simp only [step, hpc, Option.some.injEq] at h
      subst h
      apply Moves.removeIndex hpc
  | removeDecr out =>
      simp only [step, hpc, Option.some.injEq] at h
      subst h
      apply Moves.removeDecr hpc
  | addWait item =>
      simp only [step, hpc, Option.some.injEq] at h
      subst h
      apply Moves.addWait hpc
  | addWrite item =>
      simp only [step, hpc, Option.some.injEq] at h
      subst h
      apply Moves.addWrite hpc
  | addUnlock =>
      simp only [step, hpc, Option.some.injEq] at h
      subst h
      apply Moves.addUnlock hpc
  | removeWait =>
      simp only [step, hpc, Option.some.injEq] at h
      subst h
      apply Moves.removeWait hpc
  | removeRead =>
      simp only [step, hpc, Option.some.injEq] at h
      subst h
      apply Moves.removeRead hpc
  | removeUnlock out =>
      simp only [step, hpc, Option.some.injEq] at h
      subst h
      apply Moves.removeUnlock hpc

end BlockingQueue

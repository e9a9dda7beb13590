import Mathlib.Algebra.BigOperators.Fin
import Mathlib.Data.Fintype.BigOperators
import ParallelArch.Concurrency.Lock
import ParallelArch.Concurrency.Threads

/-!
# The dining philosophers, version 1

Each of five philosophers locks its own chopstick, is counted under `wait_mutex`, locks the
next chopstick, eats, unlocks its own, is counted off and unlocks the other.  When `count` is
`5`, a philosopher prints `DeadLock!` and ends the process, either under `wait_mutex` after it
has destroyed the chopsticks or at the head of its loop.

The five threads start at the heads of their loops.  Locking or unlocking a destroyed mutex
has no step here.
-/

namespace Version1

/-- The global variables, with whether the process has ended. -/
structure Mem where
  mutex : Fin 5 → Mutex (Fin 5)
  waitMutex : Mutex (Fin 5)
  count : ℤ
  exited : Bool

/-- Where a philosopher is in `thinking_and_eating`. -/
inductive Pc where
  | top
  | headTest
  | headDeadLock
  | headExit
  | hunger
  | ownLock
  | waitLock
  | countUp
  | countTest
  | deadLock
  | destroy (i : ℕ)
  | waitUnlock
  | secondLock
  | eat
  | ownUnlock
  | leaveLock
  | countDown
  | leaveUnlock
  | secondUnlock
deriving DecidableEq

/-- The lines a philosopher prints. -/
inductive Event where
  | thinking
  | deadLock
  | hungry
  | eating
deriving DecidableEq

/-- One step of the philosopher `tid` in `thinking_and_eating`. -/
def thinkingAndEating (tid : Fin 5) (m : Mem) (pc : Pc) : Option (Outcome Mem Pc Event) :=
  match pc with
  | .top => some { mem := m, loc := .headTest, events := [.thinking] }
  | .headTest =>
      if m.count = 5 then some { mem := m, loc := .headDeadLock }
      else some { mem := m, loc := .hunger }
  | .headDeadLock => some { mem := m, loc := .headExit, events := [.deadLock] }
  | .headExit => some { mem := { m with exited := true }, loc := .headExit }
  | .hunger => some { mem := m, loc := .ownLock, events := [.hungry] }
  | .ownLock =>
      ((m.mutex tid).lock tid).map fun x =>
        { mem := { m with mutex := Function.update m.mutex tid x }, loc := .waitLock }
  | .waitLock =>
      (m.waitMutex.lock tid).map fun x => { mem := { m with waitMutex := x }, loc := .countUp }
  | .countUp => some { mem := { m with count := m.count + 1 }, loc := .countTest }
  | .countTest =>
      if m.count = 5 then some { mem := m, loc := .deadLock }
      else some { mem := m, loc := .waitUnlock }
  | .deadLock => some { mem := m, loc := .destroy 0, events := [.deadLock] }
  | .destroy i =>
      if hi : i < 5 then
        some { mem := { m with mutex := Function.update m.mutex ⟨i, hi⟩ (m.mutex ⟨i, hi⟩).destroy },
               loc := .destroy (i + 1) }
      else some { mem := { m with exited := true }, loc := .destroy i }
  | .waitUnlock =>
      m.waitMutex.unlock.map fun x => { mem := { m with waitMutex := x }, loc := .secondLock }
  | .secondLock =>
      ((m.mutex (tid + 1)).lock tid).map fun x =>
        { mem := { m with mutex := Function.update m.mutex (tid + 1) x }, loc := .eat }
  | .eat => some { mem := m, loc := .ownUnlock, events := [.eating] }
  | .ownUnlock =>
      (m.mutex tid).unlock.map fun x =>
        { mem := { m with mutex := Function.update m.mutex tid x }, loc := .leaveLock }
  | .leaveLock =>
      (m.waitMutex.lock tid).map fun x => { mem := { m with waitMutex := x }, loc := .countDown }
  | .countDown => some { mem := { m with count := m.count - 1 }, loc := .leaveUnlock }
  | .leaveUnlock =>
      m.waitMutex.unlock.map fun x => { mem := { m with waitMutex := x }, loc := .secondUnlock }
  | .secondUnlock =>
      (m.mutex (tid + 1)).unlock.map fun x =>
        { mem := { m with mutex := Function.update m.mutex (tid + 1) x }, loc := .top }

/-- One step of a thread, as long as the process runs. -/
def step (tid : Fin 5) (m : Mem) (pc : Pc) (_ : Unit) : Option (Outcome Mem Pc Event) :=
  if m.exited then none else thinkingAndEating tid m pc

/-- The variables when `main` has initialised the mutexes. -/
def Mem.new : Mem where
  mutex _ := .init
  waitMutex := .init
  count := 0
  exited := false

/-- The five threads. -/
def table : Machine (Global (Fin 5) Mem Pc) (Fin 5 × Unit) (Fin 5 × Event) :=
  threads (fun m l => m = .new ∧ ∀ tid, l tid = .top) step

/-! ### What a step can do -/

section Moves

variable (tid : Fin 5) (m : Mem)

/-- The steps of the philosopher `tid` by the point of its code, one constructor for each
branch. -/
inductive Moves : Pc → Outcome Mem Pc Event → Prop where
  | top : Moves .top { mem := m, loc := .headTest, events := [.thinking] }
  | headFull (hfull : m.count = 5) : Moves .headTest { mem := m, loc := .headDeadLock }
  | headGo (hfull : m.count ≠ 5) : Moves .headTest { mem := m, loc := .hunger }
  | headDeadLock : Moves .headDeadLock { mem := m, loc := .headExit, events := [.deadLock] }
  | headExit : Moves .headExit { mem := { m with exited := true }, loc := .headExit }
  | hunger : Moves .hunger { mem := m, loc := .ownLock, events := [.hungry] }
  | ownLock (hfree : m.mutex tid = .init) :
      Moves .ownLock
        { mem := { m with mutex := Function.update m.mutex tid ⟨some tid, false⟩ },
          loc := .waitLock }
  | waitLock (hfree : m.waitMutex = .init) :
      Moves .waitLock { mem := { m with waitMutex := ⟨some tid, false⟩ }, loc := .countUp }
  | countUp : Moves .countUp { mem := { m with count := m.count + 1 }, loc := .countTest }
  | full (hfull : m.count = 5) : Moves .countTest { mem := m, loc := .deadLock }
  | notFull (hfull : m.count ≠ 5) : Moves .countTest { mem := m, loc := .waitUnlock }
  | deadLock : Moves .deadLock { mem := m, loc := .destroy 0, events := [.deadLock] }
  | destroy (i : Fin 5) :
      Moves (.destroy i)
        { mem := { m with mutex := Function.update m.mutex i (m.mutex i).destroy },
          loc := .destroy (i + 1) }
  | exit (i : ℕ) (hi : 5 ≤ i) :
      Moves (.destroy i) { mem := { m with exited := true }, loc := .destroy i }
  | waitUnlock : Moves .waitUnlock { mem := { m with waitMutex := .init }, loc := .secondLock }
  | secondLock (hfree : m.mutex (tid + 1) = .init) :
      Moves .secondLock
        { mem := { m with mutex := Function.update m.mutex (tid + 1) ⟨some tid, false⟩ },
          loc := .eat }
  | eat : Moves .eat { mem := m, loc := .ownUnlock, events := [.eating] }
  | ownUnlock :
      Moves .ownUnlock
        { mem := { m with mutex := Function.update m.mutex tid .init }, loc := .leaveLock }
  | leaveLock (hfree : m.waitMutex = .init) :
      Moves .leaveLock { mem := { m with waitMutex := ⟨some tid, false⟩ }, loc := .countDown }
  | countDown : Moves .countDown { mem := { m with count := m.count - 1 }, loc := .leaveUnlock }
  | leaveUnlock :
      Moves .leaveUnlock { mem := { m with waitMutex := .init }, loc := .secondUnlock }
  | secondUnlock :
      Moves .secondUnlock
        { mem := { m with mutex := Function.update m.mutex (tid + 1) .init }, loc := .top }

end Moves

theorem thinkingAndEating_moves {tid : Fin 5} {m : Mem} {pc : Pc} {o : Outcome Mem Pc Event}
    (h : thinkingAndEating tid m pc = some o) :
  Moves tid m pc o
  := by
  cases pc with
  | headTest =>
      simp only [thinkingAndEating] at h
      split_ifs at h with hfull <;> cases h
      · apply Moves.headFull hfull
      · apply Moves.headGo hfull
  | countTest =>
      simp only [thinkingAndEating] at h
      split_ifs at h with hfull <;> cases h
      · apply Moves.full hfull
      · apply Moves.notFull hfull
  | destroy i =>
      simp only [thinkingAndEating] at h
      split_ifs at h with hi <;> cases h
      · exact Moves.destroy ⟨i, hi⟩
      · apply Moves.exit i (Nat.le_of_not_lt hi)
  | ownLock | waitLock | secondLock | leaveLock =>
      simp only [thinkingAndEating, Option.map_eq_some_iff, Mutex.lock_eq_some] at h
      obtain ⟨x, ⟨hfree, rfl⟩, rfl⟩ := h
      constructor
      apply hfree
  | waitUnlock | ownUnlock | leaveUnlock | secondUnlock =>
      simp only [thinkingAndEating, Option.map_eq_some_iff, Mutex.unlock_eq_some] at h
      obtain ⟨x, ⟨-, rfl⟩, rfl⟩ := h
      constructor
  | top | headDeadLock | headExit | hunger | countUp | deadLock | eat | countDown =>
      cases h
      constructor

/-! ### What a philosopher holds -/

/-- The philosopher holds its own chopstick. -/
def Pc.own : Pc → Prop
  | .waitLock | .countUp | .countTest | .deadLock | .destroy _ | .waitUnlock | .secondLock
  | .eat | .ownUnlock => True
  | _ => False

/-- The philosopher holds its second chopstick. -/
def Pc.second : Pc → Prop
  | .eat | .ownUnlock | .leaveLock | .countDown | .leaveUnlock | .secondUnlock => True
  | _ => False

/-- The philosopher `x.1`, which is at `x.2`, holds the chopstick `k`. -/
def holds (k : Fin 5) (x : Fin 5 × Pc) : Prop :=
  k = x.1 ∧ x.2.own ∨ k = x.1 + 1 ∧ x.2.second

end Version1

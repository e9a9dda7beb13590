import ParallelArch.Concurrency.Lock
import ParallelArch.Concurrency.Threads

/-!
# The dining philosophers, versions 3 and 4

`main` reads the number `n` of philosophers, creates their threads, waits for the line `n`,
sets `exit_flag`, joins threads and destroys the mutexes.  A philosopher takes a seat under
`wait_mutex` (at most `n - 1` are seated), takes its two chopsticks under `mutex`, gives the
seat back, eats, and gives the chopsticks back under `mutex`.

The flags `chopsticks` are indexed by `tid` and `(tid + 1) % 5`, whatever `n` is, and `main`
joins five threads.  Locking or unlocking a destroyed mutex, and joining a thread outside
the array, have no step here.  Version 3 is the same program for five philosophers.
-/

namespace Version4

/-- The threads: `none` is `main`, `some tid` a philosopher. -/
abbrev Party (n : ℕ) := Option (Fin n)

/-- The global variables, with how many threads `main` has created and which have returned,
and whether the process has ended. -/
structure Mem (n : ℕ) where
  exitFlag : Bool
  count : ℤ
  mutex : Mutex (Party n)
  waitMutex : Mutex (Party n)
  exitMutex : Mutex (Party n)
  chopsticks : ℕ → Bool
  created : ℕ
  returned : Finset (Fin n)
  exited : Bool

/-- Where a thread is: a philosopher in `thinking_and_eating`, from `unborn` to `done`, or
`main`, from `create` on. -/
inductive Pc where
  | unborn
  | top
  | think
  | hunger
  | waitLock
  | seatTest
  | seatSpin
  | seatTake
  | seatUnlock
  | tableLock
  | leftTest
  | rightTest
  | tableSpin
  | takeLeft
  | takeRight
  | tableUnlock
  | leaveLock
  | leaveCount
  | leaveUnlock
  | eat
  | giveLock
  | giveLeft
  | giveRight
  | giveUnlock
  | done
  | create (i : ℕ)
  | read
  | exitLock
  | exitSet
  | exitUnlock
  | join (i : ℕ)
  | destroy (k code : ℕ)
  | exited (code : ℕ)
deriving DecidableEq

/-- The lines a philosopher prints. -/
inductive Event where
  | thinking
  | hungry
  | eating
deriving DecidableEq

/-- What the environment decides: a thread cannot be created, or the line `n` is read. -/
inductive Choice where
  | go
  | fail
  | quit
deriving DecidableEq

variable {n : ℕ}

/-- One step of the philosopher `tid` in `thinking_and_eating`. -/
def thinkingAndEating (tid : Fin n) (m : Mem n) (pc : Pc) : Option (Outcome (Mem n) Pc Event) :=
  match pc with
  | .unborn => if tid.val < m.created then some { mem := m, loc := .top } else none
  | .top =>
      if m.exitFlag then some { mem := { m with returned := insert tid m.returned }, loc := .done }
      else some { mem := m, loc := .think }
  | .think => some { mem := m, loc := .hunger, events := [.thinking] }
  | .hunger => some { mem := m, loc := .waitLock, events := [.hungry] }
  | .waitLock =>
      (m.waitMutex.lock (some tid)).map fun x =>
        { mem := { m with waitMutex := x }, loc := .seatTest }
  | .seatTest =>
      if m.count = n - 1 then some { mem := m, loc := .seatSpin }
      else some { mem := m, loc := .seatTake }
  | .seatSpin =>
      m.waitMutex.unlock.map fun x => { mem := { m with waitMutex := x }, loc := .waitLock }
  | .seatTake => some { mem := { m with count := m.count + 1 }, loc := .seatUnlock }
  | .seatUnlock =>
      m.waitMutex.unlock.map fun x => { mem := { m with waitMutex := x }, loc := .tableLock }
  | .tableLock =>
      (m.mutex.lock (some tid)).map fun x => { mem := { m with mutex := x }, loc := .leftTest }
  | .leftTest =>
      if m.chopsticks tid.val then some { mem := m, loc := .rightTest }
      else some { mem := m, loc := .tableSpin }
  | .rightTest =>
      if m.chopsticks ((tid.val + 1) % 5) then some { mem := m, loc := .takeLeft }
      else some { mem := m, loc := .tableSpin }
  | .tableSpin =>
      m.mutex.unlock.map fun x => { mem := { m with mutex := x }, loc := .tableLock }
  | .takeLeft =>
      some { mem := { m with chopsticks := Function.update m.chopsticks tid.val false },
             loc := .takeRight }
  | .takeRight =>
      some { mem := { m with chopsticks := Function.update m.chopsticks ((tid.val + 1) % 5) false },
             loc := .tableUnlock }
  | .tableUnlock =>
      m.mutex.unlock.map fun x => { mem := { m with mutex := x }, loc := .leaveLock }
  | .leaveLock =>
      (m.waitMutex.lock (some tid)).map fun x =>
        { mem := { m with waitMutex := x }, loc := .leaveCount }
  | .leaveCount => some { mem := { m with count := m.count - 1 }, loc := .leaveUnlock }
  | .leaveUnlock =>
      m.waitMutex.unlock.map fun x => { mem := { m with waitMutex := x }, loc := .eat }
  | .eat => some { mem := m, loc := .giveLock, events := [.eating] }
  | .giveLock =>
      (m.mutex.lock (some tid)).map fun x => { mem := { m with mutex := x }, loc := .giveLeft }
  | .giveLeft =>
      some { mem := { m with chopsticks := Function.update m.chopsticks tid.val true },
             loc := .giveRight }
  | .giveRight =>
      some { mem := { m with chopsticks := Function.update m.chopsticks ((tid.val + 1) % 5) true },
             loc := .giveUnlock }
  | .giveUnlock =>
      m.mutex.unlock.map fun x => { mem := { m with mutex := x }, loc := .top }
  | _ => none

/-- One step of `main`, from the loop that creates the threads on. -/
def main (m : Mem n) (pc : Pc) (choice : Choice) : Option (Outcome (Mem n) Pc Event) :=
  match pc with
  | .create i =>
      if i < n then
        match choice with
        | .fail => some { mem := m, loc := .destroy 0 1 }
        | _ => some { mem := { m with created := i + 1 }, loc := .create (i + 1) }
      else some { mem := m, loc := .read }
  | .read =>
      match choice with
      | .quit => some { mem := m, loc := .exitLock }
      | _ => some { mem := m, loc := .read }
  | .exitLock =>
      (m.exitMutex.lock none).map fun x => { mem := { m with exitMutex := x }, loc := .exitSet }
  | .exitSet => some { mem := { m with exitFlag := true }, loc := .exitUnlock }
  | .exitUnlock =>
      m.exitMutex.unlock.map fun x => { mem := { m with exitMutex := x }, loc := .join 0 }
  | .join i =>
      if i < 5 then
        if ∃ tid ∈ m.returned, tid.val = i then some { mem := m, loc := .join (i + 1) } else none
      else some { mem := m, loc := .destroy 0 0 }
  | .destroy 0 code =>
      some { mem := { m with mutex := m.mutex.destroy }, loc := .destroy 1 code }
  | .destroy 1 code =>
      some { mem := { m with waitMutex := m.waitMutex.destroy }, loc := .destroy 2 code }
  | .destroy 2 code =>
      some { mem := { m with exitMutex := m.exitMutex.destroy }, loc := .destroy 3 code }
  | .destroy _ code => some { mem := { m with exited := true }, loc := .exited code }
  | _ => none

/-- One step of a thread, as long as the process runs. -/
def step (n : ℕ) (i : Party n) (m : Mem n) (pc : Pc) (choice : Choice) :
    Option (Outcome (Mem n) Pc Event) :=
  if m.exited then none
  else
    match i with
    | none => main m pc choice
    | some tid => thinkingAndEating tid m pc

/-- The variables when `main` has read `n`, initialised the mutexes and resized
`chopsticks`. -/
def Mem.new (n : ℕ) : Mem n where
  exitFlag := false
  count := 0
  mutex := .init
  waitMutex := .init
  exitMutex := .init
  chopsticks _ := true
  created := 0
  returned := ∅
  exited := false

/-- The program for `n` philosophers. -/
def table (n : ℕ) : Machine (Global (Party n) (Mem n) Pc) (Party n × Choice) (Party n × Event) :=
  threads (fun m l => m = .new n ∧ l none = .create 0 ∧ ∀ tid, l (some tid) = .unborn) (step n)

/-! ### What a step can do -/

section Moves

variable (tid : Fin n) (m : Mem n)

/-- The steps of the philosopher `tid` by the point of its code, one constructor for each
branch. -/
inductive Moves : Pc → Outcome (Mem n) Pc Event → Prop where
  | born (hcreated : tid.val < m.created) : Moves .unborn { mem := m, loc := .top }
  | leave (hflag : m.exitFlag = true) :
      Moves .top { mem := { m with returned := insert tid m.returned }, loc := .done }
  | stay (hflag : m.exitFlag = false) : Moves .top { mem := m, loc := .think }
  | think : Moves .think { mem := m, loc := .hunger, events := [.thinking] }
  | hunger : Moves .hunger { mem := m, loc := .waitLock, events := [.hungry] }
  | waitLock (hfree : m.waitMutex = .init) :
      Moves .waitLock
        { mem := { m with waitMutex := ⟨some (some tid), false⟩ }, loc := .seatTest }
  | seatFull (hfull : m.count = n - 1) : Moves .seatTest { mem := m, loc := .seatSpin }
  | seatRoom (hroom : m.count ≠ n - 1) : Moves .seatTest { mem := m, loc := .seatTake }
  | seatSpin (halive : m.waitMutex.destroyed = false) :
      Moves .seatSpin { mem := { m with waitMutex := .init }, loc := .waitLock }
  | seatTake : Moves .seatTake { mem := { m with count := m.count + 1 }, loc := .seatUnlock }
  | seatUnlock (halive : m.waitMutex.destroyed = false) :
      Moves .seatUnlock { mem := { m with waitMutex := .init }, loc := .tableLock }
  | tableLock (hfree : m.mutex = .init) :
      Moves .tableLock { mem := { m with mutex := ⟨some (some tid), false⟩ }, loc := .leftTest }
  | leftFree (hleft : m.chopsticks tid.val = true) :
      Moves .leftTest { mem := m, loc := .rightTest }
  | leftTaken (hleft : m.chopsticks tid.val = false) :
      Moves .leftTest { mem := m, loc := .tableSpin }
  | rightFree (hright : m.chopsticks ((tid.val + 1) % 5) = true) :
      Moves .rightTest { mem := m, loc := .takeLeft }
  | rightTaken (hright : m.chopsticks ((tid.val + 1) % 5) = false) :
      Moves .rightTest { mem := m, loc := .tableSpin }
  | tableSpin (halive : m.mutex.destroyed = false) :
      Moves .tableSpin { mem := { m with mutex := .init }, loc := .tableLock }
  | takeLeft :
      Moves .takeLeft
        { mem := { m with chopsticks := Function.update m.chopsticks tid.val false },
          loc := .takeRight }
  | takeRight :
      Moves .takeRight
        { mem := { m with chopsticks :=
            Function.update m.chopsticks ((tid.val + 1) % 5) false },
          loc := .tableUnlock }
  | tableUnlock (halive : m.mutex.destroyed = false) :
      Moves .tableUnlock { mem := { m with mutex := .init }, loc := .leaveLock }
  | leaveLock (hfree : m.waitMutex = .init) :
      Moves .leaveLock
        { mem := { m with waitMutex := ⟨some (some tid), false⟩ }, loc := .leaveCount }
  | leaveCount :
      Moves .leaveCount { mem := { m with count := m.count - 1 }, loc := .leaveUnlock }
  | leaveUnlock (halive : m.waitMutex.destroyed = false) :
      Moves .leaveUnlock { mem := { m with waitMutex := .init }, loc := .eat }
  | eat : Moves .eat { mem := m, loc := .giveLock, events := [.eating] }
  | giveLock (hfree : m.mutex = .init) :
      Moves .giveLock { mem := { m with mutex := ⟨some (some tid), false⟩ }, loc := .giveLeft }
  | giveLeft :
      Moves .giveLeft
        { mem := { m with chopsticks := Function.update m.chopsticks tid.val true },
          loc := .giveRight }
  | giveRight :
      Moves .giveRight
        { mem := { m with chopsticks :=
            Function.update m.chopsticks ((tid.val + 1) % 5) true },
          loc := .giveUnlock }
  | giveUnlock (halive : m.mutex.destroyed = false) :
      Moves .giveUnlock { mem := { m with mutex := .init }, loc := .top }

end Moves

theorem thinkingAndEating_moves {tid : Fin n} {m : Mem n} {pc : Pc}
    {o : Outcome (Mem n) Pc Event} (h : thinkingAndEating tid m pc = some o) :
  Moves tid m pc o
  := by
  cases pc with
  | unborn =>
      simp only [thinkingAndEating, Option.ite_none_right_eq_some, Option.some.injEq] at h
      obtain ⟨hcreated, rfl⟩ := h
      apply Moves.born hcreated
  | top =>
      simp only [thinkingAndEating] at h
      split_ifs at h with hflag <;> cases h
      · apply Moves.leave hflag
      · apply Moves.stay (Bool.eq_false_of_not_eq_true hflag)
  | seatTest =>
      simp only [thinkingAndEating] at h
      split_ifs at h with hfull <;> cases h
      · apply Moves.seatFull hfull
      · apply Moves.seatRoom hfull
  | leftTest =>
      simp only [thinkingAndEating] at h
      split_ifs at h with hleft <;> cases h
      · apply Moves.leftFree hleft
      · apply Moves.leftTaken (Bool.eq_false_of_not_eq_true hleft)
  | rightTest =>
      simp only [thinkingAndEating] at h
      split_ifs at h with hright <;> cases h
      · apply Moves.rightFree hright
      · apply Moves.rightTaken (Bool.eq_false_of_not_eq_true hright)
  | waitLock | tableLock | leaveLock | giveLock =>
      simp only [thinkingAndEating, Option.map_eq_some_iff, Mutex.lock_eq_some] at h
      obtain ⟨x, ⟨hfree, rfl⟩, rfl⟩ := h
      constructor
      apply hfree
  | seatSpin | seatUnlock | tableSpin | tableUnlock | leaveUnlock | giveUnlock =>
      simp only [thinkingAndEating, Option.map_eq_some_iff, Mutex.unlock_eq_some] at h
      obtain ⟨x, ⟨halive, rfl⟩, rfl⟩ := h
      constructor
      apply halive
  | think | hunger | seatTake | takeLeft | takeRight | leaveCount | eat | giveLeft | giveRight =>
      simp only [thinkingAndEating, Option.some.injEq] at h
      subst h
      constructor
  | done | create | read | exitLock | exitSet | exitUnlock | join | destroy | exited => cases h

/-- Where `main` may be. -/
def Pc.inMain : Pc → Prop
  | .create _ | .read | .exitLock | .exitSet | .exitUnlock | .join _ | .destroy _ _ => True
  | .exited _ => True
  | _ => False

/-- `main` stays in its own code and leaves seats and chopsticks to the philosophers. -/
theorem main_frame {m : Mem n} {pc : Pc} {choice : Choice} {o : Outcome (Mem n) Pc Event}
    (h : main m pc choice = some o) :
  pc.inMain ∧ o.loc.inMain ∧ o.mem.count = m.count ∧ o.mem.chopsticks = m.chopsticks ∧
    o.mem.mutex.holder = m.mutex.holder ∧ o.mem.waitMutex.holder = m.waitMutex.holder
  := by
  cases pc with
  | create i =>
      simp only [main] at h
      split_ifs at h
      · cases choice <;> cases h <;> simp [Pc.inMain]
      · cases h
        simp [Pc.inMain]
  | read =>
      cases choice <;> cases h <;> simp [Pc.inMain]
  | exitLock | exitUnlock =>
      simp only [main, Option.map_eq_some_iff] at h
      obtain ⟨x, -, rfl⟩ := h
      simp [Pc.inMain]
  | exitSet =>
      cases h
      simp [Pc.inMain]
  | join i =>
      simp only [main] at h
      split_ifs at h <;> cases h <;> simp [Pc.inMain]
  | destroy k code =>
      rcases k with _ | _ | _ | k <;> cases h <;> simp [Pc.inMain, Mutex.destroy]
  | _ => cases h

end Version4

namespace Version3

/-- The program of version 3: five chopsticks, five threads, and a philosopher waits while
`count` is `4`. -/
def table : Machine (Global (Version4.Party 5) (Version4.Mem 5) Version4.Pc)
    (Version4.Party 5 × Version4.Choice) (Version4.Party 5 × Version4.Event) :=
  Version4.table 5

end Version3

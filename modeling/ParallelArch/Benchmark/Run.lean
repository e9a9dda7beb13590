import Mathlib.Data.Finset.Insert
import Mathlib.Tactic.SplitIfs
import ParallelArch.Concurrency.Threads

/-!
# A benchmark run

`run_benchmark_queue` creates the workers, waits until `ready_count` has reached their
number, sets `start_flag` and joins them.  It leaves the ready loop early if `fatal_error`
is set or the deadline has passed; then it joins the workers and throws, and `main` turns
the exception into the exit code `2`.  A worker catches what its body throws, sets
`fatal_error` and throws again.  An exception that leaves a worker ends the process.

The environment decides which points of a body throw, and when the deadline has passed.
What a worker does to the queue is left out: a call to the queue returns or throws.
-/

namespace Benchmark

/-- The threads: `none` is `main`, `some tid` a worker. -/
abbrev Party (n : ℕ) := Option (Fin n)

/-- `TOTAL_OPERATIONS`. -/
def totalOperations : ℕ := 2 ^ 20

/-- `ops_per_thread`. -/
def opsPerThread (threads : ℕ) : ℕ := totalOperations / threads

/-- What a worker catches: a `std::exception`, or anything else. -/
inductive Thrown where
  | exception
  | unknown
deriving DecidableEq

/-- The points of the body of a worker: the calls on the flags, the sleep, and the
operations on the queue. -/
inductive Point where
  | signal
  | startTest
  | fatalTest
  | sleep
  | op (i : ℕ)
deriving DecidableEq

/-- Why `run_benchmark_queue` throws. -/
inductive Failure where
  | fatalBeforeStart
  | timeout
  | fatalInWorker
deriving DecidableEq

/-- The text of the `runtime_error`. -/
def Failure.what : Failure → String
  | .fatalBeforeStart => "Fatal error occurred before start"
  | .timeout => "Timeout waiting for threads to become ready"
  | .fatalInWorker => "Fatal error occurred in one of the worker threads"

/-- The shared variables, with how many workers have been created and which have returned,
and whether `std::terminate` has been called. -/
structure Mem (n : ℕ) where
  readyCount : ℕ
  startFlag : Bool
  fatalError : Bool
  created : ℕ
  returned : Finset (Fin n)
  terminated : Bool

/-- Where a thread is: a worker in `worker_fn`, from `unborn` to `done`, or the main flow,
from `create` on. -/
inductive Pc where
  | unborn
  | body (point : Point)
  | loop (i : ℕ)
  | caught (thrown : Thrown)
  | rethrow (thrown : Thrown)
  | threwOut
  | done
  | create (t : ℕ)
  | readyTest
  | fatalTest
  | deadlineTest
  | sleep
  | leave (failure : Failure) (t : ℕ)
  | start
  | join (t : ℕ)
  | check
  | threw (failure : Failure)
  | finished
  | exited (code : ℕ)
deriving DecidableEq

/-- The lines on `std::cerr`. -/
inductive Event where
  | caught (thrown : Thrown)
  | timeout (ready expected : ℕ)
  | aborted (what : String)
deriving DecidableEq

/-- What the environment decides: the body of a worker throws, or the deadline has
passed. -/
inductive Choice where
  | go
  | throws (thrown : Thrown)
  | late

variable {n : ℕ}

/-- One step of the worker `tid` in `worker_fn`. -/
def worker (tid : Fin n) (m : Mem n) (pc : Pc) (choice : Choice) :
    Option (Outcome (Mem n) Pc Event) :=
  match pc with
  | .unborn => if tid.val < m.created then some { mem := m, loc := .body .signal } else none
  | .body point =>
      match choice with
      | .throws thrown => some { mem := m, loc := .caught thrown }
      | .late => none
      | .go =>
          match point with
          | .signal =>
              some { mem := { m with readyCount := m.readyCount + 1 }, loc := .body .startTest }
          | .startTest =>
              if m.startFlag then some { mem := m, loc := .loop 0 }
              else some { mem := m, loc := .body .fatalTest }
          | .fatalTest =>
              if m.fatalError then
                some { mem := { m with returned := insert tid m.returned }, loc := .done }
              else some { mem := m, loc := .body .sleep }
          | .sleep => some { mem := m, loc := .body .startTest }
          | .op i => some { mem := m, loc := .loop (i + 1) }
  | .loop i =>
      if i < opsPerThread n then some { mem := m, loc := .body (.op i) }
      else some { mem := { m with returned := insert tid m.returned }, loc := .done }
  | .caught thrown =>
      some { mem := { m with fatalError := true }, loc := .rethrow thrown,
             events := [.caught thrown] }
  | .rethrow _ => some { mem := { m with terminated := true }, loc := .threwOut }
  | _ => none

/-- One step of the main flow, from the loop that creates the workers to the handler in
`main`. -/
def main (m : Mem n) (pc : Pc) (choice : Choice) : Option (Outcome (Mem n) Pc Event) :=
  match pc with
  | .create t =>
      if t < n then some { mem := { m with created := t + 1 }, loc := .create (t + 1) }
      else some { mem := m, loc := .readyTest }
  | .readyTest =>
      if m.readyCount ≠ n then some { mem := m, loc := .fatalTest }
      else some { mem := m, loc := .start }
  | .fatalTest =>
      if m.fatalError then some { mem := m, loc := .leave .fatalBeforeStart 0 }
      else some { mem := m, loc := .deadlineTest }
  | .deadlineTest =>
      match choice with
      | .late =>
          some { mem := m, loc := .leave .timeout 0, events := [.timeout m.readyCount n] }
      | _ => some { mem := m, loc := .sleep }
  | .sleep => some { mem := m, loc := .readyTest }
  | .leave failure t =>
      if t < n then
        if ∃ tid ∈ m.returned, tid.val = t then some { mem := m, loc := .leave failure (t + 1) }
        else none
      else some { mem := m, loc := .threw failure }
  | .start => some { mem := { m with startFlag := true }, loc := .join 0 }
  | .join t =>
      if t < n then
        if ∃ tid ∈ m.returned, tid.val = t then some { mem := m, loc := .join (t + 1) } else none
      else some { mem := m, loc := .check }
  | .check =>
      if m.fatalError then some { mem := m, loc := .threw .fatalInWorker }
      else some { mem := m, loc := .finished }
  | .threw failure =>
      some { mem := m, loc := .exited 2, events := [.aborted failure.what] }
  | _ => none

/-- One step of a thread, as long as the process runs. -/
def step (i : Party n) (m : Mem n) (pc : Pc) (choice : Choice) :
    Option (Outcome (Mem n) Pc Event) :=
  if m.terminated then none
  else
    match i with
    | none => main m pc choice
    | some tid => worker tid m pc choice

/-- The variables before the first worker is created. -/
def Mem.new (n : ℕ) : Mem n where
  readyCount := 0
  startFlag := false
  fatalError := false
  created := 0
  returned := ∅
  terminated := false

/-- The run with `n` workers. -/
def benchmark (n : ℕ) : Machine (Global (Party n) (Mem n) Pc) (Party n × Choice)
    (Party n × Event) :=
  threads (fun m l => m = .new n ∧ l none = .create 0 ∧ ∀ tid, l (some tid) = .unborn) step

/-! ### What a step can do -/

section Moves

variable (m : Mem n)

/-- The steps of the worker `tid` by the point of its code, one constructor for each
branch. -/
inductive Moves (tid : Fin n) : Pc → Choice → Outcome (Mem n) Pc Event → Prop where
  | born {choice : Choice} (hcreated : tid.val < m.created) :
      Moves tid .unborn choice { mem := m, loc := .body .signal }
  | throws {point : Point} {thrown : Thrown} :
      Moves tid (.body point) (.throws thrown) { mem := m, loc := .caught thrown }
  | signal :
      Moves tid (.body .signal) .go
        { mem := { m with readyCount := m.readyCount + 1 }, loc := .body .startTest }
  | started (hstart : m.startFlag = true) :
      Moves tid (.body .startTest) .go { mem := m, loc := .loop 0 }
  | notStarted (hstart : m.startFlag = false) :
      Moves tid (.body .startTest) .go { mem := m, loc := .body .fatalTest }
  | givesUp (hfatal : m.fatalError = true) :
      Moves tid (.body .fatalTest) .go
        { mem := { m with returned := insert tid m.returned }, loc := .done }
  | notFatal (hfatal : m.fatalError = false) :
      Moves tid (.body .fatalTest) .go { mem := m, loc := .body .sleep }
  | sleep : Moves tid (.body .sleep) .go { mem := m, loc := .body .startTest }
  | op {i : ℕ} : Moves tid (.body (.op i)) .go { mem := m, loc := .loop (i + 1) }
  | next {choice : Choice} {i : ℕ} (hi : i < opsPerThread n) :
      Moves tid (.loop i) choice { mem := m, loc := .body (.op i) }
  | returns {choice : Choice} {i : ℕ} (hi : ¬ i < opsPerThread n) :
      Moves tid (.loop i) choice
        { mem := { m with returned := insert tid m.returned }, loc := .done }
  | caught {choice : Choice} {thrown : Thrown} :
      Moves tid (.caught thrown) choice
        { mem := { m with fatalError := true }, loc := .rethrow thrown,
          events := [.caught thrown] }
  | rethrow {choice : Choice} {thrown : Thrown} :
      Moves tid (.rethrow thrown) choice { mem := { m with terminated := true }, loc := .threwOut }

/-- The steps of the main flow by the point of its code. -/
inductive MainMoves : Pc → Choice → Outcome (Mem n) Pc Event → Prop where
  | create {choice : Choice} {t : ℕ} (ht : t < n) :
      MainMoves (.create t) choice { mem := { m with created := t + 1 }, loc := .create (t + 1) }
  | created {choice : Choice} {t : ℕ} (ht : ¬ t < n) :
      MainMoves (.create t) choice { mem := m, loc := .readyTest }
  | notReady {choice : Choice} (hready : m.readyCount ≠ n) :
      MainMoves .readyTest choice { mem := m, loc := .fatalTest }
  | ready {choice : Choice} (hready : m.readyCount = n) :
      MainMoves .readyTest choice { mem := m, loc := .start }
  | fatal {choice : Choice} (hfatal : m.fatalError = true) :
      MainMoves .fatalTest choice { mem := m, loc := .leave .fatalBeforeStart 0 }
  | notFatal {choice : Choice} (hfatal : m.fatalError = false) :
      MainMoves .fatalTest choice { mem := m, loc := .deadlineTest }
  | late :
      MainMoves .deadlineTest .late
        { mem := m, loc := .leave .timeout 0, events := [.timeout m.readyCount n] }
  | inTime {choice : Choice} (hlate : choice ≠ .late) :
      MainMoves .deadlineTest choice { mem := m, loc := .sleep }
  | sleep {choice : Choice} : MainMoves .sleep choice { mem := m, loc := .readyTest }
  | leaveJoin {choice : Choice} {failure : Failure} {t : ℕ} (ht : t < n)
      (hreturned : ∃ tid ∈ m.returned, tid.val = t) :
      MainMoves (.leave failure t) choice { mem := m, loc := .leave failure (t + 1) }
  | leaveThrow {choice : Choice} {failure : Failure} {t : ℕ} (ht : ¬ t < n) :
      MainMoves (.leave failure t) choice { mem := m, loc := .threw failure }
  | start {choice : Choice} :
      MainMoves .start choice { mem := { m with startFlag := true }, loc := .join 0 }
  | join {choice : Choice} {t : ℕ} (ht : t < n) (hreturned : ∃ tid ∈ m.returned, tid.val = t) :
      MainMoves (.join t) choice { mem := m, loc := .join (t + 1) }
  | joined {choice : Choice} {t : ℕ} (ht : ¬ t < n) :
      MainMoves (.join t) choice { mem := m, loc := .check }
  | checkFatal {choice : Choice} (hfatal : m.fatalError = true) :
      MainMoves .check choice { mem := m, loc := .threw .fatalInWorker }
  | checkFine {choice : Choice} (hfatal : m.fatalError = false) :
      MainMoves .check choice { mem := m, loc := .finished }
  | threw {choice : Choice} {failure : Failure} :
      MainMoves (.threw failure) choice
        { mem := m, loc := .exited 2, events := [.aborted failure.what] }

end Moves

variable {m : Mem n} {pc : Pc} {choice : Choice} {o : Outcome (Mem n) Pc Event}

theorem worker_moves {tid : Fin n} (h : worker tid m pc choice = some o) :
  Moves m tid pc choice o
  := by
  cases pc with
  | unborn =>
      simp only [worker, Option.ite_none_right_eq_some, Option.some.injEq] at h
      obtain ⟨hcreated, rfl⟩ := h
      apply Moves.born hcreated
  | body point =>
      cases choice with
      | throws thrown =>
          cases h
          apply Moves.throws
      | late => cases h
      | go =>
          cases point with
          | startTest =>
              simp only [worker] at h
              split_ifs at h with hstart <;> cases h
              · apply Moves.started hstart
              · apply Moves.notStarted (Bool.eq_false_of_not_eq_true hstart)
          | fatalTest =>
              simp only [worker] at h
              split_ifs at h with hfatal <;> cases h
              · apply Moves.givesUp hfatal
              · apply Moves.notFatal (Bool.eq_false_of_not_eq_true hfatal)
          | signal | sleep | op =>
              cases h
              constructor
  | loop i =>
      simp only [worker] at h
      split_ifs at h with hi <;> cases h
      · apply Moves.next hi
      · apply Moves.returns hi
  | caught | rethrow =>
      cases h
      constructor
  | _ => cases h

theorem main_moves (h : main m pc choice = some o) :
  MainMoves m pc choice o
  := by
  cases pc with
  | create t =>
      simp only [main] at h
      split_ifs at h with ht <;> cases h
      · apply MainMoves.create ht
      · apply MainMoves.created ht
  | readyTest =>
      simp only [main] at h
      split_ifs at h with hready <;> cases h
      · apply MainMoves.notReady hready
      · apply MainMoves.ready (not_not.mp hready)
  | fatalTest =>
      simp only [main] at h
      split_ifs at h with hfatal <;> cases h
      · apply MainMoves.fatal hfatal
      · apply MainMoves.notFatal (Bool.eq_false_of_not_eq_true hfatal)
  | deadlineTest =>
      cases choice <;> cases h
      · apply MainMoves.inTime
        rintro ⟨⟩
      · apply MainMoves.inTime
        rintro ⟨⟩
      · apply MainMoves.late
  | leave failure t =>
      simp only [main] at h
      split_ifs at h with ht hreturned <;> cases h
      · apply MainMoves.leaveJoin ht hreturned
      · apply MainMoves.leaveThrow ht
  | join t =>
      simp only [main] at h
      split_ifs at h with ht hreturned <;> cases h
      · apply MainMoves.join ht hreturned
      · apply MainMoves.joined ht
  | check =>
      simp only [main] at h
      split_ifs at h with hfatal <;> cases h
      · apply MainMoves.checkFatal hfatal
      · apply MainMoves.checkFine (Bool.eq_false_of_not_eq_true hfatal)
  | sleep | start | threw =>
      cases h
      constructor
  | _ => cases h

theorem step_running {i : Party n} (h : step i m pc choice = some o) :
  m.terminated = false ∧ match i with
    | none => MainMoves m pc choice o
    | some tid => Moves m tid pc choice o
  := by
  simp only [step, Option.ite_none_left_eq_some, Bool.not_eq_true] at h
  obtain ⟨hrun, h⟩ := h
  use hrun
  cases i with
  | none => exact main_moves h
  | some tid => exact worker_moves h

end Benchmark

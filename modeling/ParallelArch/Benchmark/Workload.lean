import Mathlib.Algebra.BigOperators.Fin
import Mathlib.Data.List.GetD
import Mathlib.Tactic.IntervalCases
import ParallelArch.Benchmark.Run
import ParallelArch.Queue.Calls

/-!
# The workload of a benchmark

`run_benchmark_queue` fills the queue before it creates the workers.  The worker `tid` then
answers for its own slice of `global_ops`, in order: a `1` is an `add`, anything else a
`remove`.  The queue of this module is an ideal one: `add` waits while it holds
`QUEUE_CAPACITY` items, and `remove` while it is empty.

The workers can wedge, each that has not finished waiting in `remove` on the empty queue.  They
never do exactly if, wherever they can stop, more items have been put in than taken out
(`unwedged_iff`).
-/

namespace Benchmark

/-- What the workers start from: how many they are, `global_ops`, what the queue has been filled
with, and its capacity. -/
structure Workload where
  threadCount : ℕ
  globalOps : List ℕ
  prefill : List ℤ
  capacity : ℕ

namespace Workload

variable (w : Workload)

/-! ### The workers -/

/-- `ops_per_thread`. -/
def opsPerThread : ℕ := w.globalOps.length / w.threadCount

/-- `global_ops[tid * ops_per_thread + i]`. -/
def op (tid i : ℕ) : ℕ := w.globalOps.getD (tid * w.opsPerThread + i) 0

/-- `per_thread_values[tid][i]`. -/
def value (tid i : ℕ) : ℤ := Int.bmod (tid * 100000) (2 ^ 32) + i

/-- Where a worker is: at the test of its loop, in a call, or past the loop. -/
inductive Pc where
  | loop (i : ℕ)
  | add (i : ℕ)
  | remove (i : ℕ)
  | done
deriving DecidableEq

variable {w} in
/-- The step of the worker `tid` once `start_flag` is set, on a queue that holds `items`. -/
def step (tid : Fin w.threadCount) (items : List ℤ) (pc : Pc) (_ : Unit) :
    Option (Outcome (List ℤ) Pc Empty) :=
  match pc with
  | .loop i =>
      if i < w.opsPerThread then
        if w.op tid i = 1 then some { mem := items, loc := .add i }
        else some { mem := items, loc := .remove i }
      else some { mem := items, loc := .done }
  | .add i =>
      (QueueCall.after w.capacity items (.add (value tid i))).map fun items' =>
        { mem := items', loc := .loop (i + 1) }
  | .remove i =>
      (QueueCall.after w.capacity items .remove).map fun items' =>
        { mem := items', loc := .loop (i + 1) }
  | .done => none

/-- The workers on the queue that has been filled. -/
def workers : Machine (Global (Fin w.threadCount) (List ℤ) Pc) (Fin w.threadCount × Unit)
    (Fin w.threadCount × Empty) :=
  threads (fun items l => items = w.prefill ∧ ∀ tid, l tid = .loop 0) step

variable {w} in
/-- Some worker has not finished, and each that has not waits in `remove` on the empty queue. -/
def Wedged (s : Global (Fin w.threadCount) (List ℤ) Pc) : Prop :=
  s.mem = [] ∧ (∃ tid, s.loc tid ≠ .done) ∧
    ∀ tid, s.loc tid ≠ .done → ∃ i, s.loc tid = .remove i

/-! ### The vector -/

/-- The operations the workers execute. -/
def executed : List ℕ := w.globalOps.take (w.threadCount * w.opsPerThread)

/-- The slice of `global_ops` of the worker `tid`. -/
def slice (tid : ℕ) : List ℕ := (w.globalOps.drop (tid * w.opsPerThread)).take w.opsPerThread

/-- The adds among the first `k` operations of the worker `tid`. -/
def adds (tid k : ℕ) : ℕ := ((w.slice tid).take k).countP (· = 1)

/-- The removes among the first `k` operations of the worker `tid`. -/
def removes (tid k : ℕ) : ℕ := ((w.slice tid).take k).countP (· ≠ 1)

/-- A worker can stop at the end of its slice and before a `remove`. -/
def Stops (tid k : ℕ) : Prop :=
  k = w.opsPerThread ∨ k < w.opsPerThread ∧ w.op tid k ≠ 1

/-- Wherever the workers can stop, not all at the end of their slices, more items have been put
in than taken out. -/
def Supplied : Prop :=
  ∀ k : Fin w.threadCount → ℕ, (∀ tid : Fin w.threadCount, w.Stops tid (k tid)) →
    (∃ tid, k tid < w.opsPerThread) →
    ∑ tid : Fin w.threadCount, w.removes tid (k tid) <
      w.prefill.length + ∑ tid : Fin w.threadCount, w.adds tid (k tid)

variable {w}

theorem bound {tid : ℕ} (htid : tid < w.threadCount) :
  tid * w.opsPerThread + w.opsPerThread ≤ w.globalOps.length
  := by
  calc tid * w.opsPerThread + w.opsPerThread = (tid + 1) * w.opsPerThread := (Nat.succ_mul _ _).symm
    _ ≤ w.threadCount * w.opsPerThread := Nat.mul_le_mul_right _ htid
    _ ≤ w.globalOps.length := Nat.mul_div_le _ _

/-- The operations of a worker, one after the other. -/
theorem slice_take_succ {tid k : ℕ} (htid : tid < w.threadCount) (hk : k < w.opsPerThread) :
  (w.slice tid).take (k + 1) = (w.slice tid).take k ++ [w.op tid k]
  := by
  have hlength := bound htid
  have hlt : tid * w.opsPerThread + k < w.globalOps.length := by omega
  rw [List.take_add_one, slice, List.getElem?_take_of_lt hk, List.getElem?_drop, op,
    List.getD_eq_getElem _ _ hlt, List.getElem?_eq_getElem hlt]
  rfl

theorem adds_succ {tid k : ℕ} (htid : tid < w.threadCount) (hk : k < w.opsPerThread) :
  w.adds tid (k + 1) = w.adds tid k + if w.op tid k = 1 then 1 else 0
  := by
  rw [adds, slice_take_succ htid hk, List.countP_append, List.countP_singleton]
  simp [adds]

theorem removes_succ {tid k : ℕ} (htid : tid < w.threadCount) (hk : k < w.opsPerThread) :
  w.removes tid (k + 1) = w.removes tid k + if w.op tid k = 1 then 0 else 1
  := by
  rw [removes, slice_take_succ htid hk, List.countP_append, List.countP_singleton]
  simp [removes]

theorem adds_mono {tid k k' : ℕ} (hk : k ≤ k') :
  w.adds tid k ≤ w.adds tid k'
  := by
  apply List.Sublist.countP_le
  apply (List.take_prefix_take_left hk).sublist

/-! ### What a step can do -/

/-- The steps of the worker `tid` by the point of its code. -/
inductive Moves (w : Workload) (tid : ℕ) (items : List ℤ) :
    Pc → Outcome (List ℤ) Pc Empty → Prop where
  | add {i : ℕ} (hi : i < w.opsPerThread) (hop : w.op tid i = 1) :
      Moves w tid items (.loop i) { mem := items, loc := .add i }
  | remove {i : ℕ} (hi : i < w.opsPerThread) (hop : w.op tid i ≠ 1) :
      Moves w tid items (.loop i) { mem := items, loc := .remove i }
  | finish {i : ℕ} (hi : ¬ i < w.opsPerThread) :
      Moves w tid items (.loop i) { mem := items, loc := .done }
  | added {i : ℕ} (hroom : items.length < w.capacity) :
      Moves w tid items (.add i) { mem := items ++ [value tid i], loc := .loop (i + 1) }
  | removed {i : ℕ} {out : ℤ} {items' : List ℤ} (hitems : items = out :: items') :
      Moves w tid items (.remove i) { mem := items', loc := .loop (i + 1) }

theorem step_moves {tid : Fin w.threadCount} {items : List ℤ} {pc : Pc} {c : Unit}
    {o : Outcome (List ℤ) Pc Empty} :
  step tid items pc c = some o ↔ Moves w tid items pc o
  := by
  constructor
  · intro h
    cases pc with
    | loop i =>
        simp only [step] at h
        split_ifs at h with hi hop <;> cases h
        · apply Moves.add hi hop
        · apply Moves.remove hi hop
        · apply Moves.finish hi
    | add i =>
        simp only [step, QueueCall.after] at h
        split_ifs at h with hroom <;> cases h
        apply Moves.added hroom
    | remove i =>
        cases items with
        | nil => cases h
        | cons out items =>
            cases h
            apply Moves.removed rfl
    | done => cases h
  · intro h
    cases h with
    | add hi hop => rw [step, if_pos hi, if_pos hop]
    | remove hi hop => rw [step, if_pos hi, if_neg hop]
    | finish hi => rw [step, if_neg hi]
    | added hroom =>
        rw [step, QueueCall.after, if_pos hroom]
        rfl
    | removed hitems =>
        subst hitems
        rfl

/-! ### The workers in a benchmark run -/

/-- The point of the worker's body at which it is, whatever the queue is doing. -/
def Pc.lift : Pc → Benchmark.Pc
  | .loop i => .loop i
  | .add i | .remove i => .body (.op i)
  | .done => .done

/-- A step of a worker is one of the body that does not throw. -/
theorem Moves.lift (hlength : w.globalOps.length = totalOperations) {tid : Fin w.threadCount}
    {items : List ℤ} {pc : Pc} {o : Outcome (List ℤ) Pc Empty} (ho : Moves w tid items pc o)
    (m : Mem w.threadCount) :
  ∃ m' : Mem w.threadCount, m'.terminated = m.terminated ∧
    worker tid m pc.lift .go = some { mem := m', loc := o.loc.lift }
  := by
  have hops : w.opsPerThread = Benchmark.opsPerThread w.threadCount := by
    rw [opsPerThread, hlength, Benchmark.opsPerThread]
  cases ho with
  | add hi | remove hi =>
      rw [hops] at hi
      exact ⟨m, rfl, if_pos hi⟩
  | finish hi =>
      rw [hops] at hi
      exact ⟨{ m with returned := insert tid m.returned }, rfl, if_neg hi⟩
  | added | removed => exact ⟨m, rfl, rfl⟩

/-- The runs of the workers are runs of the benchmark once all workers have started. -/
theorem lift_run (hlength : w.globalOps.length = totalOperations)
    {s t : Global (Fin w.threadCount) (List ℤ) Pc} {h : List (Fin w.threadCount × Empty)}
    (hrun : w.workers.Run Machine.Free s h t)
    {g : Global (Party w.threadCount) (Mem w.threadCount) Benchmark.Pc}
    (hg : g.mem.terminated = false) (hloc : ∀ tid, g.loc (some tid) = (s.loc tid).lift) :
  ∃ g', (benchmark w.threadCount).Run Machine.Free g [] g' ∧ g'.mem.terminated = false ∧
    ∀ tid, g'.loc (some tid) = (t.loc tid).lift
  := by
  induction hrun with
  | nil => exact ⟨g, .nil, hg, hloc⟩
  | @snoc h t a t' e _ _ hnext ih =>
      obtain ⟨g', hrun', hg', hloc'⟩ := ih
      obtain ⟨o, ho, rfl, -⟩ := threads_next.mp hnext
      obtain ⟨m', hm', hworker⟩ := (step_moves.mp ho).lift hlength g'.mem
      have hstep : Benchmark.step (some a.1) g'.mem (g'.loc (some a.1)) .go
          = some { mem := m', loc := o.loc.lift } := by
        rw [Benchmark.step, if_neg (by simp [hg']), hloc' a.1]
        exact hworker
      refine ⟨_, hrun'.trans (threads_run_single trivial hstep), hm'.trans hg', ?_⟩
      intro tid
      rcases eq_or_ne tid a.1 with rfl | hne
      · simp only [Function.update_self]
      · have hne' : some tid ≠ some a.1 := fun heq => hne (Option.some.inj heq)
        simp only [Function.update_of_ne hne, Function.update_of_ne hne']
        apply hloc' tid

/-! ### The balance of a run -/

/-- How many operations a worker has executed. -/
def Pc.executed (w : Workload) : Pc → ℕ
  | .loop i | .add i | .remove i => i
  | .done => w.opsPerThread

/-- The calls a worker is in are those the vector asks for. -/
def Pc.Ok (w : Workload) (tid : ℕ) : Pc → Prop
  | .loop i => i ≤ w.opsPerThread
  | .add i => i < w.opsPerThread ∧ w.op tid i = 1
  | .remove i => i < w.opsPerThread ∧ w.op tid i ≠ 1
  | .done => True

/-- The queue holds what has been put in and not been taken out. -/
structure Balanced (w : Workload) (items : List ℤ) (l : Fin w.threadCount → Pc) : Prop where
  ok : ∀ tid : Fin w.threadCount, (l tid).Ok w tid
  balance : items.length + ∑ tid : Fin w.threadCount, w.removes tid ((l tid).executed w)
    = w.prefill.length + ∑ tid : Fin w.threadCount, w.adds tid ((l tid).executed w)

theorem Balanced.step {tid : Fin w.threadCount} {items : List ℤ} {l : Fin w.threadCount → Pc}
    {o : Outcome (List ℤ) Pc Empty} (hB : Balanced w items l) (ho : Moves w tid items (l tid) o) :
  Balanced w o.mem (Function.update l tid o.loc)
  := by
  have hok := hB.ok tid
  have hbalance := hB.balance
  have hremoves := sum_update (fun (t : Fin w.threadCount) pc => w.removes t (pc.executed w)) l tid
    o.loc
  have hadds := sum_update (fun (t : Fin w.threadCount) pc => w.adds t (pc.executed w)) l tid o.loc
  have hown : o.loc.Ok w tid ∧
      o.mem.length + w.removes tid (o.loc.executed w) + w.adds tid ((l tid).executed w)
        = items.length + w.removes tid ((l tid).executed w) + w.adds tid (o.loc.executed w) := by
    generalize l tid = pc at ho hok
    cases ho with
    | add hi hop => exact ⟨⟨hi, hop⟩, rfl⟩
    | remove hi hop => exact ⟨⟨hi, hop⟩, rfl⟩
    | @finish i hi =>
        obtain rfl : i = w.opsPerThread := le_antisymm hok (not_lt.mp hi)
        exact ⟨trivial, rfl⟩
    | added =>
        obtain ⟨hi, hop⟩ := hok
        use hi
        simp only [Pc.executed, adds_succ tid.isLt hi, removes_succ tid.isLt hi, if_pos hop,
          List.length_append, List.length_singleton]
        omega
    | removed hitems =>
        obtain ⟨hi, hop⟩ := hok
        use hi
        simp only [Pc.executed, adds_succ tid.isLt hi, removes_succ tid.isLt hi, if_neg hop,
          hitems, List.length_cons]
        omega
  obtain ⟨hloc, hcount⟩ := hown
  constructor
  · intro t
    rcases eq_or_ne t tid with rfl | hne
    · rw [Function.update_self]
      apply hloc
    · rw [Function.update_of_ne hne]
      apply hB.ok t
  · omega

theorem reachable_balanced {h : List (Fin w.threadCount × Empty)}
    {s : Global (Fin w.threadCount) (List ℤ) Pc} (hs : w.workers.Reachable Machine.Free h s) :
  Balanced w s.mem s.loc
  := by
  apply threads_invariant (I := fun items l _ => Balanced w items l) _ _ hs
  · rintro items l ⟨rfl, hl⟩
    constructor
    · intro tid
      rw [hl tid]
      apply Nat.zero_le
    · simp [hl, Pc.executed, adds, removes]
  · intro items l _ tid c o hB _ ho
    apply hB.step (step_moves.mp ho)

theorem Pc.Ok.executed_le {tid : ℕ} {pc : Pc} (hok : pc.Ok w tid) :
  pc.executed w ≤ w.opsPerThread
  := by
  cases pc with
  | loop i => exact hok
  | add i | remove i => exact hok.1.le
  | done => exact le_rfl

/-- The adds of the workers are those of the operations executed. -/
theorem sum_adds (w : Workload) (n : ℕ) :
  ∑ tid : Fin n, w.adds tid w.opsPerThread
    = (w.globalOps.take (n * w.opsPerThread)).countP (· = 1)
  := by
  induction n with
  | zero => simp
  | succ n ih =>
      rw [Fin.sum_univ_castSucc, Nat.succ_mul, List.take_add, List.countP_append, ← ih]
      simp [adds, slice, List.take_take]

/-- No `add` waits if the queue has room for all of them. -/
theorem Balanced.room {items : List ℤ} {l : Fin w.threadCount → Pc} (hB : Balanced w items l)
    (hcapacity : w.prefill.length + w.executed.countP (· = 1) ≤ w.capacity)
    {tid : Fin w.threadCount} {i : ℕ} (hpc : l tid = .add i) :
  items.length < w.capacity
  := by
  have hbalance := hB.balance
  have hok := hB.ok tid
  rw [hpc] at hok
  have hmore : ∑ t : Fin w.threadCount, w.adds t ((l t).executed w)
      < ∑ t : Fin w.threadCount, w.adds t w.opsPerThread := by
    apply Finset.sum_lt_sum
    · intro t _
      apply adds_mono (hB.ok t).executed_le
    · use tid, Finset.mem_univ tid
      rw [hpc]
      calc w.adds tid i < w.adds tid (i + 1) := by
            rw [adds_succ tid.isLt hok.1, if_pos hok.2]
            apply Nat.lt_succ_self
        _ ≤ w.adds tid w.opsPerThread := adds_mono hok.1
  rw [sum_adds] at hmore
  rw [executed] at hcapacity
  omega

/-! ### Stopping -/

/-- The worker has not gone past the operation `k`. -/
def Pc.Within (w : Workload) (k : ℕ) : Pc → Prop
  | .loop i | .remove i => i ≤ k
  | .add i => i < k
  | .done => k = w.opsPerThread

/-- How many steps the worker has to take before it stops at the operation `k`. -/
def Pc.left (k : ℕ) : Pc → ℕ
  | .loop i => 2 * (k - i) + 1
  | .add i | .remove i => 2 * (k - i)
  | .done => 0

/-- A step that does not execute the operation `k` leads closer to it. -/
theorem Moves.within {tid k : ℕ} {items : List ℤ} {pc : Pc} {o : Outcome (List ℤ) Pc Empty}
    (ho : Moves w tid items pc o) (hok : pc.Ok w tid) (hstops : w.Stops tid k)
    (hwithin : pc.Within w k) (hbefore : ∀ i, pc = .remove i → i < k) :
  o.loc.Within w k ∧ o.loc.left k < pc.left k
  := by
  cases ho with
  | @add i hi hop =>
      have hne : i ≠ k := by
        rintro rfl
        rcases hstops with rfl | ⟨-, hnot⟩
        · apply lt_irrefl _ hi
        · apply hnot hop
      exact ⟨lt_of_le_of_ne hwithin hne, Nat.lt_succ_self _⟩
  | remove => exact ⟨hwithin, Nat.lt_succ_self _⟩
  | @finish i hi =>
      have hle : k ≤ w.opsPerThread := by
        rcases hstops with rfl | ⟨hlt, -⟩
        · apply le_rfl
        · apply hlt.le
      simp only [Pc.Within, Pc.Ok] at hwithin hok
      exact ⟨by simp only [Pc.Within]; omega, Nat.succ_pos _⟩
  | @added i =>
      simp only [Pc.Within] at hwithin
      simp only [Pc.Within, Pc.left]
      omega
  | @removed i =>
      have := hbefore i rfl
      simp only [Pc.Within, Pc.left]
      omega

/-- If no worker can move without going past the operation it is to stop at, the workers are
wedged. -/
theorem Balanced.wedged {items : List ℤ} {l : Fin w.threadCount → Pc} (hB : Balanced w items l)
    (hcapacity : w.prefill.length + w.executed.countP (· = 1) ≤ w.capacity)
    {k : Fin w.threadCount → ℕ} (hshort : ∃ tid, k tid < w.opsPerThread)
    (hfew : w.prefill.length + ∑ tid : Fin w.threadCount, w.adds tid (k tid)
      ≤ ∑ tid : Fin w.threadCount, w.removes tid (k tid))
    (hwithin : ∀ tid, (l tid).Within w (k tid))
    (hstuck : ∀ (tid : Fin w.threadCount) o, Moves w tid items (l tid) o →
      ∃ i, l tid = .remove i ∧ k tid ≤ i) :
  Wedged (w := w) ⟨items, l⟩
  := by
  have hpc : ∀ tid, l tid = .done ∨ ∃ i, l tid = .remove i ∧ (items = [] ∨ i = k tid) := by
    intro tid
    have hmoves := hstuck tid
    have hroom : ∀ i, l tid = .add i → _ := fun _ => hB.room hcapacity
    have hle := hwithin tid
    generalize l tid = pc at *
    cases pc with
    | loop i =>
        by_cases hi : i < w.opsPerThread
        · by_cases hop : w.op tid i = 1
          · obtain ⟨_, ⟨⟩, _⟩ := hmoves _ (.add hi hop)
          · obtain ⟨_, ⟨⟩, _⟩ := hmoves _ (.remove hi hop)
        · obtain ⟨_, ⟨⟩, _⟩ := hmoves _ (.finish hi)
    | add i => obtain ⟨_, ⟨⟩, _⟩ := hmoves _ (.added (hroom i rfl))
    | remove i =>
        right
        use i, rfl
        cases items with
        | nil =>
            left
            rfl
        | cons out items =>
            right
            obtain ⟨_, ⟨⟩, hge⟩ := hmoves _ (.removed rfl)
            apply le_antisymm hle hge
    | done =>
        left
        rfl
  have hempty : items = [] := by
    by_contra hne
    have hall : ∀ tid, (l tid).executed w = k tid := by
      intro tid
      have hle := hwithin tid
      rcases hpc tid with hdone | ⟨i, hremove, hi⟩
      · rw [hdone] at hle ⊢
        exact hle.symm
      · rw [hremove]
        apply hi.resolve_left hne
    have hbalance := hB.balance
    simp only [hall] at hbalance
    have hpos := List.length_pos_of_ne_nil hne
    omega
  use hempty
  constructor
  · obtain ⟨tid, hlt⟩ := hshort
    use tid
    intro hdone
    have hle := hwithin tid
    dsimp only at hdone
    rw [hdone] at hle
    apply hlt.ne hle
  · intro tid hdone
    obtain ⟨i, hremove, -⟩ := (hpc tid).resolve_left hdone
    exact ⟨i, hremove⟩

/-- If the items do not last until the workers stop, the run can wedge. -/
theorem wedges (hcapacity : w.prefill.length + w.executed.countP (· = 1) ≤ w.capacity)
    {k : Fin w.threadCount → ℕ} (hstops : ∀ tid : Fin w.threadCount, w.Stops tid (k tid))
    (hshort : ∃ tid, k tid < w.opsPerThread)
    (hfew : w.prefill.length + ∑ tid : Fin w.threadCount, w.adds tid (k tid)
      ≤ ∑ tid : Fin w.threadCount, w.removes tid (k tid)) :
  ∃ h s, w.workers.Reachable Machine.Free h s ∧ Wedged s
  := by
  let start : Global (Fin w.threadCount) (List ℤ) Pc := ⟨w.prefill, fun _ => .loop 0⟩
  have hstart : w.workers.Initial start := ⟨rfl, fun _ => rfl⟩
  have hrun : ∃ h s, w.workers.Run Machine.Free start h s ∧
      (Balanced w s.mem s.loc ∧ ∀ tid, (s.loc tid).Within w (k tid)) ∧ Wedged s := by
    apply Machine.reaches_of_descent
      (P := fun s : Global (Fin w.threadCount) (List ℤ) Pc =>
        Balanced w s.mem s.loc ∧ ∀ tid, (s.loc tid).Within w (k tid))
      (fun s => ∑ tid, (s.loc tid).left (k tid))
    · rintro ⟨items, l⟩ ⟨hB, hwithin⟩
      by_cases hmove : ∃ (tid : Fin w.threadCount) (o : _), Moves w tid items (l tid) o ∧
          ∀ i, l tid = .remove i → i < k tid
      · right
        obtain ⟨tid, o, ho, hbefore⟩ := hmove
        obtain ⟨hnext, hless⟩ := ho.within (hB.ok tid) (hstops tid) (hwithin tid) hbefore
        have hsum := sum_update (fun t pc => Pc.left (k t) pc) l tid o.loc
        have hafter : ∀ t, (Function.update l tid o.loc t).Within w (k t) := by
          intro t
          rcases eq_or_ne t tid with rfl | hne
          · rw [Function.update_self]
            apply hnext
          · rw [Function.update_of_ne hne]
            apply hwithin t
        refine ⟨_, _, threads_run_single (c := ()) trivial (step_moves.mpr ho),
          ⟨hB.step ho, hafter⟩, ?_⟩
        simp only at hsum ⊢
        omega
      · left
        apply hB.wedged hcapacity hshort hfew hwithin
        intro tid o ho
        by_contra hbefore
        push Not at hbefore
        apply hmove ⟨tid, o, ho, hbefore⟩
    · exact ⟨reachable_balanced ⟨_, hstart, .nil⟩, fun _ => Nat.zero_le _⟩
  obtain ⟨h, s, hrun, -, hwedged⟩ := hrun
  exact ⟨h, s, ⟨_, hstart, hrun⟩, hwedged⟩

/-- A wedged run has stopped where the items put in have been taken out. -/
theorem Balanced.stops {items : List ℤ} {l : Fin w.threadCount → Pc} (hB : Balanced w items l)
    (hwedged : Wedged (w := w) ⟨items, l⟩) :
  ¬ w.Supplied
  := by
  obtain ⟨hempty, ⟨tid, htid⟩, hremove⟩ := hwedged
  have hbefore : ∀ t, l t ≠ .done → (l t).executed w < w.opsPerThread ∧
      w.op t ((l t).executed w) ≠ 1 := by
    intro t ht
    obtain ⟨i, hi⟩ := hremove t ht
    have hok := hB.ok t
    dsimp only at hi
    rw [hi] at hok ⊢
    exact hok
  intro hsupplied
  have hmore := hsupplied (fun t => (l t).executed w) ?_ ⟨tid, (hbefore tid htid).1⟩
  · have hbalance := hB.balance
    dsimp only at hempty hmore
    rw [hempty, List.length_nil] at hbalance
    omega
  · intro t
    by_cases ht : l t = .done
    · left
      rw [ht]
      rfl
    · right
      apply hbefore t ht

/-- Let the queue have room for all adds.  No run wedges exactly if, wherever the workers can
stop, not all at the end of their slices, more items have been put in than taken out. -/
theorem unwedged_iff
    (hcapacity : w.prefill.length + w.executed.countP (· = 1) ≤ w.capacity) :
  (∀ h s, w.workers.Reachable Machine.Free h s → ¬ Wedged s) ↔ w.Supplied
  := by
  constructor
  · intro hnever k hstops hshort
    by_contra hfew
    obtain ⟨h, s, hs, hwedged⟩ := wedges hcapacity hstops hshort (not_lt.mp hfew)
    apply hnever h s hs hwedged
  · intro hsupplied h s hs hwedged
    apply (reachable_balanced hs).stops hwedged hsupplied

/-- Two workers share `[0, 1, 1, 0]`, and the queue has been filled with one item. -/
theorem unwedged_two :
  ∃ w : Workload, w.threadCount = 2 ∧ w.globalOps = [0, 1, 1, 0] ∧ w.prefill = [7] ∧
    w.capacity = 2 ^ 20 ∧ ∀ h s, w.workers.Reachable Machine.Free h s → ¬ Wedged s
  := by
  refine ⟨⟨2, [0, 1, 1, 0], [7], 2 ^ 20⟩, rfl, rfl, rfl, rfl, ?_⟩
  rw [unwedged_iff (by decide)]
  intro k hstops hshort
  have hzero : k 0 = 0 ∨ k 0 = 2 := by
    rcases hstops 0 with h | ⟨hlt, hop⟩
    · right
      apply h
    · left
      have hlt : k 0 < 2 := hlt
      interval_cases k 0
      · rfl
      · cases hop rfl
  have hone : k 1 = 1 ∨ k 1 = 2 := by
    rcases hstops 1 with h | ⟨hlt, hop⟩
    · right
      apply h
    · left
      have hlt : k 1 < 2 := hlt
      interval_cases k 1
      · cases hop rfl
      · rfl
  rw [Fin.sum_univ_two, Fin.sum_univ_two]
  rcases hzero with h0 | h0 <;> rcases hone with h1 | h1 <;> rw [h0, h1] <;> decide

/-- One worker has one remove more than the queue holds, and then `b` adds. -/
def removesFirst (a b c : ℕ) : Workload where
  threadCount := 1
  globalOps := List.replicate (a + 1) 0 ++ List.replicate b 1
  prefill := List.replicate a 0
  capacity := c

section RemovesFirst

variable (a b c : ℕ)

theorem removesFirst_opsPerThread :
  (removesFirst a b c).opsPerThread = a + 1 + b
  := by
  simp [opsPerThread, removesFirst]

theorem removesFirst_counts :
  (removesFirst a b c).executed.countP (· = 1) = b ∧
    (removesFirst a b c).executed.countP (· ≠ 1) = a + 1
  := by
  have hall : (removesFirst a b c).executed = List.replicate (a + 1) 0 ++ List.replicate b 1 := by
    rw [executed, removesFirst_opsPerThread]
    apply List.take_of_length_le
    simp [removesFirst]
  rw [hall, List.countP_append, List.countP_append]
  simp [List.countP_replicate]

theorem removesFirst_slice :
  ((removesFirst a b c).slice 0).take a = List.replicate a 0
  := by
  rw [slice, removesFirst_opsPerThread]
  simp [removesFirst, List.take_append, List.take_replicate]

theorem removesFirst_wedges {a b c : ℕ} (hc : a + b ≤ c) :
  ∃ h s, (removesFirst a b c).workers.Reachable Machine.Free h s ∧ Wedged s
  := by
  apply wedges (k := fun _ => a)
  · rw [(removesFirst_counts a b c).1]
    simp [removesFirst, hc]
  · rintro ⟨tid, htid⟩
    obtain rfl := Nat.lt_one_iff.mp htid
    right
    rw [removesFirst_opsPerThread]
    use by omega
    simp [op, removesFirst, List.getElem?_append]
  · use ⟨0, Nat.one_pos⟩
    rw [removesFirst_opsPerThread]
    omega
  · have hsum : ∀ f : ℕ → ℕ, ∑ tid : Fin (removesFirst a b c).threadCount, f tid = f 0 :=
      fun f => Fin.sum_univ_one (fun tid => f tid)
    rw [hsum (fun tid => adds _ tid a), hsum (fun tid => removes _ tid a), adds, removes,
      removesFirst_slice]
    simp [removesFirst, List.countP_replicate]

end RemovesFirst

/-- One worker has `104858` removes before `943718` adds, and the queue has been filled with
`104857` items: there are enough items in all, and the run can wedge. -/
theorem wedges_one :
  ∃ w : Workload, w.threadCount = 1 ∧ w.globalOps.length = 2 ^ 20 ∧ w.capacity = 2 ^ 20 ∧
    w.executed.countP (· ≠ 1) ≤ w.prefill.length + w.executed.countP (· = 1) ∧
    w.prefill.length + w.executed.countP (· = 1) ≤ w.capacity ∧
    ∃ h s, w.workers.Reachable Machine.Free h s ∧ Wedged s
  := by
  have hcounts := removesFirst_counts 104857 943718 (2 ^ 20)
  have hprefill : (removesFirst 104857 943718 (2 ^ 20)).prefill.length = 104857 :=
    List.length_replicate
  refine ⟨removesFirst 104857 943718 (2 ^ 20), rfl, ?_, rfl, ?_, ?_, removesFirst_wedges ?_⟩
  · rw [removesFirst, List.length_append, List.length_replicate, List.length_replicate]
    norm_num
  · rw [hcounts.1, hcounts.2, hprefill]
    norm_num
  · rw [hcounts.1, hprefill, removesFirst]
    norm_num
  · norm_num

end Workload

end Benchmark

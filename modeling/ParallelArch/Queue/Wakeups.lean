import Mathlib.Tactic.FinCases
import ParallelArch.Concurrency.CondVar
import ParallelArch.Queue.BoundedFifo

/-!
# Wakeups in the blocking queue

Seen from `not_full` the blocking queue is a condition variable whose units are the free
places, taken by the adds and given back by the removes; seen from `not_empty` its units
are the items, taken by the removes and given back by the adds.  Every step of the queue
is a step of both or leaves them alone, except a notification that finds nobody waiting
while a thread is between its false test and the waiting set.

Such a notification is lost (`lost_wakeup`): `size` is changed under one mutex and awaited
under the other.  In every run without one no thread is left asleep although it could go
on (`no_lost_wakeup`).
-/

namespace BlockingQueue

variable {ι T : Type*}

/-! ### The two condition variables -/

/-- Where a thread is, seen from `not_full`. -/
def Pc.atFull : Pc T → CondVar.Role
  | .addTest _ | .addWrite _ | .addIndex _ | .addIncr _ => .trying
  | .addWait _ => .deciding
  | .addAsleep _ => .asleep
  | .removeNotify _ => .notifying
  | _ => .out

/-- Where a thread is, seen from `not_empty`. -/
def Pc.atEmpty : Pc T → CondVar.Role
  | .removeTest | .removeRead | .removeIndex _ | .removeDecr _ => .trying
  | .removeWait => .deciding
  | .removeAsleep => .asleep
  | .addNotify => .notifying
  | _ => .out

/-- The queue seen from `not_full`: the free places. -/
def full (c : ℕ) (m : Mem ι T) (l : ι → Thread T) : CondVar ι :=
  ⟨c - m.size, m.notFull, fun i => (l i).pc.atFull⟩

/-- The queue seen from `not_empty`: the items. -/
def empty (m : Mem ι T) (l : ι → Thread T) : CondVar ι :=
  ⟨m.size, m.notEmpty, fun i => (l i).pc.atEmpty⟩

/-- No notification is sent to an empty waiting set while a thread has found its predicate
false and not yet joined the set. -/
def Timely (s : Global ι (Mem ι T) (Thread T)) (a : ι × Choice ι) : Prop :=
  ((s.loc a.1).pc.atFull = .notifying → s.mem.notFull = ∅ →
      ∀ j, (s.loc j).pc.atFull ≠ .deciding) ∧
    ((s.loc a.1).pc.atEmpty = .notifying → s.mem.notEmpty = ∅ →
      ∀ j, (s.loc j).pc.atEmpty ≠ .deciding)

instance [Fintype ι] [DecidableEq ι] (s : Global ι (Mem ι T) (Thread T)) (a : ι × Choice ι) :
    Decidable (Timely s a) :=
  inferInstanceAs (Decidable (_ ∧ _))

/-! ### Every step of the queue is a step of both -/

section Simulation

variable [DecidableEq ι] {c : ℕ} {m m' : Mem ι T} {l : ι → Thread T} {i : ι} {t : Thread T}

theorem full_update :
  full c m' (Function.update l i t)
    = ⟨c - m'.size, m'.notFull, Function.update (fun j => (l j).pc.atFull) i t.pc.atFull⟩
  := by
  rw [full]
  congr 1
  apply Function.comp_update (fun t : Thread T => t.pc.atFull)

theorem empty_update :
  empty m' (Function.update l i t)
    = ⟨m'.size, m'.notEmpty, Function.update (fun j => (l j).pc.atEmpty) i t.pc.atEmpty⟩
  := by
  rw [empty]
  congr 1
  apply Function.comp_update (fun t : Thread T => t.pc.atEmpty)

theorem full_quiet (hsize : m'.size = m.size) (hwaiting : m'.notFull = m.notFull)
    (hrole : t.pc.atFull = (l i).pc.atFull) :
  full c m' (Function.update l i t) = full c m l
  := by
  rw [full_update, hsize, hwaiting, hrole,
    Function.update_eq_self i (fun j => (l j).pc.atFull), full]

theorem empty_quiet (hsize : m'.size = m.size) (hwaiting : m'.notEmpty = m.notEmpty)
    (hrole : t.pc.atEmpty = (l i).pc.atEmpty) :
  empty m' (Function.update l i t) = empty m l
  := by
  rw [empty_update, hsize, hwaiting, hrole,
    Function.update_eq_self i (fun j => (l j).pc.atEmpty), empty]

variable {A R : List T} {choice : Choice ι} {o : Outcome (Mem ι T) (Thread T) (Event T)}

omit [DecidableEq ι] in
theorem Inv.size_succ (hc' : c < 2 ^ 64) (h : Inv c m l A R) {item : T}
    (hpc : (l i).pc = .addIncr item) :
  m.size < c ∧ SizeT.bits64.wrap (m.size + 1) = m.size + 1
  := by
  have ha := h.add i
  rw [hpc] at ha
  obtain ⟨-, hroom, -⟩ := ha
  use hroom
  apply SizeT.bits64_wrap
  omega

omit [DecidableEq ι] in
theorem Inv.size_pred (hc' : c < 2 ^ 64) (h : Inv c m l A R) {out : T}
    (hpc : (l i).pc = .removeDecr out) :
  ∃ n, m.size = n + 1 ∧ SizeT.bits64.wrap (m.size + (2 ^ 64 - 1)) = n
  := by
  have hr := h.remove i
  have hbound := h.bound
  rw [hpc] at hr
  obtain ⟨-, hitem, -⟩ := hr
  use m.size - 1
  constructor
  · omega
  · apply SizeT.bits64_wrap_pred hitem
    omega

/-- The queue takes a step of `not_full`, or one that leaves it alone. -/
theorem full_step (hc' : c < 2 ^ 64) (h : Inv c m l A R) (hG : Timely ⟨m, l⟩ (i, choice))
    (ho : step c i m (l i) choice = some o) :
  full c o.mem (Function.update l i o.loc) = full c m l
    ∨ CondVar.Step (full c m l) (full c o.mem (Function.update l i o.loc))
  := by
  obtain ⟨calm, -⟩ := hG
  cases step_moves ho with
  | addLock hpc =>
      right
      rw [full_update]
      apply CondVar.Step.enter
      rw [hpc]
      rfl
  | addFull hpc hfull =>
      right
      have hnone : c - m.size = 0 := Nat.sub_eq_zero_of_le hfull
      rw [full_update, full, hnone]
      apply CondVar.Step.refuse
      rw [hpc]
      rfl
  | addWait hpc =>
      right
      rw [full_update]
      apply CondVar.Step.sleep
      rw [hpc]
      rfl
  | addSpurious =>
      right
      rw [full_update, Function.update_eq_self i (fun j => (l j).pc.atFull)]
      apply CondVar.Step.spurious
  | addWake hpc hout =>
      right
      rw [full_update]
      apply CondVar.Step.wake _ hout
      rw [hpc]
      rfl
  | addIncr hpc =>
      right
      obtain ⟨hroom, hsize⟩ := h.size_succ hc' hpc
      have htake : c - m.size = c - (m.size + 1) + 1 := by omega
      rw [full_update, full, hsize, htake]
      apply CondVar.Step.take
      rw [hpc]
      rfl
  | removeDecr hpc =>
      right
      obtain ⟨n, hitem, hsize⟩ := h.size_pred hc' hpc
      rw [full_update, full, hsize, hitem]
      apply CondVar.Step.release
      · rw [hpc]
        rfl
      · simp only
        omega
  | removeNotify hpc hin =>
      right
      rw [full_update]
      apply CondVar.Step.notify _ hin
      rw [hpc]
      rfl
  | removeNotifyNone hpc hnone =>
      right
      have hrole : (l i).pc.atFull = .notifying := by
        rw [hpc]
        rfl
      rw [full_update, full, hnone]
      apply CondVar.Step.notifyNone (r := fun j => (l j).pc.atFull) hrole (calm hrole hnone)
  | removeSpurious =>
      left
      apply full_quiet rfl rfl rfl
  | beginAdd hpc | addRoom hpc | addWrite hpc | addIndex hpc | addNotify hpc
  | addNotifyNone hpc | addUnlock hpc | beginRemove hpc | removeLock hpc | removeItem hpc
  | removeEmpty hpc | removeWait hpc | removeWake hpc | removeRead hpc | removeIndex hpc
  | removeUnlock hpc =>
      left
      apply full_quiet rfl rfl
      rw [hpc]
      rfl

/-- The queue takes a step of `not_empty`, or one that leaves it alone. -/
theorem empty_step (hc' : c < 2 ^ 64) (h : Inv c m l A R) (hG : Timely ⟨m, l⟩ (i, choice))
    (ho : step c i m (l i) choice = some o) :
  empty o.mem (Function.update l i o.loc) = empty m l
    ∨ CondVar.Step (empty m l) (empty o.mem (Function.update l i o.loc))
  := by
  obtain ⟨-, calm⟩ := hG
  cases step_moves ho with
  | removeLock hpc =>
      right
      rw [empty_update]
      apply CondVar.Step.enter
      rw [hpc]
      rfl
  | removeEmpty hpc hempty =>
      right
      rw [empty_update, empty, hempty]
      apply CondVar.Step.refuse
      rw [hpc]
      rfl
  | removeWait hpc =>
      right
      rw [empty_update]
      apply CondVar.Step.sleep
      rw [hpc]
      rfl
  | removeSpurious =>
      right
      rw [empty_update, Function.update_eq_self i (fun j => (l j).pc.atEmpty)]
      apply CondVar.Step.spurious
  | removeWake hpc hout =>
      right
      rw [empty_update]
      apply CondVar.Step.wake _ hout
      rw [hpc]
      rfl
  | removeDecr hpc =>
      right
      obtain ⟨n, hitem, hsize⟩ := h.size_pred hc' hpc
      rw [empty_update, empty, hsize, hitem]
      apply CondVar.Step.take
      rw [hpc]
      rfl
  | addIncr hpc =>
      right
      obtain ⟨-, hsize⟩ := h.size_succ hc' hpc
      rw [empty_update, empty, hsize]
      apply CondVar.Step.release _ le_rfl
      rw [hpc]
      rfl
  | addNotify hpc hin =>
      right
      rw [empty_update]
      apply CondVar.Step.notify _ hin
      rw [hpc]
      rfl
  | addNotifyNone hpc hnone =>
      right
      have hrole : (l i).pc.atEmpty = .notifying := by
        rw [hpc]
        rfl
      rw [empty_update, empty, hnone]
      apply CondVar.Step.notifyNone (r := fun j => (l j).pc.atEmpty) hrole (calm hrole hnone)
  | addSpurious =>
      left
      apply empty_quiet rfl rfl rfl
  | beginAdd hpc | addLock hpc | addRoom hpc | addFull hpc | addWait hpc | addWake hpc
  | addWrite hpc | addIndex hpc | addUnlock hpc | beginRemove hpc | removeItem hpc
  | removeRead hpc | removeIndex hpc | removeNotify hpc | removeNotifyNone hpc
  | removeUnlock hpc =>
      left
      apply empty_quiet rfl rfl
      rw [hpc]
      rfl

end Simulation

/-! ### Runs without a lost notification -/

section Runs

variable [DecidableEq ι] [Fintype ι] [Inhabited T] {c : ℕ} {h : List (ι × Event T)}
  {s : Global ι (Mem ι T) (Thread T)}

/-- Both views of the queue keep the invariant of condition variables. -/
theorem reachable_views (hc : 0 < c) (hc' : c < 2 ^ 64)
    (hs : (queue ι c).Reachable Timely h s) :
  (full c s.mem s.loc).Inv ∧ (empty s.mem s.loc).Inv
  := by
  have key : Inv c s.mem s.loc (added h) (removed h) ∧ (full c s.mem s.loc).Inv
      ∧ (empty s.mem s.loc).Inv := by
    apply threads_invariant (I := fun m l h => Inv c m l (added h) (removed h)
      ∧ (full c m l).Inv ∧ (empty m l).Inv) _ _ hs
    · rintro m l ⟨rfl, hl⟩
      use Inv.new hl
      constructor <;> apply CondVar.Inv.of_out rfl <;> intro i <;>
        simp [full, empty, hl i, Pc.atFull, Pc.atEmpty]
    · rintro m l h i choice o ⟨hI, hfull, hempty⟩ hG ho
      rw [added_append, removed_append]
      use step_keeps hc hc' hI ho
      constructor
      · rcases full_step hc' hI hG ho with heq | hstep
        · rwa [heq]
        · apply hfull.step hstep
      · rcases empty_step hc' hI hG ho with heq | hstep
        · rwa [heq]
        · apply hempty.step hstep
  apply key.2

end Runs

/-! ### Lost wakeups -/

/-- The thread has made all its calls. -/
def Finished (s : Global ι (Mem ι T) (Thread T)) (i : ι) : Prop :=
  (s.loc i).pc = .idle ∧ (s.loc i).todo = []

/-- The thread sleeps in `not_full.wait`. -/
def AsleepInNotFull (s : Global ι (Mem ι T) (Thread T)) (i : ι) : Prop :=
  (s.loc i).pc.atFull = .asleep ∧ i ∈ s.mem.notFull

/-- The thread sleeps in `not_empty.wait`. -/
def AsleepInNotEmpty (s : Global ι (Mem ι T) (Thread T)) (i : ι) : Prop :=
  (s.loc i).pc.atEmpty = .asleep ∧ i ∈ s.mem.notEmpty

/-- Every unfinished thread sleeps although the predicate of one of them is true. -/
def LostWakeup (c : ℕ) (s : Global ι (Mem ι T) (Thread T)) : Prop :=
  (∀ i, Finished s i ∨ AsleepInNotFull s i ∨ AsleepInNotEmpty s i) ∧
    ∃ i, AsleepInNotFull s i ∧ s.mem.size < c ∨ AsleepInNotEmpty s i ∧ 0 < s.mem.size

theorem Pc.atFull_of_asleep {pc : Pc T} (h : pc.atEmpty = .asleep) :
  pc.atFull = .out
  := by
  cases pc <;> cases h
  rfl

theorem Pc.atEmpty_of_asleep {pc : Pc T} (h : pc.atFull = .asleep) :
  pc.atEmpty = .out
  := by
  cases pc <;> cases h
  rfl

/-- In a run in which no notification falls between a thread's false test and its joining
the waiting set, no wakeup is lost. -/
theorem no_lost_wakeup [DecidableEq ι] [Fintype ι] [Inhabited T] {c : ℕ} (hc : 0 < c)
    (hc' : c < 2 ^ 64) {h : List (ι × Event T)} {s : Global ι (Mem ι T) (Thread T)}
    (hs : (queue ι c).Reachable Timely h s) :
  ¬ LostWakeup c s
  := by
  obtain ⟨hfull, hempty⟩ := reachable_views hc hc' hs
  rintro ⟨hall, i, ⟨⟨-, hi⟩, hroom⟩ | ⟨⟨-, hi⟩, hitem⟩⟩
  · have hnone : c - s.mem.size = 0 := by
      apply hfull.no_unit _ ⟨i, hi⟩
      intro j
      rcases hall j with ⟨hpc, -⟩ | ⟨-, hj⟩ | ⟨hpc, -⟩
      · left
        simp [full, hpc, Pc.atFull]
      · right
        apply hj
      · left
        apply Pc.atFull_of_asleep hpc
    omega
  · have hnone : s.mem.size = 0 := by
      apply hempty.no_unit _ ⟨i, hi⟩
      intro j
      rcases hall j with ⟨hpc, -⟩ | ⟨hpc, -⟩ | ⟨-, hj⟩
      · left
        simp [empty, hpc, Pc.atEmpty]
      · left
        apply Pc.atEmpty_of_asleep hpc
      · right
        apply hj
    omega

/-- With a single slot a consumer takes `7` in time to wake the producer, and later sleeps
with nothing to take. -/
theorem no_lost_wakeup_seven :
  ∃ (h : List (Fin 2 × Event ℕ)) (s : Global (Fin 2) (Mem (Fin 2) ℕ) (Thread ℕ)),
    (queue (Fin 2) 1).Reachable Timely h s ∧ removed h = [7, 8] ∧
      (∀ i, Finished s i ∨ AsleepInNotEmpty s i) ∧ ¬ LostWakeup 1 s
  := by
  have hinit : (queue (Fin 2) 1).Initial
      ⟨Mem.new, fun i =>
        ⟨if i = 0 then [.add 7, .add 8] else [.remove, .remove, .remove], .idle⟩⟩ :=
    ⟨rfl, fun _ => rfl⟩
  have hs := Machine.exec_reachable (G := Timely)
    [(0, .go), (0, .go), (0, .go), (0, .go), (0, .go), (0, .go), (0, .go), (0, .go),
      (0, .go), (0, .go), (0, .go), (0, .go),
      (1, .go), (1, .go), (1, .go), (1, .go), (1, .go), (1, .go), (1, .wake 0), (1, .go),
      (0, .go), (0, .go), (0, .go), (0, .go), (0, .go), (0, .go), (0, .go),
      (1, .go), (1, .go), (1, .go), (1, .go), (1, .go), (1, .go), (1, .go), (1, .go),
      (1, .go), (1, .go), (1, .go), (1, .go)] hinit rfl
  refine ⟨_, _, hs, rfl, ?_, no_lost_wakeup Nat.one_pos (by omega) hs⟩
  intro i
  fin_cases i
  · left
    exact ⟨rfl, rfl⟩
  · right
    exact ⟨rfl, by decide⟩

/-- The producer has found the queue full and not yet gone to sleep when the consumer takes
the item and notifies nobody: the producer sleeps for ever beside an empty queue. -/
theorem lost_wakeup :
  ∃ (h : List (Fin 2 × Event ℕ)) (s : Global (Fin 2) (Mem (Fin 2) ℕ) (Thread ℕ)),
    (queue (Fin 2) 1).Reachable Machine.Free h s ∧ LostWakeup 1 s
  := by
  have hinit : (queue (Fin 2) 1).Initial
      ⟨Mem.new, fun i => ⟨if i = 0 then [.add 7, .add 8] else [.remove], .idle⟩⟩ :=
    ⟨rfl, fun _ => rfl⟩
  have hs := Machine.exec_reachable (G := Machine.Free)
    [(0, .go), (0, .go), (0, .go), (0, .go), (0, .go), (0, .go), (0, .go), (0, .go),
      (0, .go), (0, .go), (0, .go),
      (1, .go), (1, .go), (1, .go), (1, .go), (1, .go), (1, .go), (1, .go), (1, .go),
      (0, .go)] hinit rfl
  refine ⟨_, _, hs, ?_, 0, ?_⟩
  · intro i
    fin_cases i
    · right
      left
      exact ⟨rfl, by decide⟩
    · left
      exact ⟨rfl, rfl⟩
  · left
    exact ⟨⟨rfl, by decide⟩, by decide⟩

end BlockingQueue

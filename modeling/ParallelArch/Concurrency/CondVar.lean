import Mathlib.Data.Finset.Card
import ParallelArch.Concurrency.Threads

/-!
# Condition variables

Threads take units of a resource and wait on a condition variable while there is none.  A
thread that has found no unit first decides to wait and joins the waiting set in a later
step; a thread that has made a unit available notifies one waiting thread in a later step.
`CondVar.Step` lists the steps, seen from one condition variable.

A notification that reaches nobody is part of it only while no thread is deciding to wait.
Then there are never more units than threads on their way to take one and notifications on
their way to a thread (`CondVar.Inv`), so no unit is left while all threads sleep
(`CondVar.Inv.no_unit`).
-/

/-- Where a thread is, seen from a condition variable. -/
inductive CondVar.Role where
  | out
  | trying
  | deciding
  | asleep
  | notifying
deriving DecidableEq

/-- The units available, the waiting set, and where the threads are. -/
structure CondVar (ι : Type*) where
  units : ℕ
  waiting : Finset ι
  role : ι → CondVar.Role

namespace CondVar

variable {ι : Type*}

/-- A thread that sleeps or tries to take a unit. -/
def Role.present : Role → ℕ
  | .trying | .asleep => 1
  | _ => 0

/-- A thread about to notify. -/
def Role.pending : Role → ℕ
  | .notifying => 1
  | _ => 0

/-- A thread that sleeps. -/
def Role.sleeping : Role → ℕ
  | .asleep => 1
  | _ => 0

/-- Some thread waits or is about to. -/
def Parked (s : CondVar ι) : Prop :=
  s.waiting.Nonempty ∨ ∃ i, s.role i = .deciding

/-- Every waiting thread sleeps; and if some thread waits or is about to, there are no more
units than threads awake to take them and notifications on their way. -/
structure Inv [Fintype ι] (s : CondVar ι) : Prop where
  asleep : ∀ i ∈ s.waiting, s.role i = .asleep
  enough : s.Parked →
    s.units + s.waiting.card ≤ total Role.present s.role + total Role.pending s.role

/-- While no thread has come to the condition variable the invariant holds. -/
theorem Inv.of_out [Fintype ι] {s : CondVar ι} (hw : s.waiting = ∅) (hr : ∀ i, s.role i = .out) :
  s.Inv
  := by
  constructor
  · intro i hi
    rw [hw] at hi
    cases hi
  · rintro (hp | ⟨i, hi⟩)
    · rw [hw] at hp
      cases hp.ne_empty rfl
    · rw [hr i] at hi
      cases hi

/-- No more threads wait than sleep. -/
theorem card_waiting_le [Fintype ι] {w : Finset ι} {r : ι → Role}
    (h : ∀ i ∈ w, r i = .asleep) :
  w.card ≤ total Role.sleeping r
  := by
  calc w.card = ∑ i ∈ w, Role.sleeping (r i) := by
        rw [Finset.card_eq_sum_ones]
        apply Finset.sum_congr rfl
        intro i hi
        rw [h i hi]
        rfl
    _ ≤ ∑ i, Role.sleeping (r i) := by
        apply Finset.sum_le_sum_of_subset (Finset.subset_univ w)

/-- A thread that tries is present besides the threads that sleep. -/
theorem sleeping_lt_present [Fintype ι] {r : ι → Role} {i : ι} (hi : r i = .trying) :
  total Role.sleeping r < total Role.present r
  := by
  apply Finset.sum_lt_sum
  · intro j _
    cases r j <;> simp [Role.sleeping, Role.present]
  · use i, Finset.mem_univ i
    simp [hi, Role.sleeping, Role.present]

variable [DecidableEq ι]

/-- The steps of the threads, seen from one condition variable. -/
inductive Step : CondVar ι → CondVar ι → Prop where
  | enter {n : ℕ} {w : Finset ι} {r : ι → Role} {i : ι} (hi : r i = .out) :
      Step ⟨n, w, r⟩ ⟨n, w, Function.update r i .trying⟩
  | take {n : ℕ} {w : Finset ι} {r : ι → Role} {i : ι} (hi : r i = .trying) :
      Step ⟨n + 1, w, r⟩ ⟨n, w, Function.update r i .out⟩
  | refuse {w : Finset ι} {r : ι → Role} {i : ι} (hi : r i = .trying) :
      Step ⟨0, w, r⟩ ⟨0, w, Function.update r i .deciding⟩
  | sleep {n : ℕ} {w : Finset ι} {r : ι → Role} {i : ι} (hi : r i = .deciding) :
      Step ⟨n, w, r⟩ ⟨n, insert i w, Function.update r i .asleep⟩
  | spurious {n : ℕ} {w : Finset ι} {r : ι → Role} (i : ι) :
      Step ⟨n, w, r⟩ ⟨n, w.erase i, r⟩
  | wake {n : ℕ} {w : Finset ι} {r : ι → Role} {i : ι} (hi : r i = .asleep) (hout : i ∉ w) :
      Step ⟨n, w, r⟩ ⟨n, w, Function.update r i .trying⟩
  | release {n n' : ℕ} {w : Finset ι} {r : ι → Role} {i : ι} (hi : r i = .out)
      (hn : n' ≤ n + 1) : Step ⟨n, w, r⟩ ⟨n', w, Function.update r i .notifying⟩
  | notify {n : ℕ} {w : Finset ι} {r : ι → Role} {i j : ι} (hi : r i = .notifying)
      (hj : j ∈ w) : Step ⟨n, w, r⟩ ⟨n, w.erase j, Function.update r i .out⟩
  | notifyNone {n : ℕ} {r : ι → Role} {i : ι} (hi : r i = .notifying)
      (calm : ∀ j, r j ≠ .deciding) : Step ⟨n, ∅, r⟩ ⟨n, ∅, Function.update r i .out⟩

theorem update_asleep {w : Finset ι} {r : ι → Role} {i : ι} {v : Role}
    (hw : ∀ j ∈ w, r j = .asleep) (hi : i ∉ w ∨ r i ≠ .asleep) :
  ∀ j ∈ w, Function.update r i v j = .asleep
  := by
  intro j hj
  rw [Function.update_of_ne]
  · apply hw j hj
  · rintro rfl
    rcases hi with hi | hi
    · apply hi hj
    · apply hi (hw j hj)

theorem Parked.of_update {n n' : ℕ} {w w' : Finset ι} {r : ι → Role} {i : ι} {v : Role}
    (hv : v ≠ .deciding) (hw : w' ⊆ w) (h : Parked ⟨n', w', Function.update r i v⟩) :
  Parked ⟨n, w, r⟩
  := by
  rcases h with h | ⟨j, hj⟩
  · left
    apply h.mono hw
  · right
    use j
    change Function.update r i v j = .deciding at hj
    by_cases hji : j = i
    · subst hji
      rw [Function.update_self] at hj
      exact absurd hj hv
    · rwa [Function.update_of_ne hji] at hj

variable [Fintype ι]

/-- A step of the thread `i` keeps the invariant if it does not park the first thread and
moves the two sides of the inequality accordingly. -/
theorem Inv.moved {n n' : ℕ} {w w' : Finset ι} {r : ι → Role} {i : ι} {v : Role}
    (h : Inv ⟨n, w, r⟩) (hasleep : ∀ j ∈ w', Function.update r i v j = .asleep)
    (hparked : Parked ⟨n', w', Function.update r i v⟩ → Parked ⟨n, w, r⟩)
    (hcount : n' + w'.card + (r i).present + (r i).pending
      ≤ n + w.card + v.present + v.pending) :
  Inv ⟨n', w', Function.update r i v⟩
  := by
  use hasleep
  intro hp
  have henough := h.enough (hparked hp)
  have hpresent := total_update Role.present r i v
  have hpending := total_update Role.pending r i v
  simp only at henough ⊢
  omega

/-- Every step keeps the invariant. -/
theorem Inv.step {s s' : CondVar ι} (h : s.Inv) (hs : Step s s') :
  s'.Inv
  := by
  cases hs with
  | enter hi =>
      apply h.moved
      · apply update_asleep h.asleep
        simp [hi]
      · apply Parked.of_update (by simp) subset_rfl
      · simp [hi, Role.present, Role.pending]
  | take hi =>
      apply h.moved
      · apply update_asleep h.asleep
        simp [hi]
      · apply Parked.of_update (by simp) subset_rfl
      · simp only [hi, Role.present, Role.pending]
        omega
  | @refuse w r i hi =>
      have hasleep : ∀ j ∈ w, Function.update r i .deciding j = .asleep := by
        apply update_asleep h.asleep
        simp [hi]
      use hasleep
      intro _
      have hcard := card_waiting_le h.asleep
      have hlt := sleeping_lt_present hi
      have hpresent := total_update Role.present r i .deciding
      simp only [hi, Role.present] at hcard hpresent ⊢
      omega
  | @sleep n w r i hi =>
      apply h.moved
      · intro j hj
        by_cases hji : j = i
        · rw [hji, Function.update_self]
        · rw [Function.update_of_ne hji]
          apply h.asleep j (Finset.mem_of_mem_insert_of_ne hj hji)
      · intro _
        right
        use i, hi
      · have hcard := Finset.card_insert_le i w
        simp only [hi, Role.present, Role.pending]
        omega
  | @spurious n w r i =>
      constructor
      · intro j hj
        apply h.asleep j (Finset.mem_of_mem_erase hj)
      · intro hp
        have henough := h.enough (hp.imp_left fun hw => hw.mono (Finset.erase_subset i w))
        have hcard := Finset.card_erase_le (a := i) (s := w)
        simp only at henough ⊢
        omega
  | wake hi hout =>
      apply h.moved
      · apply update_asleep h.asleep (.inl hout)
      · apply Parked.of_update (by simp) subset_rfl
      · simp [hi, Role.present, Role.pending]
  | release hi hn =>
      apply h.moved
      · apply update_asleep h.asleep
        simp [hi]
      · apply Parked.of_update (by simp) subset_rfl
      · simp only [hi, Role.present, Role.pending]
        omega
  | @notify n w r i j hi hj =>
      apply h.moved
      · have hall := update_asleep (i := i) (v := .out) h.asleep (.inr (by simp [hi]))
        intro k hk
        apply hall k (Finset.mem_of_mem_erase hk)
      · apply Parked.of_update (by simp) (Finset.erase_subset j w)
      · have hcard := Finset.card_erase_add_one hj
        simp only [hi, Role.present, Role.pending]
        omega
  | @notifyNone n r i hi calm =>
      constructor
      · intro j hj
        cases hj
      · intro hp
        have hp' : Parked ⟨n, ∅, r⟩ := Parked.of_update (by simp) subset_rfl hp
        rcases hp' with hw | ⟨j, hj⟩
        · cases hw.ne_empty rfl
        · exact absurd hj (calm j)

omit [DecidableEq ι] in
/-- Nobody is left asleep beside a unit: if every thread that is not out waits, and some
thread does, there is no unit. -/
theorem Inv.no_unit {s : CondVar ι} (h : s.Inv)
    (hall : ∀ i, s.role i = .out ∨ i ∈ s.waiting) (hsome : s.waiting.Nonempty) :
  s.units = 0
  := by
  have henough := h.enough (.inl hsome)
  have hpending : total Role.pending s.role = 0 := by
    apply total_eq_zero
    intro i
    rcases hall i with hi | hi
    · rw [hi]
      rfl
    · rw [h.asleep i hi]
      rfl
  have hpresent : total Role.present s.role ≤ s.waiting.card := by
    calc total Role.present s.role = ∑ i ∈ s.waiting, Role.present (s.role i) := by
          symm
          apply Finset.sum_subset (Finset.subset_univ _)
          intro i _ hi
          rw [(hall i).resolve_right hi]
          rfl
      _ ≤ ∑ i ∈ s.waiting, 1 := by
          apply Finset.sum_le_sum
          intro i hi
          rw [h.asleep i hi]
          rfl
      _ = s.waiting.card := (Finset.card_eq_sum_ones _).symm
  omega

end CondVar

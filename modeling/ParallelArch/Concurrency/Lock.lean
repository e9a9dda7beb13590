import Mathlib.Logic.Function.Basic
import Mathlib.Tactic.Tauto

/-!
# Locks

A lock records the thread that holds it.  `Guards holder inside loc` says that the lock is
held by a thread exactly when that thread is in the section `inside` the lock protects.
Taking the lock, giving it back and moving without touching it keep this, so at most one
thread is in the section.

A `Mutex` is a lock that can be destroyed; then it can no longer be taken or given back.
-/

variable {ι τ : Type*}

/-- The threads in the section `inside` are exactly those that hold the lock. -/
def Guards (holder : Option ι) (inside : τ → Prop) (loc : ι → τ) : Prop :=
  ∀ i, inside (loc i) ↔ holder = some i

namespace Guards

variable {holder : Option ι} {inside : τ → Prop} {loc : ι → τ}

theorem holds (h : Guards holder inside loc) {i : ι} (hi : inside (loc i)) :
  holder = some i
  := (h i).mp hi

/-- At most one thread is in the section. -/
theorem exclusive (h : Guards holder inside loc) {i j : ι} (hi : inside (loc i))
    (hj : inside (loc j)) :
  i = j
  := by
  have hij := (h.holds hi).symm.trans (h.holds hj)
  apply Option.some.inj hij

/-- No thread is in the section of a free lock. -/
theorem outside (h : Guards none inside loc) (i : ι) :
  ¬ inside (loc i)
  := by
  intro hi
  have := h.holds hi
  cases this

theorem of_outside (h : ∀ i, ¬ inside (loc i)) :
  Guards none inside loc
  := by
  intro i
  simp [h i]

variable [DecidableEq ι]

/-- A thread takes the free lock and enters the section. -/
theorem acquire (h : Guards none inside loc) {i : ι} {v : τ} (hv : inside v) :
  Guards (some i) inside (Function.update loc i v)
  := by
  intro j
  by_cases hj : j = i
  · subst hj
    simp [hv]
  · simp [Function.update_of_ne hj, h.outside j, Ne.symm hj]

/-- The thread in the section leaves it and gives the lock back. -/
theorem release (h : Guards holder inside loc) {i : ι} {v : τ} (hi : inside (loc i))
    (hv : ¬ inside v) :
  Guards none inside (Function.update loc i v)
  := by
  apply of_outside
  intro j hj
  by_cases hji : j = i
  · subst hji
    simp [hv] at hj
  · rw [Function.update_of_ne hji] at hj
    apply hji (h.exclusive hj hi)

/-- A thread moves within the section, or outside it. -/
theorem keep (h : Guards holder inside loc) {i : ι} {v : τ}
    (hv : inside v ↔ inside (loc i)) :
  Guards holder inside (Function.update loc i v)
  := by
  intro j
  by_cases hj : j = i
  · subst hj
    simp [hv, h j]
  · simp [Function.update_of_ne hj, h j]

end Guards

/-! ### Exclusive ownership -/

/-- No two threads own the same key. -/
def Exclusive {κ : Type*} (owns : τ → Option κ) (loc : ι → τ) : Prop :=
  ∀ i j k, owns (loc i) = some k → owns (loc j) = some k → i = j

namespace Exclusive

variable {κ : Type*} {owns : τ → Option κ} {loc : ι → τ}

theorem of_none (h : ∀ i, owns (loc i) = none) :
  Exclusive owns loc
  := by
  intro i j k hi
  rw [h i] at hi
  cases hi

variable [DecidableEq ι]

/-- A thread takes a key nobody owns. -/
theorem take (h : Exclusive owns loc) {i : ι} {v : τ} {k : κ} (hv : owns v = some k)
    (hfree : ∀ j, owns (loc j) ≠ some k) :
  Exclusive owns (Function.update loc i v)
  := by
  intro j j' k' hj hj'
  by_cases hji : j = i
  · by_cases hji' : j' = i
    · rw [hji, hji']
    · rw [hji, Function.update_self, hv] at hj
      rw [Function.update_of_ne hji'] at hj'
      exact absurd (hj'.trans hj.symm) (hfree j')
  · rw [Function.update_of_ne hji] at hj
    by_cases hji' : j' = i
    · rw [hji', Function.update_self, hv] at hj'
      exact absurd (hj.trans hj'.symm) (hfree j)
    · rw [Function.update_of_ne hji'] at hj'
      apply h _ _ _ hj hj'

/-- A thread moves and owns afterwards at most what it owned before. -/
theorem keep (h : Exclusive owns loc) {i : ι} {v : τ}
    (hv : ∀ k, owns v = some k → owns (loc i) = some k) :
  Exclusive owns (Function.update loc i v)
  := by
  have back : ∀ j k, owns (Function.update loc i v j) = some k → owns (loc j) = some k := by
    intro j k hj
    by_cases hji : j = i
    · subst hji
      rw [Function.update_self] at hj
      apply hv _ hj
    · rwa [Function.update_of_ne hji] at hj
  intro j j' k hj hj'
  apply h _ _ _ (back _ _ hj) (back _ _ hj')

end Exclusive

/-! ### Mutexes -/

/-- The thread that holds the mutex, and whether the mutex has been destroyed. -/
structure Mutex (ι : Type*) where
  holder : Option ι
  destroyed : Bool

namespace Mutex

/-- A mutex nobody holds. -/
def init : Mutex ι := ⟨none, false⟩

/-- The thread `i` takes the mutex when it is free. -/
def lock (x : Mutex ι) (i : ι) : Option (Mutex ι) :=
  if x.destroyed = false ∧ x.holder = none then some ⟨some i, false⟩ else none

/-- `pthread_mutex_unlock`; `none` if the mutex was destroyed. -/
def unlock (x : Mutex ι) : Option (Mutex ι) :=
  if x.destroyed = false then some ⟨none, false⟩ else none

/-- `pthread_mutex_destroy`. -/
def destroy (x : Mutex ι) : Mutex ι := { x with destroyed := true }

theorem lock_eq_some {x y : Mutex ι} {i : ι} :
  x.lock i = some y ↔ x = init ∧ y = ⟨some i, false⟩
  := by
  obtain ⟨holder, destroyed⟩ := x
  simp only [lock, init, Option.ite_none_right_eq_some, Option.some.injEq, mk.injEq]
  tauto

theorem unlock_eq_some {x y : Mutex ι} :
  x.unlock = some y ↔ x.destroyed = false ∧ y = init
  := by
  simp only [unlock, init, Option.ite_none_right_eq_some, Option.some.injEq]
  tauto

theorem eq_init {x : Mutex ι} (hfree : x.holder = none) (halive : x.destroyed = false) :
  x = init
  := by
  obtain ⟨holder, destroyed⟩ := x
  obtain rfl := hfree
  obtain rfl := halive
  rfl

end Mutex

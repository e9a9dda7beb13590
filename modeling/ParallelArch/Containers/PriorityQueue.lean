import Mathlib.Data.List.DropRight
import Mathlib.Data.List.Sort

/-!
# Priority queues

`PriorityQueue α` is a priority queue that hands out a least element first, given by its
elements in ascending order.  A queue that drops its least element whenever it holds more than
`n` keeps the `n` largest of the elements pushed so far.
-/

/-- A priority queue with the least element on top. -/
structure PriorityQueue (α : Type*) [LinearOrder α] where
  elems : List α
  sorted : elems.Pairwise (· ≤ ·)

namespace PriorityQueue

variable {α : Type*} [LinearOrder α]

/-- The empty queue. -/
def empty : PriorityQueue α where
  elems := []
  sorted := .nil

/-- The queue with one more element. -/
def push (q : PriorityQueue α) (x : α) : PriorityQueue α where
  elems := q.elems.orderedInsert (· ≤ ·) x
  sorted := q.sorted.orderedInsert x _

/-- A least element. -/
def top (q : PriorityQueue α) : Option α := q.elems.head?

/-- The queue without its top. -/
def pop (q : PriorityQueue α) : PriorityQueue α where
  elems := q.elems.tail
  sorted := q.sorted.tail

/-- The number of elements. -/
def size (q : PriorityQueue α) : ℕ := q.elems.length

/-- The queue with one more element, and without its top if it then holds more than `n`. -/
def pushTop (n : ℕ) (q : PriorityQueue α) (x : α) : PriorityQueue α :=
  if n < (q.push x).size then (q.push x).pop else q.push x

/-- The elements in the order in which they leave the queue. -/
def drain (q : PriorityQueue α) : List α :=
  match _h : q.top with
  | none => []
  | some x => x :: q.pop.drain
termination_by q.size
decreasing_by
  obtain ⟨rest, hrest⟩ := List.head?_eq_some_iff.mp _h
  simp [size, pop, hrest]

@[simp]
theorem elems_push (q : PriorityQueue α) (x : α) :
  (q.push x).elems = q.elems.orderedInsert (· ≤ ·) x
  := rfl

@[simp]
theorem elems_pop (q : PriorityQueue α) :
  q.pop.elems = q.elems.tail
  := rfl

/-- The elements leave the queue in ascending order. -/
theorem drain_eq (q : PriorityQueue α) :
  q.drain = q.elems
  := by
  fun_induction drain q with
  | case1 q h => rw [List.head?_eq_none_iff.mp h]
  | case2 q x h ih =>
      obtain ⟨rest, hrest⟩ := List.head?_eq_some_iff.mp h
      rw [ih, elems_pop, hrest, List.tail_cons]

/-! ### The largest elements -/

theorem orderedInsert_of_le {x : α} {l : List α} (h : ∀ y ∈ l, x ≤ y) :
  l.orderedInsert (· ≤ ·) x = x :: l
  := by
  cases l with
  | nil => rfl
  | cons y l => apply List.orderedInsert_cons_of_le _ _ (h y List.mem_cons_self)

/-- An element that is inserted after the first `d` or dropped with them. -/
theorem tail_orderedInsert_drop {d : ℕ} (x : α) :
  ∀ {l : List α}, l.Pairwise (· ≤ ·) →
    ((l.drop d).orderedInsert (· ≤ ·) x).tail = (l.orderedInsert (· ≤ ·) x).drop (d + 1)
  := by
  induction d with
  | zero =>
      intro l _
      rw [List.drop_zero, Nat.zero_add, List.drop_one]
  | succ d ih =>
      intro l hl
      cases l with
      | nil => simp
      | cons y l =>
          rw [List.drop_succ_cons]
          by_cases hxy : x ≤ y
          · have hle : ∀ z ∈ l.drop d, x ≤ z := by
              intro z hz
              apply hxy.trans
              apply List.rel_of_pairwise_cons hl (List.mem_of_mem_drop hz)
            rw [orderedInsert_of_le hle, List.orderedInsert_cons_of_le _ _ hxy, List.tail_cons,
              List.drop_succ_cons, List.drop_succ_cons]
          · rw [List.orderedInsert_of_not_le _ _ hxy, List.drop_succ_cons, ih hl.of_cons]

/-- A queue with the `n` largest elements of a list keeps them when an element is pushed. -/
theorem pushTop_elems {n : ℕ} {q : PriorityQueue α} {l : List α} (x : α)
    (hl : l.Pairwise (· ≤ ·)) (hq : q.elems = l.rtake n) :
  (q.pushTop n x).elems = (l.orderedInsert (· ≤ ·) x).rtake n
  := by
  rw [List.rtake] at hq ⊢
  have hsize : (q.push x).size = l.length - (l.length - n) + 1 := by
    rw [size, push, List.orderedInsert_length, hq, List.length_drop]
  rw [pushTop, hsize, List.orderedInsert_length]
  rcases Nat.lt_or_ge l.length n with hlt | hge
  · have hzero : l.length - n = 0 := by omega
    rw [if_neg (by omega), elems_push, hq, hzero, Nat.sub_eq_zero_of_le hlt, List.drop_zero,
      List.drop_zero]
  · rw [if_pos (by omega), elems_pop, elems_push, hq, tail_orderedInsert_drop x hl,
      Nat.sub_add_comm hge]

end PriorityQueue

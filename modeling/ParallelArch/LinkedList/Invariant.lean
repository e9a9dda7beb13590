import ParallelArch.LinkedList.Refinement

/-!
# The invariant of the list

In every careful run the chain has its shape, every thread is right about its pointers, and
no two threads own the same new node.
-/

namespace LockFreeList

variable {ι T : Type*} [LinearOrder T]

/-- The state of the list and of all threads, with the chain `xs`. -/
structure Inv (m : Mem T) (l : ι → Thread T) (xs : List ℕ) : Prop where
  shape : Shape m xs
  ok : ∀ i, (l i).pc.Ok m xs
  owns : Exclusive (fun t : Thread T => t.pc.owns) l

/-- No step of the run accesses memory through a marked pointer, and every step is careful. -/
def Carefully (s : Global ι (Mem T) (Thread T)) (a : ι × Unit) : Prop :=
  ¬ (s.loc a.1).pc.AccessesMarked s.mem.tail ∧ Careful s.mem (s.loc a.1).pc

instance (s : Global ι (Mem T) (Thread T)) (a : ι × Unit) : Decidable (Carefully s a) :=
  inferInstanceAs (Decidable (_ ∧ _))

omit [LinearOrder T] in
theorem Pc.owns_found (k : Caller) (v : T) (pre cur : Ptr) :
  (Pc.found k v pre cur).owns = k.owns
  := by
  unfold Pc.found
  split_ifs
  · rfl
  · cases k <;> rfl

/-- A thread's new node is private. -/
theorem Pc.Ok.isPrivate {m : Mem T} {xs : List ℕ} {pc : Pc T} (h : pc.Ok m xs) {a : ℕ}
    (ha : pc.owns = some a) :
  Private m xs a
  := by
  have caller : ∀ {k : Caller} {v : T}, k.Ok m xs v → k.owns = some a → Private m xs a := by
    rintro (newNode | _) v hk ha
    · cases ha
      apply hk.isPrivate
    · cases ha
  cases pc with
  | findHead => exact caller h ha
  | findFirst | findTest | findNext | cleanLoad | cleanCas => exact caller h.1 ha
  | addDelete =>
      cases ha
      exact Mine.isPrivate h
  | addTest | addStore | addCas =>
      cases ha
      exact h.1.isPrivate
  | _ => cases ha

/-- A thread comes to own a node only by making it. -/
theorem owns_step {m : Mem T} {l : Thread T} {o : Outcome (Mem T) (Thread T) (Event T)}
    (h : step m l = some o) {a : ℕ} (ha : o.loc.pc.owns = some a) :
  l.pc.owns = some a ∨ a = m.size ∧ o.mem.size = m.size + 1
  := by
  obtain ⟨-, hmoves⟩ := step_moves h
  generalize l.pc = pc at hmoves
  cases hmoves with
  | addNew =>
      right
      cases ha
      exact ⟨rfl, rfl⟩
  | findStop | cleaned =>
      left
      rwa [Thread.goto_pc, Pc.owns_found] at ha
  | beginAdd | beginRemove | beginContains | addDelete | added | removeAbsent | removePresent
  | removeLoad | marked | markFails | swung | swingFails | removeDelete | containsHead
  | containsOn | containsStop | containsNext | containsPresent | containsAbsent
  | containsMark => cases ha
  | _ =>
      left
      exact ha

variable [DecidableEq ι] {m : Mem T} {l : ι → Thread T} {xs : List ℕ}

/-- Every careful step keeps the invariant. -/
theorem Inv.step (h : Inv m l xs) {i : ι} (hG : Careful m (l i).pc)
    {o : Outcome (Mem T) (Thread T) (Event T)} (ho : LockFreeList.step m (l i) = some o) :
  ∃ xs', Inv o.mem (Function.update l i o.loc) xs' ∧ Kept m xs (l i).pc o.mem o.loc.pc xs'
  := by
  obtain ⟨xs', hkept⟩ := step_keeps h.shape (h.ok i) hG ho
  refine ⟨xs', ⟨hkept.shape, ?_, ?_⟩, hkept⟩
  · intro j
    rcases eq_or_ne j i with rfl | hne
    · rw [Function.update_self]
      apply hkept.ok
    · rw [Function.update_of_ne hne]
      apply (h.ok j).later h.shape hkept.later
      intro a hi hj
      apply hne
      apply h.owns j i a hj hi
  · by_cases hnew : o.loc.pc.owns = some m.size
    · apply h.owns.take hnew
      intro j hj
      apply (h.ok j).isPrivate hj |>.inHeap.ne rfl
    · apply h.owns.keep
      intro a ha
      apply (owns_step ho ha).resolve_right
      rintro ⟨rfl, -⟩
      apply hnew ha

variable [Inhabited T]

theorem Shape.new :
  Shape (Mem.new : Mem T) [2]
  := by
  constructor
  · simp [Linked, Mem.new, Mem.succ, Ptr.null]
  · simp
  · simp [Mem.new]
  · apply Mem.not_marked_new
  · simp [Mem.new]
  · intro a ha
    cases Mem.not_marked_new a ha

omit [DecidableEq ι] in
theorem Inv.new (hl : ∀ i, (l i).pc = .idle) :
  Inv Mem.new l [2]
  := by
  use Shape.new
  · intro i
    rw [hl i]
    trivial
  · apply Exclusive.of_none
    intro i
    simp only [hl i]
    rfl

end LockFreeList

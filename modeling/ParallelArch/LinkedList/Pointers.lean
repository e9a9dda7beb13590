import ParallelArch.LinkedList.Invariant

/-!
# The pointers of the list

A pointer goes bad in two ways.  A link loaded from a removed node carries the mark, so
that the operation goes on with a marked pointer, to a node that may be gone; and a node is
deleted while another operation still holds it.

In a run that avoids both (`Orderly`) every pointer an operation follows is unmarked and
leads to a node that has not been deleted (`follows_live`).  `dangling` is a run in which a
`find` holds a node while it is deleted.
-/

namespace LockFreeList

variable {ι T : Type*} [LinearOrder T]

/-! ### Held pointers -/

/-- The pointers a caller of `find` holds. -/
def Caller.held : Caller → List Ptr
  | .add newNode => [newNode]
  | .remove => []

/-- The pointers an operation may still follow. -/
def Pc.held : Pc T → List Ptr
  | .findHead k _ => k.held
  | .findFirst k _ pre => pre :: k.held
  | .findTest k _ pre cur | .cleanLoad k _ pre cur | .cleanCas k _ pre cur _ =>
      pre :: cur :: k.held
  | .findNext k _ _ cur => cur :: k.held
  | .addTest _ newNode pre cur => [pre, cur, newNode]
  | .addDelete _ newNode => [newNode]
  | .addStore _ newNode pre _ | .addCas _ newNode pre _ => [pre, newNode]
  | .removeTest _ pre cur | .removeLoad _ pre cur | .removeMark _ pre cur _ => [pre, cur]
  | .removeSwing _ pre _ _ => [pre]
  | .containsTest _ cur | .containsNext _ cur => [cur]
  | .containsTail _ pCur | .containsMark _ pCur => [pCur]
  | _ => []

/-- The node whose link the thread loads next, to go on with what it loads. -/
def Pc.loads : Pc T → Option Ptr
  | .findFirst _ _ pre => some pre
  | .findNext _ _ _ cur => some cur
  | .removeLoad _ _ cur => some cur
  | .containsNext _ cur => some cur
  | _ => none

/-- The node the thread deletes next because it has removed it. -/
def Pc.deletes : Pc T → Option Ptr
  | .removeDelete _ cur => some cur
  | _ => none

/-- No marked link is loaded, and no node is deleted that another operation holds. -/
def Orderly (s : Global ι (Mem T) (Thread T)) (a : ι × Unit) : Prop :=
  (∀ p ∈ (s.loc a.1).pc.loads, ¬ s.mem.Marked p.addr) ∧
    ∀ p ∈ (s.loc a.1).pc.deletes, ∀ j ≠ a.1, ∀ q ∈ (s.loc j).pc.held, q.addr ≠ p.addr

instance [Fintype ι] [DecidableEq ι] (s : Global ι (Mem T) (Thread T)) (a : ι × Unit) :
    Decidable (Orderly s a) :=
  inferInstanceAs (Decidable (_ ∧ _))

/-- Every pointer that is followed in the next step of some thread is unmarked and leads to
a node that has been allocated and not been deleted. -/
def FollowsLive (s : Global ι (Mem T) (Thread T)) : Prop :=
  ∀ i, ∀ p ∈ (s.loc i).pc.access s.mem.tail, s.mem.Accessible p ∧ s.mem.deleted p.addr = 0

/-- The thread has met no marked link. -/
def Pc.Straight (pc : Pc T) : Prop :=
  (∀ p ∈ pc.held, p.mark = false) ∧
    match pc with
    | .cleanLoad _ _ _ _ | .cleanCas _ _ _ _ _ => False
    | .removeMark _ _ _ nextCur => nextCur.mark = false
    | _ => True

section Facts

variable {m : Mem T} {xs : List ℕ} {own : Option ℕ}

omit [LinearOrder T] in
theorem Pc.Straight.careful {pc : Pc T} (h : pc.Straight) :
  Careful m pc
  := by
  cases pc with
  | cleanCas => cases h.2
  | removeMark => exact fun _ => h.2
  | _ => trivial

/-- The pointer is null or leads to `head`, to a node that has been seen or to the thread's
own node. -/
def Known (m : Mem T) (xs : List ℕ) (own : Option ℕ) (p : Ptr) : Prop :=
  p.addr = 0 ∨ p.addr = m.head.addr ∨ Seen m xs p.addr ∨ own = some p.addr

theorem Before.known {v : T} {p : Ptr} (h : Before m xs v p) :
  Known m xs own p
  := by
  right
  apply h.imp_right
  rintro ⟨hseen, -⟩
  left
  apply hseen

omit [LinearOrder T] in
theorem Known.of_seen {p : Ptr} (h : Seen m xs p.addr) :
  Known m xs own p
  := .inr (.inr (.inl h))

omit [LinearOrder T] in
theorem At.known {p : Ptr} (h : At m xs p) :
  Known m xs own p
  := h.imp_right fun hseen => .inr (.inl hseen)

omit [LinearOrder T] in
theorem After.known {s : Set T} {p : Ptr} (h : After m xs s p) :
  Known m xs own p
  := h.imp_right fun hseen => .inr (.inl hseen.1)

omit [LinearOrder T] in
theorem Known.of_own {p : Ptr} :
  Known m xs (some p.addr) p
  := .inr (.inr (.inr rfl))

omit [LinearOrder T] in
theorem Caller.held_known (k : Caller) :
  ∀ p ∈ k.held, Known m xs k.owns p
  := by
  cases k with
  | add newNode =>
      intro p hp
      obtain rfl := List.mem_singleton.mp hp
      apply Known.of_own
  | remove =>
      intro p hp
      cases hp

/-- Whatever a thread holds is known. -/
theorem Pc.Ok.known {pc : Pc T} (h : pc.Ok m xs) :
  ∀ p ∈ pc.held, Known m xs pc.owns p
  := by
  have headOr : ∀ {p : Ptr} {P : Prop}, (P → Known m xs none p) → p.addr = m.head.addr ∨ P →
      Known m xs none p := by
    rintro p P hP (hp | hp)
    · exact .inr (.inl hp)
    · apply hP hp
  cases pc with
  | findHead k v => exact k.held_known
  | findFirst k v pre =>
      obtain ⟨-, rfl⟩ := h
      exact List.forall_mem_cons.mpr ⟨.inr (.inl rfl), k.held_known⟩
  | findTest k v pre cur =>
      exact List.forall_mem_cons.mpr
        ⟨h.2.1.known, List.forall_mem_cons.mpr ⟨h.2.2.known, k.held_known⟩⟩
  | findNext k v pre cur =>
      exact List.forall_mem_cons.mpr ⟨.of_seen h.2.1, k.held_known⟩
  | cleanLoad k v pre cur | cleanCas k v pre cur =>
      exact List.forall_mem_cons.mpr
        ⟨h.2.1.known, List.forall_mem_cons.mpr ⟨h.2.2.known, k.held_known⟩⟩
  | addTest v newNode pre cur =>
      simp only [Pc.held, List.forall_mem_cons]
      exact ⟨h.2.1.known, h.2.2.1.known, .of_own, List.forall_mem_nil _⟩
  | addDelete v newNode =>
      simp only [Pc.held, List.forall_mem_cons]
      exact ⟨.of_own, List.forall_mem_nil _⟩
  | addStore v newNode pre cur | addCas v newNode pre cur =>
      simp only [Pc.held, List.forall_mem_cons]
      exact ⟨h.2.1.known, .of_own, List.forall_mem_nil _⟩
  | removeTest v pre cur =>
      simp only [Pc.held, List.forall_mem_cons]
      exact ⟨h.1.known, h.2.1.known, List.forall_mem_nil _⟩
  | removeLoad v pre cur | removeMark v pre cur =>
      simp only [Pc.held, List.forall_mem_cons]
      exact ⟨h.1.known, .of_seen h.2.1, List.forall_mem_nil _⟩
  | removeSwing v pre cur nextCur =>
      simp only [Pc.held, List.forall_mem_cons]
      exact ⟨h.1.known, List.forall_mem_nil _⟩
  | containsTest v cur | containsTail v cur =>
      simp only [Pc.held, List.forall_mem_cons]
      exact ⟨headOr At.known h, List.forall_mem_nil _⟩
  | containsNext v cur | containsMark v cur =>
      simp only [Pc.held, List.forall_mem_cons]
      exact ⟨headOr .of_seen h, List.forall_mem_nil _⟩
  | _ => exact List.forall_mem_nil _

omit [LinearOrder T] in
/-- What a thread loads through, it holds. -/
theorem Pc.loads_held {pc : Pc T} {q : Ptr} (h : q ∈ pc.loads) :
  q ∈ pc.held
  := by
  cases pc <;> cases h <;> simp [Pc.held]

/-- What a thread loads through is `head` or has been in the chain. -/
theorem Pc.Ok.loads_seen {pc : Pc T} (h : pc.Ok m xs) {q : Ptr}
    (hq : q ∈ pc.loads) :
  q.addr = m.head.addr ∨ Seen m xs q.addr
  := by
  cases pc with
  | findFirst =>
      cases hq
      left
      rw [h.2]
  | findNext | removeLoad =>
      cases hq
      right
      exact h.2.1
  | containsNext =>
      cases hq
      exact h
  | _ => cases hq

/-- A thread on a straight way follows pointers it holds, and they are not null. -/
theorem Pc.Ok.access_held {pc : Pc T} (hS : Shape m xs) (h : pc.Ok m xs) (hstraight : pc.Straight)
    {tail : Ptr} :
  ∀ p ∈ pc.access tail, p ∈ pc.held ∧ p.addr ≠ 0
  := by
  obtain ⟨hunmarked, hpc⟩ := hstraight
  have before : ∀ {v : T} {p : Ptr}, Before m xs v p → p.addr ≠ 0 := by
    rintro v p (hp | ⟨hp, -⟩)
    · rw [hp]
      apply hS.head_pos
    · apply hS.seen_pos hp
  have headOr : ∀ {p : Ptr}, p.addr = m.head.addr ∨ Seen m xs p.addr → p.addr ≠ 0 := by
    rintro p (hp | hp)
    · rw [hp]
      apply hS.head_pos
    · apply hS.seen_pos hp
  have unlessNull : ∀ {cur q p : Ptr} {c : Prop} [Decidable c], cur ∈ pc.held → q = cur →
      (cur = .null → c) → p ∈ (if c then none else some q) → p ∈ pc.held ∧ p.addr ≠ 0 := by
    rintro cur q p c _ hheld rfl hnull hp
    obtain ⟨hc, hp⟩ := Option.ite_none_left_eq_some.mp hp
    cases hp
    exact ⟨hheld, Ptr.addr_ne_zero (hunmarked _ hheld) (mt hnull hc)⟩
  intro p hp
  cases pc with
  | findTest k v pre cur =>
      have hcur : cur ∈ pre :: cur :: k.held := by simp
      exact unlessNull hcur (Ptr.getPointer_of_unmarked (hunmarked _ hcur)) id hp
  | addTest v newNode pre cur =>
      have hcur : cur ∈ [pre, cur, newNode] := by simp
      exact unlessNull hcur (Ptr.getPointer_of_unmarked (hunmarked _ hcur)) id hp
  | removeTest v pre cur =>
      have hcur : cur ∈ [pre, cur] := by simp
      exact unlessNull hcur (Ptr.getPointer_of_unmarked (hunmarked _ hcur)) id hp
  | containsTest v cur =>
      have hcur : cur ∈ [cur] := List.mem_singleton_self cur
      exact unlessNull hcur (Ptr.getPointer_of_unmarked (hunmarked _ hcur)) .inl hp
  | containsTail v pCur => exact unlessNull (List.mem_singleton_self pCur) rfl .inl hp
  | cleanLoad | cleanCas => cases hpc
  | findFirst k v pre =>
      cases hp
      obtain ⟨-, rfl⟩ := h
      exact ⟨List.mem_cons_self, hS.head_pos⟩
  | findNext k v pre cur =>
      have hcur : cur ∈ cur :: k.held := List.mem_cons_self
      rw [Pc.access, Ptr.getPointer_of_unmarked (hunmarked _ hcur)] at hp
      cases hp
      exact ⟨hcur, hS.seen_pos h.2.1⟩
  | removeLoad v pre cur | removeMark v pre cur =>
      have hcur : cur ∈ [pre, cur] := by simp
      rw [Pc.access, Ptr.getPointer_of_unmarked (hunmarked _ hcur)] at hp
      cases hp
      exact ⟨hcur, hS.seen_pos h.2.1⟩
  | addStore v newNode pre cur =>
      cases hp
      use by simp [Pc.held]
      exact h.1.isPrivate.pos.ne'
  | addCas v newNode pre cur =>
      cases hp
      exact ⟨List.mem_cons_self, before h.2.1⟩
  | removeSwing v pre cur nextCur =>
      cases hp
      exact ⟨List.mem_cons_self, before h.1⟩
  | containsNext v cur | containsMark v cur =>
      cases hp
      exact ⟨List.mem_cons_self, headOr h⟩
  | _ => cases hp

/-- A known pointer that is not null leads to an allocated node. -/
theorem Known.inHeap {pc : Pc T} (hS : Shape m xs) (h : pc.Ok m xs) {p : Ptr}
    (hp : Known m xs pc.owns p) (hnull : p.addr ≠ 0) :
  p.addr < m.size
  := by
  rcases hp with hp | hp | hp | hp
  · cases hnull hp
  · rw [hp]
    apply hS.inHeap _ List.mem_cons_self
  · apply hS.seen_inHeap hp
  · apply (h.isPrivate hp).inHeap

end Facts

/-! ### Orderly runs -/

section Orderly

variable {m : Mem T} {l : ι → Thread T} {xs : List ℕ}

/-- In an orderly run no thread meets a marked link, and nothing that is held or in the
chain has been deleted. -/
structure Undeleted (m : Mem T) (l : ι → Thread T) (xs : List ℕ) : Prop where
  inv : Inv m l xs
  straight : ∀ i, (l i).pc.Straight
  held : ∀ i, ∀ p ∈ (l i).pc.held, m.deleted p.addr = 0
  chain : ∀ a ∈ m.head.addr :: xs, m.deleted a = 0
  inHeap : ∀ a, m.deleted a ≠ 0 → a ≠ 0 ∧ a < m.size
  headPtr : m.head.mark = false

/-- What a thread loads from an unmarked node leads to an undeleted node, or is null. -/
theorem Undeleted.load (h : Undeleted m l xs) {a : ℕ} (ha : a = m.head.addr ∨ Seen m xs a)
    (hunmarked : ¬ m.Marked a) :
  (m.next a).mark = false ∧ m.deleted (m.next a).addr = 0
  := by
  use Bool.eq_false_of_not_eq_true hunmarked
  rcases h.inv.shape.linked.next_mem_tail (Seen.mem_chain ha hunmarked) with hnull | hnext
  · by_contra hdeleted
    apply (h.inHeap _ hdeleted).1 hnull
  · apply h.chain _ (List.mem_cons_of_mem _ hnext)

omit [LinearOrder T] in
/-- The end of a `find` that met no marked link. -/
theorem Pc.found_straight {k : Caller} {v : T} {pre cur : Ptr}
    (h : ∀ p ∈ pre :: cur :: k.held, p.mark = false) :
  (Pc.found k v pre cur).Straight
    ∧ ∀ p ∈ (Pc.found k v pre cur : Pc T).held, p ∈ pre :: cur :: k.held
  := by
  have hcur : cur.mark = false := h cur (by simp)
  have hfound : ¬ (cur ≠ .null ∧ cur.mark = true) := by
    rw [hcur]
    rintro ⟨-, ⟨⟩⟩
  unfold Pc.found
  rw [if_neg hfound]
  cases k with
  | add newNode => exact ⟨⟨h, trivial⟩, fun p hp => hp⟩
  | remove => exact ⟨⟨h, trivial⟩, fun p hp => hp⟩

/-- The pointers a thread holds after a step: those it held, `head`, its new node, or what
it has loaded. -/
theorem held_step {m : Mem T} {l : Thread T} {o : Outcome (Mem T) (Thread T) (Event T)}
    (h : step m l = some o) (hstraight : l.pc.Straight) :
  ∀ p ∈ o.loc.pc.held, p ∈ l.pc.held ∨ p = m.head ∨ p = ⟨m.size, false⟩ ∨
    ∃ q ∈ l.pc.loads, p = m.next q.addr
  := by
  obtain ⟨-, hmoves⟩ := step_moves h
  obtain ⟨hunmarked, hpc⟩ := hstraight
  generalize l.pc = pc at *
  intro p hp
  cases hmoves with
  | addNew =>
      right; right; left
      apply List.mem_singleton.mp hp
  | findHead =>
      rcases List.mem_cons.mp hp with rfl | hp
      · right; left
        rfl
      · left
        apply hp
  | findFirst | findNext =>
      simp only [Thread.goto_pc, Pc.held, List.mem_cons] at hp ⊢
      simp only [Pc.loads, Option.mem_def, Option.some.injEq, exists_eq_left']
      tauto
  | findStop => exact .inl ((Pc.found_straight hunmarked).2 p hp)
  | cleanLoad | cleaned | cleanFails => cases hpc
  | containsHead =>
      right; left
      apply List.mem_singleton.mp hp
  | containsNext =>
      right; right; right
      exact ⟨_, rfl, List.mem_singleton.mp hp⟩
  | containsStop =>
      left
      rw [Thread.goto_pc, Pc.held, List.mem_singleton,
        Ptr.getPointer_of_unmarked (hunmarked _ List.mem_cons_self)] at hp
      rw [hp]
      apply List.mem_cons_self
  | beginAdd | beginRemove | beginContains | addDelete | added | removeAbsent | markFails
  | swung | swingFails | removeDelete | containsAbsent | containsMark => cases hp
  | _ =>
      left
      simp only [Thread.goto_pc, Pc.held, Caller.held, List.mem_cons, List.not_mem_nil] at hp ⊢
      tauto

/-- A thread stays on a straight way if what it loads is unmarked. -/
theorem straight_step {m : Mem T} {l : Thread T} {o : Outcome (Mem T) (Thread T) (Event T)}
    (h : step m l = some o) (hstraight : l.pc.Straight) (hhead : m.head.mark = false)
    (hloads : ∀ q ∈ l.pc.loads, (m.next q.addr).mark = false) :
  o.loc.pc.Straight
  := by
  constructor
  · intro p hp
    rcases held_step h hstraight p hp with hp | rfl | rfl | ⟨q, hq, rfl⟩
    · apply hstraight.1 p hp
    · apply hhead
    · rfl
    · apply hloads q hq
  · obtain ⟨-, hmoves⟩ := step_moves h
    obtain ⟨hunmarked, hpc⟩ := hstraight
    generalize l.pc = pc at *
    cases hmoves with
    | findStop => exact (Pc.found_straight hunmarked).1.2
    | cleanLoad | cleaned | cleanFails => cases hpc
    | removeLoad => exact hloads _ rfl
    | _ => trivial

/-- A step deletes the node of a failed add, or the node a remove has cut out. -/
theorem deleted_step {m : Mem T} {l : Thread T} {o : Outcome (Mem T) (Thread T) (Event T)}
    (h : step m l = some o) (a : ℕ) :
  o.mem.deleted a = m.deleted a ∨ o.loc.pc = .idle ∧
    ((∃ v newNode, l.pc = .addDelete v newNode ∧ newNode.addr = a) ∨
      ∃ v cur, l.pc = .removeDelete v cur ∧ cur.addr = a)
  := by
  obtain ⟨-, hmoves⟩ := step_moves h
  generalize l.pc = pc at *
  cases hmoves with
  | @addDelete v newNode =>
      rcases eq_or_ne a newNode.addr with rfl | hne
      · right
        exact ⟨rfl, .inl ⟨v, newNode, rfl, rfl⟩⟩
      · left
        apply Function.update_of_ne hne
  | @removeDelete v cur =>
      rcases eq_or_ne a cur.addr with rfl | hne
      · right
        exact ⟨rfl, .inr ⟨v, cur, rfl, rfl⟩⟩
      · left
        apply Function.update_of_ne hne
  | _ =>
      left
      rfl

omit [LinearOrder T] in
/-- A thread holds its own node. -/
theorem Pc.owns_held {pc : Pc T} {a : ℕ} (h : pc.owns = some a) :
  ∃ p ∈ pc.held, p.addr = a
  := by
  have caller : ∀ {k : Caller}, k.owns = some a → ∃ p ∈ k.held, p.addr = a := by
    rintro (newNode | _) hk
    · exact ⟨newNode, List.mem_cons_self, Option.some.inj hk⟩
    · cases hk
  cases pc with
  | findHead k v => exact caller h
  | findFirst | findTest | findNext | cleanLoad | cleanCas =>
      obtain ⟨p, hp, ha⟩ := caller h
      refine ⟨p, ?_, ha⟩
      simp [Pc.held, hp]
  | addTest v newNode | addDelete v newNode | addStore v newNode | addCas v newNode =>
      refine ⟨newNode, ?_, Option.some.inj h⟩
      simp [Pc.held]
  | _ => cases h

/-- The node a thread deletes is neither in the chain nor held by another thread. -/
theorem Undeleted.unused (h : Undeleted m l xs) {i : ι} (hG : Orderly ⟨m, l⟩ (i, ()))
    {o : Outcome (Mem T) (Thread T) (Event T)} (ho : LockFreeList.step m (l i) = some o)
    {xs' : List ℕ} (hkept : Kept m xs (l i).pc o.mem o.loc.pc xs') {a : ℕ}
    (ha : o.mem.deleted a ≠ m.deleted a) :
  a ≠ 0 ∧ a < m.size ∧ a ∉ m.head.addr :: xs' ∧ o.loc.pc.held = [] ∧
    ∀ j ≠ i, ∀ p ∈ (l j).pc.held, p.addr ≠ a
  := by
  have hok := h.inv.ok i
  obtain ⟨hidle, hpc⟩ := (deleted_step ho a).resolve_left ha
  have hheld : o.loc.pc.held = [] := by
    rw [hidle]
    rfl
  have gains : ∀ {b}, b ∈ xs' → b = a → b ∈ xs := by
    rintro b hb rfl
    apply (hkept.later.gains b hb).resolve_right
    rintro ⟨-, -, hsame⟩
    apply ha hsame
  rcases hpc with ⟨v, newNode, hpc, rfl⟩ | ⟨v, cur, hpc, rfl⟩
  · have hown : (l i).pc.owns = some newNode.addr := by
      rw [hpc]
      rfl
    have hprivate := hok.isPrivate hown
    refine ⟨hprivate.pos.ne', hprivate.inHeap, ?_, hheld, ?_⟩
    · intro hmem
      rcases List.mem_cons.mp hmem with hmem | hmem
      · apply hprivate.notHead hmem
      · apply hprivate.unseen (.inl (gains hmem rfl))
    · intro j hj p hp heq
      rcases (h.inv.ok j).known p hp with hnull | hhead | hseen | hown'
      · exact hprivate.pos.ne' (heq.symm.trans hnull)
      · exact hprivate.notHead (heq.symm.trans hhead)
      · rw [heq] at hseen
        apply hprivate.unseen hseen
      · rw [heq] at hown'
        apply hj (h.inv.owns j i _ hown' hown)
  · rw [hpc] at hok
    obtain ⟨hmarked, hout⟩ := hok
    obtain ⟨hpos, hsize, -⟩ := h.inv.shape.marked _ hmarked
    refine ⟨hpos, hsize, ?_, hheld, ?_⟩
    · intro hmem
      rcases List.mem_cons.mp hmem with hmem | hmem
      · rw [hmem] at hmarked
        apply h.inv.shape.headUnmarked hmarked
      · apply hout (gains hmem rfl)
    · apply hG.2
      rw [hpc]
      rfl

variable [DecidableEq ι]

/-- Every orderly step keeps the invariant. -/
theorem Undeleted.step (h : Undeleted m l xs) {i : ι} (hG : Orderly ⟨m, l⟩ (i, ()))
    {o : Outcome (Mem T) (Thread T) (Event T)} (ho : LockFreeList.step m (l i) = some o) :
  ∃ xs', Undeleted o.mem (Function.update l i o.loc) xs'
  := by
  obtain ⟨xs', hinv, hkept⟩ := h.inv.step (h.straight i).careful ho
  have unused := fun a => h.unused hG ho hkept (a := a)
  have hload : ∀ q ∈ (l i).pc.loads,
      (m.next q.addr).mark = false ∧ m.deleted (m.next q.addr).addr = 0 := by
    intro q hq
    apply h.load ((h.inv.ok i).loads_seen hq) (hG.1 q hq)
  refine ⟨xs', hinv, ?_, ?_, ?_, ?_, ?_⟩
  · intro j
    rcases eq_or_ne j i with rfl | hne
    · rw [Function.update_self]
      apply straight_step ho (h.straight j) h.headPtr
      intro q hq
      apply (hload q hq).1
    · rw [Function.update_of_ne hne]
      apply h.straight j
  · intro j p hp
    by_cases hsame : o.mem.deleted p.addr = m.deleted p.addr
    · rw [hsame]
      rcases eq_or_ne j i with rfl | hne
      · rw [Function.update_self] at hp
        rcases held_step ho (h.straight j) p hp with hp | rfl | rfl | ⟨q, hq, rfl⟩
        · apply h.held j p hp
        · apply h.chain _ List.mem_cons_self
        · by_contra hdeleted
          apply (h.inHeap _ hdeleted).2.ne rfl
        · apply (hload q hq).2
      · rw [Function.update_of_ne hne] at hp
        apply h.held j p hp
    · obtain ⟨-, -, -, hidle, hother⟩ := unused _ hsame
      rcases eq_or_ne j i with rfl | hne
      · rw [Function.update_self, hidle] at hp
        cases hp
      · rw [Function.update_of_ne hne] at hp
        cases hother j hne p hp rfl
  · intro a ha
    rw [hkept.later.head] at ha
    by_cases hsame : o.mem.deleted a = m.deleted a
    · rw [hsame]
      rcases List.mem_cons.mp ha with rfl | ha
      · apply h.chain _ List.mem_cons_self
      · rcases hkept.later.gains a ha with ha | ⟨hown, -⟩
        · apply h.chain a (List.mem_cons_of_mem _ ha)
        · obtain ⟨p, hp, rfl⟩ := Pc.owns_held hown
          apply h.held i p hp
    · obtain ⟨-, -, hout, -⟩ := unused a hsame
      cases hout ha
  · intro a ha
    by_cases hsame : o.mem.deleted a = m.deleted a
    · rw [hsame] at ha
      obtain ⟨hpos, hsize⟩ := h.inHeap a ha
      exact ⟨hpos, hsize.trans_le hkept.later.size⟩
    · obtain ⟨hpos, hsize, -⟩ := unused a hsame
      exact ⟨hpos, hsize.trans_le hkept.later.size⟩
  · rw [hkept.later.head]
    apply h.headPtr

variable [Inhabited T]

theorem reachable_undeleted {h : List (ι × Event T)} {s : Global ι (Mem T) (Thread T)}
    (hs : (list ι T).Reachable Orderly h s) :
  ∃ xs, Undeleted s.mem s.loc xs
  := by
  apply threads_invariant (I := fun m l _ => ∃ xs, Undeleted m l xs) _ _ hs
  · rintro m l ⟨rfl, hl⟩
    have nothing : ∀ i, (l i).pc.held = [] := by
      intro i
      rw [hl i]
      rfl
    refine ⟨[2], Inv.new hl, ?_, ?_, ?_, ?_, rfl⟩
    · intro i
      rw [hl i]
      exact ⟨List.forall_mem_nil _, trivial⟩
    · intro i p hp
      rw [nothing i] at hp
      cases hp
    · intro a _
      rfl
    · intro a ha
      cases ha rfl
  · rintro m l h i _ o ⟨xs, hU⟩ hG ho
    apply hU.step hG ho

/-- In a run in which no marked link is loaded and no node is deleted while another
operation holds it, every pointer that is followed is unmarked and leads to a node that has
been allocated and not been deleted. -/
theorem follows_live {h : List (ι × Event T)} {s : Global ι (Mem T) (Thread T)}
    (hs : (list ι T).Reachable Orderly h s) :
  FollowsLive s
  := by
  obtain ⟨xs, hU⟩ := reachable_undeleted hs
  intro i p hp
  obtain ⟨hheld, hnull⟩ := (hU.inv.ok i).access_held hU.inv.shape (hU.straight i) p hp
  have hknown := (hU.inv.ok i).known p hheld
  refine ⟨⟨(hU.straight i).1 p hheld, Nat.pos_of_ne_zero hnull, ?_⟩, hU.held i p hheld⟩
  apply hknown.inHeap hU.inv.shape (hU.inv.ok i) hnull

end Orderly

/-- Thread `0` deletes the node of `10` while thread `1` walks before it. -/
theorem follows_live_twenty :
  ∃ (h : List (Fin 2 × Event ℤ)) (s : Global (Fin 2) (Mem ℤ) (Thread ℤ)),
    (list (Fin 2) ℤ).Reachable Orderly h s ∧ s.mem.deleted 3 = 1 ∧ FollowsLive s
  := by
  have hinit : (list (Fin 2) ℤ).Initial
      ⟨Mem.new, fun i => ⟨if i = 0 then [.add 10, .remove 10] else [.add 20], .idle⟩⟩ :=
    ⟨rfl, fun _ => rfl⟩
  have hs := Machine.exec_reachable (G := Orderly)
    (List.replicate 10 (0, ()) ++ List.replicate 4 (1, ()) ++ List.replicate 11 (0, ()))
    hinit rfl
  exact ⟨_, _, hs, rfl, follows_live hs⟩

/-- Thread `1` has loaded a pointer to the node of `10` when thread `0` deletes it. -/
theorem dangling :
  ∃ (h : List (Fin 2 × Event ℤ)) (s : Global (Fin 2) (Mem ℤ) (Thread ℤ)),
    (list (Fin 2) ℤ).Reachable Machine.Free h s ∧ ¬ FollowsLive s
  := by
  have hinit : (list (Fin 2) ℤ).Initial
      ⟨Mem.new, fun i => ⟨if i = 0 then [.add 10, .remove 10] else [.remove 10], .idle⟩⟩ :=
    ⟨rfl, fun _ => rfl⟩
  have hs := Machine.exec_reachable (G := Machine.Free)
    (List.replicate 10 (0, ()) ++ List.replicate 5 (1, ()) ++ List.replicate 11 (0, ()))
    hinit rfl
  refine ⟨_, _, hs, ?_⟩
  intro hlive
  obtain ⟨-, hdeleted⟩ := hlive 1 ⟨3, false⟩ rfl
  cases hdeleted

end LockFreeList

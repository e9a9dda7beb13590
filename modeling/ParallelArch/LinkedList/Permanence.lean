import ParallelArch.LinkedList.Invariant

/-!
# Marks are permanent

`find` reads the mark of a node from the link of its predecessor, where it marks the
predecessor.  Its clean-up loop then replaces the marked link of `pre` by another, which
clears the mark of `pre` or moves its link.

As long as no clean-up does so and nothing is accessed through a marked pointer (`Uncleaned`), a
mark is never cleared, a marked node keeps pointing where it points, and only marked nodes leave
the list, whatever the removes do to each other's links.  The clean-up that replaces a link
always breaks this (`deletion_permanent`).
-/

namespace LockFreeList

variable {ι T : Type*}

/-! ### Steps that keep the marks -/

/-- The clean-up loop of `find` replaces a link by another in the next step. -/
def Pc.Cleans (m : Mem T) : Pc T → Prop
  | .cleanCas _ _ pre cur nextCur => m.next pre.addr = cur ∧ nextCur ≠ cur
  | _ => False

instance (m : Mem T) : (pc : Pc T) → Decidable (pc.Cleans m)
  | .cleanCas .. => inferInstanceAs (Decidable (_ ∧ _))
  | .idle | .addNew .. | .findHead .. | .findFirst .. | .findTest .. | .findNext ..
  | .cleanLoad .. | .addTest .. | .addDelete .. | .addStore .. | .addCas .. | .removeTest ..
  | .removeLoad .. | .removeMark .. | .removeSwing .. | .removeDelete .. | .containsHead ..
  | .containsTest .. | .containsNext .. | .containsTail .. | .containsMark .. =>
      inferInstanceAs (Decidable False)

/-- No clean-up replaces a link, and memory is not accessed through a marked pointer. -/
def Uncleaned (s : Global ι (Mem T) (Thread T)) (a : ι × Unit) : Prop :=
  ¬ (s.loc a.1).pc.AccessesMarked s.mem.tail ∧ ¬ (s.loc a.1).pc.Cleans s.mem

instance (s : Global ι (Mem T) (Thread T)) (a : ι × Unit) : Decidable (Uncleaned s a) :=
  inferInstanceAs (Decidable (_ ∧ _))

/-- A step keeps the mark of every marked node and where it points, and makes only marked nodes
unreachable from `head`. -/
def Permanent (m m' : Mem T) : Prop :=
  (∀ a, m.Marked a → m'.next a = m.next a) ∧
    ∀ a, Reaches 0 m.succ m.head.addr a → ¬ Reaches 0 m'.succ m'.head.addr a → m.Marked a

/-! ### What the threads can see -/

/-- The pointers of an update to nodes it has not made. -/
def Pc.pointers : Pc T → List Ptr
  | .findFirst _ _ pre => [pre]
  | .findTest _ _ pre cur | .findNext _ _ pre cur | .cleanLoad _ _ pre cur => [pre, cur]
  | .cleanCas _ _ pre cur nextCur => [pre, cur, nextCur]
  | .addTest _ _ pre cur | .addStore _ _ pre cur | .addCas _ _ pre cur => [pre, cur]
  | .removeTest _ pre cur | .removeLoad _ pre cur => [pre, cur]
  | .removeMark _ pre cur nextCur | .removeSwing _ pre cur nextCur => [pre, cur, nextCur]
  | _ => []

/-- The address is null, or that of `head`, or some link or some pointer of an update leads to
it. -/
def Visible (m : Mem T) (l : ι → Thread T) (a : ℕ) : Prop :=
  a = 0 ∨ a = m.head.addr ∨ (∃ b, m.succ b = a) ∨ ∃ j, ∃ p ∈ (l j).pc.pointers, p.addr = a

/-- What an update knows of its pointers. -/
def Pc.Knows (m : Mem T) : Pc T → Prop
  | .cleanLoad _ _ _ cur | .cleanCas _ _ _ cur _ => cur.mark = true
  | .addTest _ _ _ cur | .addStore _ _ _ cur => cur.mark = false
  | .addCas _ newNode _ cur => cur.mark = false ∧ m.next newNode.addr = cur
  | .removeTest _ _ cur | .removeLoad _ _ cur | .removeMark _ _ cur _ => cur.mark = false
  | .removeSwing _ _ cur nextCur => cur.mark = false ∧ m.next cur.addr = nextCur.getMarked
  | _ => True

/-- A new node is visible to its own thread only, and what the updates know is right. -/
structure Sound (m : Mem T) (l : ι → Thread T) : Prop where
  inHeap : ∀ a, Visible m l a → a < m.size
  unallocated : ∀ a, m.size ≤ a → ¬ m.Marked a
  owned : ∀ i a, (l i).pc.owns = some a → a < m.size ∧ ¬ m.Marked a ∧ ¬ Visible m l a
  owns : Exclusive (fun t : Thread T => t.pc.owns) l
  knows : ∀ i, (l i).pc.Knows m

variable [LinearOrder T]

section Step

variable {m : Mem T} {l : Thread T} {o : Outcome (Mem T) (Thread T) (Event T)}

omit [LinearOrder T] in
theorem Pc.found_pointers {k : Caller} {v : T} {pre cur : Ptr} :
  (Pc.found k v pre cur).pointers = [pre, cur]
  := by
  unfold Pc.found
  split_ifs
  · rfl
  · cases k <;> rfl

omit [LinearOrder T] in
theorem Pc.found_knows {k : Caller} {v : T} {pre cur : Ptr} :
  (Pc.found k v pre cur).Knows m
  := by
  unfold Pc.found
  split_ifs with hmark
  · apply hmark.2
  · have hcur : cur.mark = false := by
      rcases eq_or_ne cur .null with rfl | hne
      · rfl
      · apply Bool.eq_false_of_not_eq_true
        intro htrue
        apply hmark ⟨hne, htrue⟩
    cases k <;> apply hcur

/-- An update comes to a pointer from `head` or from a link. -/
theorem pointers_step (h : step m l = some o) :
  ∀ p ∈ o.loc.pc.pointers, p ∈ l.pc.pointers ∨ p = m.head ∨ ∃ b, p = m.next b
  := by
  obtain ⟨-, hmoves⟩ := step_moves h
  generalize l.pc = pc at hmoves
  intro p hp
  cases hmoves with
  | findStop | cleaned =>
      left
      rw [Thread.goto_pc, Pc.found_pointers] at hp
      simp only [Pc.pointers, List.mem_cons] at hp ⊢
      tauto
  | findHead =>
      right; left
      apply List.mem_singleton.mp hp
  | findFirst | findNext | cleanLoad | removeLoad =>
      simp only [Thread.goto_pc, Pc.pointers, List.mem_cons, List.not_mem_nil, or_false] at hp ⊢
      rcases hp with rfl | rfl | rfl <;> simp
  | findOn | addAbsent | addStore | removePresent | marked =>
      left
      apply hp
  | _ => cases hp

theorem size_step (h : step m l = some o) :
  o.mem.head = m.head ∧ m.size ≤ o.mem.size
  := by
  obtain ⟨-, hmoves⟩ := step_moves h
  generalize l.pc = pc at hmoves
  cases hmoves with
  | addNew => exact ⟨rfl, Nat.le_succ _⟩
  | _ => exact ⟨rfl, le_rfl⟩

/-- What a step has written to the link of the node at `b`. -/
inductive Written (m : Mem T) (pc : Pc T) (o : Outcome (Mem T) (Thread T) (Event T)) (b : ℕ) :
    Prop where
  | new (hb : b = m.size) (hnext : o.mem.next b = .null)
  | stored {p : Ptr} (howns : pc.owns = some b) (hp : p ∈ pc.pointers) (hmark : p.mark = false)
      (hnext : o.mem.next b = p)
  | linked {p : Ptr} (hp : p ∈ pc.pointers) (hb : p.addr = b)
      (howns : pc.owns = some (o.mem.succ b)) (hfree : o.loc.pc.owns = none)
  | moved {p q : Ptr} (hp : p ∈ pc.pointers) (hb : p.addr = b) (hq : q ∈ pc.pointers)
      (hsucc : o.mem.succ b = q.addr)

/-- A step writes to one link at most. -/
theorem next_step (h : step m l = some o) (hknows : l.pc.Knows m) (b : ℕ) :
  o.mem.next b = m.next b ∨ Written m l.pc o b
  := by
  obtain ⟨-, hmoves⟩ := step_moves h
  generalize l.pc = pc at *
  cases hmoves with
  | addNew =>
      rcases eq_or_ne b m.size with rfl | hb
      · right
        apply Written.new rfl
        apply Function.update_self
      · left
        apply Function.update_of_ne hb
  | @addStore v newNode pre cur =>
      rcases eq_or_ne b newNode.addr with rfl | hb
      · right
        apply Written.stored rfl (p := cur) (by simp [Pc.pointers]) hknows
        apply Function.update_self
      · left
        apply Function.update_of_ne hb
  | @added v newNode pre cur hcas =>
      rcases eq_or_ne b pre.addr with rfl | hb
      · right
        apply Written.linked (p := pre) (by simp [Pc.pointers]) rfl _ rfl
        rw [Mem.succ_storeNext, Function.update_self]
        rfl
      · left
        apply Function.update_of_ne hb
  | @marked v pre cur nextCur hcas =>
      rcases eq_or_ne b cur.addr with rfl | hb
      · right
        apply Written.moved (p := cur) (q := nextCur) (by simp [Pc.pointers]) rfl
          (by simp [Pc.pointers])
        rw [Mem.succ_storeNext, Function.update_self]
        rfl
      · left
        apply Function.update_of_ne hb
  | @cleaned k v pre cur nextCur hcas | @swung v pre cur nextCur hcas =>
      rcases eq_or_ne b pre.addr with rfl | hb
      · right
        apply Written.moved (p := pre) (q := nextCur) (by simp [Pc.pointers]) rfl
          (by simp [Pc.pointers])
        rw [Mem.succ_storeNext, Function.update_self]
      · left
        apply Function.update_of_ne hb
  | _ =>
      left
      rfl

end Step

/-! ### What a step keeps -/

section Keep

variable {m : Mem T} {l : ι → Thread T} {i : ι} {o : Outcome (Mem T) (Thread T) (Event T)}

omit [LinearOrder T] in
theorem Visible.of_pointer {p : Ptr} (hp : p ∈ (l i).pc.pointers) :
  Visible m l p.addr
  := .inr (.inr (.inr ⟨i, p, hp, rfl⟩))

omit [LinearOrder T] in
theorem Visible.of_succ (b : ℕ) :
  Visible m l (m.succ b)
  := .inr (.inr (.inl ⟨b, rfl⟩))

omit [LinearOrder T] in
theorem Visible.of_reaches {a : ℕ} (h : Reaches 0 m.succ m.head.addr a) :
  Visible m l a
  := by
  cases h with
  | refl => exact .inr (.inl rfl)
  | tail _ hstep =>
      rw [← hstep.1]
      apply Visible.of_succ

/-- A marked node keeps its link unless a clean-up replaces it. -/
theorem Sound.frozen (hS : Sound m l) (ho : step m (l i) = some o) (hG : ¬ (l i).pc.Cleans m)
    {a : ℕ} (ha : m.Marked a) :
  o.mem.next a = m.next a
  := by
  have hknows := hS.knows i
  have howned := hS.owned i
  obtain ⟨-, hmoves⟩ := step_moves ho
  generalize (l i).pc = pc at *
  have keep : ∀ {b : ℕ} {p : Ptr}, ¬ m.Marked b → Function.update m.next b p a = m.next a := by
    intro b p hb
    apply Function.update_of_ne
    rintro rfl
    apply hb ha
  cases hmoves with
  | addNew => exact keep (hS.unallocated _ le_rfl)
  | addStore => exact keep (howned _ rfl).2.1
  | added hcas => exact keep (Mem.not_marked hcas hknows.1)
  | swung hcas => exact keep (Mem.not_marked hcas hknows.1)
  | @marked v pre cur nextCur hcas =>
      rcases eq_or_ne a cur.addr with rfl | hne
      · have hmark : nextCur.mark = true := by
          rw [← hcas]
          apply ha
        rw [hcas]
        calc Function.update m.next cur.addr nextCur.getMarked cur.addr
            = nextCur.getMarked := Function.update_self _ _ _
          _ = ⟨nextCur.addr, nextCur.mark⟩ := by rw [hmark, Ptr.getMarked]
      · apply Function.update_of_ne hne
  | @cleaned k v pre cur nextCur hcas =>
      have heq : nextCur = cur := by
        by_contra hne
        apply hG ⟨hcas, hne⟩
      rw [heq, ← hcas]
      exact congrFun (Function.update_eq_self pre.addr m.next) a
  | _ => rfl

/-- Only marked nodes become unreachable unless a clean-up replaces a link. -/
theorem Sound.unlinked (hS : Sound m l) (ho : step m (l i) = some o) (hG : ¬ (l i).pc.Cleans m)
    {a : ℕ} (ha : Reaches 0 m.succ m.head.addr a)
    (hout : ¬ Reaches 0 o.mem.succ o.mem.head.addr a) :
  m.Marked a
  := by
  have hknows := hS.knows i
  have howned := hS.owned i
  have hpointers : ∀ p ∈ (l i).pc.pointers, Visible m l p.addr := fun _ hp => Visible.of_pointer hp
  have elsewhere : ∀ {n b : ℕ}, ¬ Visible m l n →
      Reaches 0 (Function.update m.succ n b) m.head.addr a := by
    intro n b hn
    apply ha.congr
    intro y hy
    apply Function.update_of_ne
    rintro rfl
    apply hn (Visible.of_reaches hy)
  obtain ⟨-, hmoves⟩ := step_moves ho
  generalize (l i).pc = pc at *
  cases hmoves with
  | addNew =>
      rw [Mem.succ_newNode] at hout
      cases hout (elsewhere fun hvisible => lt_irrefl _ (hS.inHeap _ hvisible))
  | addStore =>
      rw [Mem.succ_storeNext] at hout
      cases hout (elsewhere (howned _ rfl).2.2)
  | @added v newNode pre cur hcas =>
      obtain ⟨-, hnext⟩ := hknows
      have hhidden := (howned _ rfl).2.2
      rw [Mem.succ_storeNext] at hout
      apply absurd _ hout
      apply ha.insert
      · intro heq
        rw [heq] at hhidden
        apply hhidden (hpointers pre (by simp [Pc.pointers]))
      · intro hnull
        apply hhidden
        left
        apply hnull
      · rw [Mem.succ, Mem.succ, hnext, hcas]
  | @marked v pre cur nextCur hcas =>
      rw [Mem.succ_storeNext, Ptr.getMarked, ← hcas] at hout
      apply absurd _ hout
      rw [show (m.next cur.addr).addr = m.succ cur.addr from rfl, Function.update_eq_self]
      apply ha
  | @swung v pre cur nextCur hcas =>
      obtain ⟨-, hnext⟩ := hknows
      have hcur : m.succ pre.addr = cur.addr := by
        rw [Mem.succ, hcas]
      have hafter : nextCur.addr = m.succ (m.succ pre.addr) := by
        rw [hcur, Mem.succ, hnext]
        rfl
      rw [Mem.succ_storeNext, hafter] at hout
      obtain rfl := (ha.unlink pre.addr).resolve_left hout
      rw [hcur]
      apply Mem.marked_of_getMarked hnext
  | @cleaned k v pre cur nextCur hcas =>
      have heq : nextCur = cur := by
        by_contra hne
        apply hG ⟨hcas, hne⟩
      rw [Mem.succ_storeNext, heq, ← hcas] at hout
      apply absurd _ hout
      rw [show (m.next pre.addr).addr = m.succ pre.addr from rfl, Function.update_eq_self]
      apply ha
  | _ => cases hout ha

/-- A step is permanent exactly if no clean-up replaces a link in it. -/
theorem Sound.permanent_iff (hS : Sound m l) (ho : step m (l i) = some o) :
  Permanent m o.mem ↔ ¬ (l i).pc.Cleans m
  := by
  constructor
  · rintro ⟨hkeeps, -⟩ hcleans
    have hknows := hS.knows i
    obtain ⟨-, hmoves⟩ := step_moves ho
    generalize (l i).pc = pc at *
    cases hmoves with
    | @cleaned k v pre cur nextCur hcas =>
        have hmarked : m.Marked pre.addr := by
          rw [Mem.Marked, hcas]
          apply hknows
        have hsame := hkeeps _ hmarked
        rw [hcas] at hsame
        apply hcleans.2
        rw [← hsame]
        exact (Function.update_self pre.addr nextCur m.next).symm
    | cleanFails hcas => cases hcas hcleans.1
    | _ => cases hcleans
  · intro hG
    exact ⟨fun a => hS.frozen ho hG, fun a => hS.unlinked ho hG⟩

/-- Nothing becomes visible but a node the thread gives away. -/
theorem Sound.visible_step [DecidableEq ι] (hS : Sound m l) (ho : step m (l i) = some o) {a : ℕ}
    (ha : Visible o.mem (Function.update l i o.loc) a) :
  Visible m l a ∨ (l i).pc.owns = some a ∧ o.loc.pc.owns = none
  := by
  rcases ha with rfl | rfl | ⟨b, rfl⟩ | ⟨j, p, hp, rfl⟩
  · left; left
    rfl
  · left; right; left
    rw [(size_step ho).1]
  · rcases next_step ho (hS.knows i) b with hsame | ⟨-, hnext⟩ | ⟨-, hp, -, hnext⟩ |
      ⟨-, -, howns, hfree⟩ | ⟨-, -, hq, hsucc⟩
    · left
      rw [Mem.succ, hsame]
      apply Visible.of_succ
    · left; left
      rw [Mem.succ, hnext]
      rfl
    · left
      rw [Mem.succ, hnext]
      apply Visible.of_pointer hp
    · right
      exact ⟨howns, hfree⟩
    · left
      rw [hsucc]
      apply Visible.of_pointer hq
  · left
    rcases eq_or_ne j i with rfl | hne
    · rw [Function.update_self] at hp
      rcases pointers_step ho p hp with hp | rfl | ⟨b, rfl⟩
      · apply Visible.of_pointer hp
      · right; left
        rfl
      · apply Visible.of_succ
    · rw [Function.update_of_ne hne] at hp
      apply Visible.of_pointer hp

/-- A node that is not visible stays unmarked. -/
theorem Sound.unmarked_step (hS : Sound m l) (ho : step m (l i) = some o) {a : ℕ}
    (hunmarked : ¬ m.Marked a) (hhidden : ¬ Visible m l a) :
  ¬ o.mem.Marked a
  := by
  intro hmarked
  rcases next_step ho (hS.knows i) a with hsame | ⟨-, hnext⟩ | ⟨-, -, hmark, hnext⟩ |
    ⟨hp, rfl, -, -⟩ | ⟨hp, rfl, -, -⟩
  · rw [Mem.Marked, hsame] at hmarked
    apply hunmarked hmarked
  · rw [Mem.Marked, hnext] at hmarked
    cases hmarked
  · rw [Mem.Marked, hnext, hmark] at hmarked
    cases hmarked
  · apply hhidden (Visible.of_pointer hp)
  · apply hhidden (Visible.of_pointer hp)

/-- What a thread knows after its own step. -/
theorem knows_step (ho : step m (l i) = some o) (hknows : (l i).pc.Knows m) :
  o.loc.pc.Knows o.mem
  := by
  obtain ⟨-, hmoves⟩ := step_moves ho
  generalize (l i).pc = pc at *
  cases hmoves with
  | findStop | cleaned => exact Pc.found_knows
  | cleanLoad | addAbsent | removePresent | removeLoad => exact hknows
  | addStore => exact ⟨hknows, Function.update_self _ _ _⟩
  | marked => exact ⟨hknows, Function.update_self _ _ _⟩
  | _ => trivial

/-- What a thread knows after the step of another. -/
theorem Sound.knows_other (hS : Sound m l) (ho : step m (l i) = some o)
    (hG : ¬ (l i).pc.Cleans m) {j : ι} (hne : j ≠ i) :
  (l j).pc.Knows o.mem
  := by
  have hknows := hS.knows j
  have howned := hS.owned j
  have howns : ∀ a, (l j).pc.owns = some a → (l i).pc.owns = some a → j = i := hS.owns j i
  generalize (l j).pc = pc at *
  cases pc with
  | addCas v newNode pre cur =>
      use hknows.1
      obtain ⟨hlt, -, hhidden⟩ := howned _ rfl
      rcases next_step ho (hS.knows i) newNode.addr with hsame | ⟨hb, -⟩ | ⟨hown, -⟩ |
        ⟨hp, hb, -⟩ | ⟨hp, hb, -⟩
      · rw [hsame]
        apply hknows.2
      · cases hlt.ne hb
      · cases hne (howns _ rfl hown)
      · rw [← hb] at hhidden
        cases hhidden (Visible.of_pointer hp)
      · rw [← hb] at hhidden
        cases hhidden (Visible.of_pointer hp)
  | removeSwing v pre cur nextCur =>
      use hknows.1
      rw [hS.frozen ho hG (Mem.marked_of_getMarked hknows.2), hknows.2]
  | _ => exact hknows

/-- Every step in which no clean-up replaces a link keeps the invariant. -/
theorem Sound.step [DecidableEq ι] (hS : Sound m l) (ho : step m (l i) = some o)
    (hG : ¬ (l i).pc.Cleans m) :
  Sound o.mem (Function.update l i o.loc)
  := by
  obtain ⟨-, hsize⟩ := size_step ho
  have hnew : ¬ Visible m l m.size := fun hvisible => lt_irrefl _ (hS.inHeap _ hvisible)
  constructor
  · intro a ha
    rcases hS.visible_step ho ha with ha | ⟨hown, -⟩
    · apply (hS.inHeap a ha).trans_le hsize
    · apply (hS.owned i a hown).1.trans_le hsize
  · intro a ha
    apply hS.unmarked_step ho (hS.unallocated a (hsize.trans ha))
    intro hvisible
    apply (hS.inHeap a hvisible).not_ge (hsize.trans ha)
  · intro j a ha
    rcases eq_or_ne j i with rfl | hne
    · rw [Function.update_self] at ha
      have hidden : ¬ Visible m l a → ¬ Visible o.mem (Function.update l j o.loc) a := by
        intro hhidden hvisible
        rcases hS.visible_step ho hvisible with hvisible | ⟨-, hfree⟩
        · apply hhidden hvisible
        · rw [ha] at hfree
          cases hfree
      rcases owns_step ho ha with hown | ⟨rfl, hsucc⟩
      · obtain ⟨hlt, hunmarked, hhidden⟩ := hS.owned j a hown
        exact ⟨hlt.trans_le hsize, hS.unmarked_step ho hunmarked hhidden, hidden hhidden⟩
      · refine ⟨?_, hS.unmarked_step ho (hS.unallocated _ le_rfl) hnew, hidden hnew⟩
        rw [hsucc]
        apply Nat.lt_succ_self
    · rw [Function.update_of_ne hne] at ha
      obtain ⟨hlt, hunmarked, hhidden⟩ := hS.owned j a ha
      use hlt.trans_le hsize, hS.unmarked_step ho hunmarked hhidden
      intro hvisible
      rcases hS.visible_step ho hvisible with hvisible | ⟨hown, -⟩
      · apply hhidden hvisible
      · apply hne (hS.owns j i a ha hown)
  · by_cases hmakes : o.loc.pc.owns = some m.size
    · apply hS.owns.take hmakes
      intro j hj
      apply (hS.owned j _ hj).1.ne rfl
    · apply hS.owns.keep
      intro a ha
      apply (owns_step ho ha).resolve_right
      rintro ⟨rfl, -⟩
      apply hmakes ha
  · intro j
    rcases eq_or_ne j i with rfl | hne
    · rw [Function.update_self]
      apply knows_step ho (hS.knows j)
    · rw [Function.update_of_ne hne]
      apply hS.knows_other ho hG hne

end Keep

/-! ### Permanence -/

variable [DecidableEq ι] [Inhabited T]

omit [DecidableEq ι] [LinearOrder T] in
theorem Sound.new {l : ι → Thread T} (hl : ∀ i, (l i).pc = .idle) :
  Sound (Mem.new : Mem T) l
  := by
  have hnext : ∀ a, (Mem.new : Mem T).next a = ⟨2, false⟩ ∨ (Mem.new : Mem T).next a = .null := by
    intro a
    simp only [Mem.new]
    split_ifs
    · left
      rfl
    · right
      rfl
  have hidle : ∀ i, (l i).pc.owns = none ∧ (l i).pc.pointers = [] ∧ (l i).pc.Knows Mem.new := by
    intro i
    rw [hl i]
    exact ⟨rfl, rfl, trivial⟩
  constructor
  · rintro a (rfl | rfl | ⟨b, rfl⟩ | ⟨j, p, hp, -⟩)
    · exact Nat.succ_pos 2
    · exact Nat.lt_add_of_pos_right Nat.two_pos
    · rcases hnext b with h | h <;> rw [Mem.succ, h]
      · exact Nat.lt_succ_self 2
      · exact Nat.succ_pos 2
    · rw [(hidle j).2.1] at hp
      cases hp
  · intro a _
    apply Mem.not_marked_new
  · intro i a ha
    rw [(hidle i).1] at ha
    cases ha
  · apply Exclusive.of_none
    intro i
    apply (hidle i).1
  · intro i
    apply (hidle i).2.2

theorem reachable_sound {h : List (ι × Event T)} {s : Global ι (Mem T) (Thread T)}
    (hs : (list ι T).Reachable Uncleaned h s) :
  Sound s.mem s.loc
  := by
  apply threads_invariant (I := fun m l _ => Sound m l) _ _ hs
  · rintro m l ⟨rfl, hl⟩
    apply Sound.new hl
  · intro m l h i _ o hS hG ho
    apply hS.step ho hG.2

/-- As long as no clean-up replaces a link and no step goes through a marked pointer, a node that
is marked keeps its mark and where it points, and a step is permanent exactly if it does not
replace a link in a clean-up either. -/
theorem deletion_permanent {h : List (ι × Event T)} {s : Global ι (Mem T) (Thread T)}
    (hs : (list ι T).Reachable Uncleaned h s) :
  (∀ h' t, (list ι T).Run Uncleaned s h' t → ∀ a, s.mem.Marked a →
      t.mem.next a = s.mem.next a) ∧
    ∀ a s' e, (list ι T).next s a = some (s', e) → (Permanent s.mem s'.mem ↔ Uncleaned s a)
  := by
  constructor
  · intro h' t hrun a ha
    induction hrun with
    | nil => rfl
    | snoc hrun hG hnext ih =>
        obtain ⟨o, ho, rfl, -⟩ := threads_next.mp hnext
        have hS := reachable_sound (hs.trans hrun)
        rw [← ih]
        apply hS.frozen ho hG.2
        rw [Mem.Marked, ih]
        apply ha
  · rintro ⟨i, c⟩ s' e hnext
    obtain ⟨o, ho, rfl, -⟩ := threads_next.mp hnext
    rw [(reachable_sound hs).permanent_iff ho]
    exact (and_iff_right (not_accessesMarked_of_step ho)).symm

/-- Both threads remove `10`; its node keeps the mark. -/
theorem deletion_permanent_ten :
  ∃ (h : List (Fin 2 × Event ℤ)) (s : Global (Fin 2) (Mem ℤ) (Thread ℤ)),
    (list (Fin 2) ℤ).Reachable Uncleaned h s ∧ s.mem.Marked 3 ∧
      ∀ h' t, (list (Fin 2) ℤ).Run Uncleaned s h' t → t.mem.next 3 = s.mem.next 3
  := by
  have hinit : (list (Fin 2) ℤ).Initial
      ⟨Mem.new, fun i => ⟨if i = 0 then [.add 10, .remove 10] else [.remove 10], .idle⟩⟩ :=
    ⟨rfl, fun _ => rfl⟩
  have hs := Machine.exec_reachable (G := Uncleaned)
    (List.replicate 19 (0, ()) ++ List.replicate 11 (1, ())) hinit rfl
  exact ⟨_, _, hs, rfl, fun h' t hrun => (deletion_permanent hs).1 h' t hrun 3 rfl⟩

/-- Thread `1` walks to the node of `10` to add `15`; thread `0` marks that node, and the
clean-up of thread `1` clears the mark and cuts the node of `20` out, which is not marked. -/
theorem mark_cleared :
  ∃ (h : List (Fin 2 × Event ℤ)) (s : Global (Fin 2) (Mem ℤ) (Thread ℤ)) (s' : _) (e : _),
    (list (Fin 2) ℤ).Reachable Machine.Free h s ∧ (list (Fin 2) ℤ).next s (1, ()) = some (s', e) ∧
      s.mem.Marked 3 ∧ ¬ s'.mem.Marked 3 ∧ ¬ s.mem.Marked 4 ∧
      Reaches 0 s.mem.succ s.mem.head.addr 4 ∧ ¬ Reaches 0 s'.mem.succ s'.mem.head.addr 4
  := by
  have hinit : (list (Fin 2) ℤ).Initial
      ⟨Mem.new, fun i => ⟨if i = 0 then [.add 10, .add 20, .remove 10] else [.add 15], .idle⟩⟩ :=
    ⟨rfl, fun _ => rfl⟩
  have hs := Machine.exec_reachable (G := Machine.Free)
    (List.replicate 22 (0, ()) ++ List.replicate 7 (1, ()) ++ List.replicate 9 (0, ()) ++
      List.replicate 3 (1, ())) hinit rfl
  refine ⟨_, _, _, _, hs, rfl, rfl, Bool.false_ne_true, Bool.false_ne_true, ?_, ?_⟩
  · refine Linked.reaches_of_mem (?_ : Linked 0 _ 1 [1, 2, 3, 4]) 4 (by decide)
    exact ⟨rfl, by decide, rfl, by decide, rfl, by decide, rfl, by decide, rfl⟩
  · intro hreaches
    have hmem := Linked.mem_of_reaches (?_ : Linked 0 _ 1 [1, 2, 3]) (by decide) hreaches
    · revert hmem
      decide
    · exact ⟨rfl, by decide, rfl, by decide, rfl, by decide, rfl⟩

end LockFreeList

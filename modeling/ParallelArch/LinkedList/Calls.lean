import ParallelArch.LinkedList.Pointers

/-!
# The calls of one thread

With one thread no link of the chain is marked between two calls, and a node is deleted as
soon as it is neither in the chain nor in the hands of the thread (`Calm`).  `find` ends
where the value belongs.  So every call comes to an end, follows pointers to live nodes only
and leaves the list calm again: `add` and `remove` act on the set of all values of the chain,
and `contains` walks to the tail sentinel or to the first node not below its value.
-/

namespace LockFreeList

variable {T : Type*} [LinearOrder T] {m m' : Mem T} {xs xs' : List ℕ} {own own' : Option ℕ}
  {todo : List (Call T)}

/-- The argument of a call. -/
def Call.value : Call T → T
  | .add v | .remove v | .contains v => v

/-! ### Ownership -/

/-- The node is `head`, in the chain or the thread's own. -/
def Owned (m : Mem T) (xs : List ℕ) (own : Option ℕ) (a : ℕ) : Prop :=
  a ∈ m.head.addr :: xs ∨ own = some a

instance (m : Mem T) (xs : List ℕ) (own : Option ℕ) (a : ℕ) : Decidable (Owned m xs own a) :=
  inferInstanceAs (Decidable (_ ∨ _))

/-- The nodes given out that are not owned have been deleted once, and no others. -/
def Balanced (m : Mem T) (xs : List ℕ) (own : Option ℕ) : Prop :=
  ∀ a, m.deleted a = if 0 < a ∧ a < m.size ∧ ¬ Owned m xs own a then 1 else 0

omit [LinearOrder T] in
theorem Balanced.deleted (h : Balanced m xs own) {a : ℕ} (ha : Owned m xs own a) :
  m.deleted a = 0
  := by
  rw [h a]
  apply if_neg
  rintro ⟨-, -, hout⟩
  apply hout ha

omit [LinearOrder T] in
theorem Balanced.congr (h : Balanced m xs own) (hdeleted : m'.deleted = m.deleted)
    (hsize : m'.size = m.size) (howned : ∀ a, Owned m' xs' own' a ↔ Owned m xs own a) :
  Balanced m' xs' own'
  := by
  intro a
  rw [hdeleted, h a, hsize]
  simp only [howned]

omit [LinearOrder T] in
theorem Balanced.newNode (h : Balanced m xs none) (v : T) :
  Balanced (m.newNode v) xs (some m.size)
  := by
  intro a
  rw [Mem.newNode_deleted, h a, Mem.newNode_size]
  rcases eq_or_ne a m.size with rfl | hne
  · rw [if_neg, if_neg]
    · rintro ⟨-, -, hout⟩
      apply hout (.inr rfl)
    · rintro ⟨-, hlt, -⟩
      apply lt_irrefl _ hlt
  · have hlt : a < m.size + 1 ↔ a < m.size := by omega
    have howned : Owned (m.newNode v) xs (some m.size) a ↔ Owned m xs none a := by
      simp [Owned, hne.symm]
    simp only [hlt, howned]

omit [LinearOrder T] in
theorem Balanced.delete {a : ℕ} (h : Balanced m xs (some a)) (hpos : 0 < a) (hheap : a < m.size)
    (hout : a ∉ m.head.addr :: xs) :
  Balanced (m.delete a) xs none
  := by
  intro b
  rcases eq_or_ne b a with rfl | hne
  · have hfree : ¬ Owned (m.delete b) xs none b := by
      rintro (hin | hown)
      · apply hout hin
      · cases hown
    rw [if_pos ⟨hpos, hheap, hfree⟩]
    calc (m.delete b).deleted b = m.deleted b + 1 := Function.update_self ..
      _ = 1 := by rw [h.deleted (.inr rfl)]
  · have howned : Owned (m.delete a) xs none b ↔ Owned m xs (some a) b := by
      simp [Owned, hne.symm]
    rw [Mem.delete_size]
    simp only [howned]
    rw [← h b]
    apply Function.update_of_ne hne

/-- A pointer to a node that has been allocated and not been deleted. -/
def Mem.Live (m : Mem T) (p : Ptr) : Prop := m.Accessible p ∧ m.deleted p.addr = 0

instance (m : Mem T) (p : Ptr) : Decidable (m.Live p) := inferInstanceAs (Decidable (_ ∧ _))

/-! ### Between two calls -/

/-- The list while its one thread, with the node `own` in its hands, does not mark: no node
of the chain is marked, and the nodes that are not owned are gone. -/
structure Calm (m : Mem T) (xs : List ℕ) (own : Option ℕ) : Prop where
  shape : Shape m xs
  unmarked : ∀ a ∈ xs, ¬ m.Marked a
  headPtr : m.head.mark = false
  tailPtr : m.tail.mark = false
  balanced : Balanced m xs own

theorem Calm.unmarked' (h : Calm m xs own) {a : ℕ} (ha : a ∈ m.head.addr :: xs) :
  ¬ m.Marked a
  := by
  rcases List.mem_cons.mp ha with rfl | ha
  · apply h.shape.headUnmarked
  · apply h.unmarked a ha

theorem Calm.next_unmarked (h : Calm m xs own) {a : ℕ} (ha : a ∈ m.head.addr :: xs) :
  (m.next a).mark = false
  := Bool.eq_false_of_not_eq_true (h.unmarked' ha)

theorem Calm.live (h : Calm m xs own) {p : Ptr} (hp : p.addr ∈ m.head.addr :: xs)
    (hmark : p.mark = false) :
  m.Live p
  := by
  refine ⟨⟨hmark, ?_, h.shape.inHeap _ hp⟩, h.balanced.deleted (.inl hp)⟩
  apply Nat.pos_of_ne_zero (h.shape.linked.ne_null _ hp)

/-- A step keeps the list calm if it leaves the chain without marks and the books
balanced. -/
theorem Calm.kept {pc pc' : Pc T} (h : Calm m xs own) (hk : Kept m xs pc m' pc' xs')
    (htail : m'.tail = m.tail) (hunmarked : ∀ a ∈ xs', ¬ m'.Marked a)
    (hbalanced : Balanced m' xs' own') :
  Calm m' xs' own'
  := by
  constructor
  · apply hk.shape
  · apply hunmarked
  · rw [hk.later.head]
    apply h.headPtr
  · rw [htail]
    apply h.tailPtr
  · apply hbalanced

theorem Calm.newNode (h : Calm m xs none) (v : T) :
  Calm (m.newNode v) xs (some m.size)
  := by
  apply h.kept (Kept.newNode h.shape) rfl _ (h.balanced.newNode v)
  intro a ha
  rw [Mem.marked_newNode]
  · apply h.unmarked a ha
  · apply (h.shape.inHeap a (List.mem_cons_of_mem _ ha)).ne

theorem Calm.delete {a : ℕ} (h : Calm m xs (some a)) (hpos : 0 < a) (hheap : a < m.size)
    (hout : a ∉ m.head.addr :: xs) :
  Calm (m.delete a) xs none
  := by
  have hkept : Kept m xs .idle (m.delete a) .idle xs := Kept.delete h.shape rfl
  apply h.kept hkept rfl h.unmarked (h.balanced.delete hpos hheap hout)

/-- What a call with the value `v` leaves alone. -/
structure Frame (v : T) (m : Mem T) (xs : List ℕ) (m' : Mem T) (xs' : List ℕ) : Prop where
  head : m'.head = m.head
  tail : m'.tail = m.tail
  size : m.size ≤ m'.size
  value : ∀ a < m.size, m'.value a = m.value a
  stays : ∀ a ∈ xs, m.value a ≠ v → a ∈ xs'

omit [LinearOrder T] in
theorem Frame.refl (v : T) :
  Frame v m xs m xs
  := ⟨rfl, rfl, le_rfl, fun _ _ => rfl, fun _ ha _ => ha⟩

theorem Frame.newNode (hS : Shape m xs) {v : T} (h : Frame v (m.newNode v) xs m' xs') :
  Frame v m xs m' xs'
  := by
  have value : ∀ a < m.size, (m.newNode v).value a = m.value a := by
    intro a ha
    apply Function.update_of_ne ha.ne
  refine ⟨h.head, h.tail, (Nat.le_succ _).trans h.size, ?_, ?_⟩
  · intro a ha
    rw [h.value a (Nat.lt_succ_of_lt ha), value a ha]
  · intro a ha hne
    apply h.stays a ha
    rwa [value a (hS.inHeap a (List.mem_cons_of_mem _ ha))]

variable [Inhabited T]

/-! ### One thread -/

/-- One thread goes from `t` to `t'` while the calls of `h` return, and follows pointers to
live nodes only. -/
def GoesLive (m : Mem T) (t : Thread T) (h : List (Unit × Event T)) (m' : Mem T)
    (t' : Thread T) : Prop :=
  (list Unit T).Run (fun s _ => FollowsLive s) ⟨m, fun _ => t⟩ h ⟨m', fun _ => t'⟩

theorem GoesLive.one {t t' : Thread T} {e : List (Event T)}
    (haccess : ∀ p ∈ t.pc.access m.tail, m.Live p)
    (h : act m t = some { mem := m', loc := t', events := e }) :
  GoesLive m t (e.map (Prod.mk ())) m' t'
  := by
  have hloc : (fun _ : Unit => t') = Function.update (fun _ => t) () t' := by
    funext i
    symm
    apply Function.update_self
  have hlive : FollowsLive (⟨m, fun _ => t⟩ : Global Unit (Mem T) (Thread T)) := fun _ => haccess
  apply Machine.Run.single (a := ((), ())) hlive
  apply threads_next.mpr
  use { mem := m', loc := t', events := e }, (if_pos fun p hp => (haccess p hp).1).trans h
  rw [← hloc]
  exact ⟨rfl, rfl⟩

theorem GoesLive.trans {m₁ m₂ m₃ : Mem T} {t₁ t₂ t₃ : Thread T} {h h' : List (Unit × Event T)}
    (h₁ : GoesLive m₁ t₁ h m₂ t₂) (h₂ : GoesLive m₂ t₂ h' m₃ t₃) :
  GoesLive m₁ t₁ (h ++ h') m₃ t₃
  := Machine.Run.trans h₁ h₂

/-- A step without access that emits nothing. -/
theorem GoesLive.silent {pc : Pc T} {t' : Thread T} (haccess : pc.access m.tail = none)
    (h : act m ⟨todo, pc⟩ = some { mem := m', loc := t' }) :
  GoesLive m ⟨todo, pc⟩ [] m' t'
  := by
  apply GoesLive.one _ h
  rw [haccess]
  rintro p ⟨⟩

/-- A step through the pointer `p` that emits nothing. -/
theorem GoesLive.through {pc : Pc T} {p : Ptr} {t' : Thread T} (hp : m.Live p)
    (haccess : pc.access m.tail = some p)
    (h : act m ⟨todo, pc⟩ = some { mem := m', loc := t' }) :
  GoesLive m ⟨todo, pc⟩ [] m' t'
  := by
  apply GoesLive.one _ h
  rw [haccess]
  rintro _ ⟨⟩
  apply hp

/-! ### Where `find` ends -/

/-- Where `find` ends: `pre` is the last node below `v`, and `cur` follows it. -/
structure Found (m : Mem T) (xs : List ℕ) (v : T) (pre cur : Ptr) : Prop where
  preMark : pre.mark = false
  before : pre.addr = m.head.addr ∨ pre.addr ∈ xs ∧ m.value pre.addr < v
  link : m.next pre.addr = cur
  curMark : cur.mark = false
  after : cur = .null ∨ cur.addr ∈ xs ∧ v ≤ m.value cur.addr

omit [Inhabited T] in
theorem Found.preIn {v : T} {pre cur : Ptr} (h : Found m xs v pre cur) :
  pre.addr ∈ m.head.addr :: xs
  := List.mem_cons.mpr (h.before.imp_right And.left)

/-- The walk of `find` along the rest `ws` of the chain. -/
theorem find_walk (h : Calm m xs own) (todo : List (Call T)) (k : Caller) (v : T) {ws : List ℕ} :
  ∀ {pre cur : Ptr}, pre.mark = false →
    (pre.addr = m.head.addr ∨ pre.addr ∈ xs ∧ m.value pre.addr < v) → m.next pre.addr = cur →
    Linked 0 m.succ cur.addr ws → (∀ a ∈ ws, a ∈ xs) →
    ∃ pre' cur', GoesLive m ⟨todo, .findTest k v pre cur⟩ [] m ⟨todo, .found k v pre' cur'⟩ ∧
      Found m xs v pre' cur'
  := by
  induction ws with
  | nil =>
      intro pre cur hpre hbefore hlink hnull _
      have hcur : cur.mark = false := by
        rw [← hlink]
        apply h.next_unmarked (List.mem_cons.mpr (hbefore.imp_right And.left))
      have heq := Ptr.eq_null hcur hnull
      refine ⟨pre, cur, ?_, hpre, hbefore, hlink, hcur, .inl heq⟩
      apply GoesLive.silent
      · apply if_pos heq
      · exact if_pos (.inl heq)
  | cons a ws ih =>
      rintro pre cur hpre hbefore hlink ⟨rfl, hnull, hrest⟩ hws
      have hmem : cur.addr ∈ xs := hws _ List.mem_cons_self
      have hcur : cur.mark = false := by
        rw [← hlink]
        apply h.next_unmarked (List.mem_cons.mpr (hbefore.imp_right And.left))
      have hne : cur ≠ .null := by
        rintro rfl
        apply hnull rfl
      have hlive : m.Live cur := h.live (List.mem_cons_of_mem _ hmem) hcur
      have hptr := Ptr.getPointer_of_unmarked hcur
      have htest : (Pc.findTest k v pre cur).access m.tail = some cur := by
        rw [Pc.access, if_neg hne, hptr]
      have hnext : (Pc.findNext k v pre cur).access m.tail = some cur := by
        rw [Pc.access, hptr]
      by_cases hle : v ≤ m.value cur.addr
      · refine ⟨pre, cur, ?_, hpre, hbefore, hlink, hcur, .inr ⟨hmem, hle⟩⟩
        apply GoesLive.through hlive htest
        exact if_pos (.inr hle)
      · obtain ⟨pre', cur', hgoes, hfound⟩ := ih hcur (.inr ⟨hmem, not_le.mp hle⟩) rfl hrest
          (fun b hb => hws b (List.mem_cons_of_mem _ hb))
        have hon : GoesLive m ⟨todo, .findTest k v pre cur⟩ [] m
            ⟨todo, .findNext k v pre cur⟩ := by
          apply GoesLive.through hlive htest
          exact if_neg (not_or.mpr ⟨hne, hle⟩)
        have hload : GoesLive m ⟨todo, .findNext k v pre cur⟩ [] m
            ⟨todo, .findTest k v cur (m.next cur.addr)⟩ := by
          apply GoesLive.through hlive hnext
          rfl
        exact ⟨pre', cur', (hon.trans hload).trans hgoes, hfound⟩

/-- `find` ends where the value belongs. -/
theorem find_goes (h : Calm m xs own) (todo : List (Call T)) (k : Caller) (v : T) :
  ∃ pre cur, GoesLive m ⟨todo, .findHead k v⟩ [] m ⟨todo, .found k v pre cur⟩ ∧
    Found m xs v pre cur
  := by
  obtain ⟨pre, cur, hgoes, hfound⟩ := find_walk h todo k v h.headPtr (.inl rfl) rfl
    h.shape.linked.2.2 (fun _ => id)
  have hhead : GoesLive m ⟨todo, .findHead k v⟩ [] m ⟨todo, .findFirst k v m.head⟩ :=
    GoesLive.silent rfl rfl
  have hlive := h.live List.mem_cons_self h.headPtr
  have hfirst : GoesLive m ⟨todo, .findFirst k v m.head⟩ [] m
      ⟨todo, .findTest k v m.head (m.next m.head.addr)⟩ :=
    GoesLive.through hlive rfl rfl
  exact ⟨pre, cur, (hhead.trans hfirst).trans hgoes, hfound⟩

omit [Inhabited T] in
theorem Found.live {v : T} {pre cur : Ptr} (h : Calm m xs own) (hf : Found m xs v pre cur) :
  ∀ p ∈ (if cur = .null then none else some cur.getPointer), m.Live p
  := by
  intro p hp
  obtain ⟨hne, hp⟩ := Option.ite_none_left_eq_some.mp hp
  rw [Ptr.getPointer_of_unmarked hf.curMark] at hp
  cases hp
  apply h.live _ hf.curMark
  apply List.mem_cons_of_mem _ (hf.after.resolve_left hne).1

omit [Inhabited T] in
theorem Found.before_ok {v : T} {pre cur : Ptr} (hf : Found m xs v pre cur) :
  Before m xs v pre
  := hf.before.imp_right fun h => ⟨.inl h.1, h.2⟩

omit [Inhabited T] in
/-- If `cur` does not carry the value, no node of the chain does. -/
theorem Found.absent {v : T} {pre cur : Ptr} (hS : Shape m xs) (hf : Found m xs v pre cur)
    (hne : cur = .null ∨ m.value cur.addr ≠ v) :
  ∀ a ∈ xs, m.value a ≠ v
  := by
  have above : ∀ {ws}, Linked 0 m.succ (m.succ pre.addr) ws →
      ws.Pairwise (fun a b => m.value a < m.value b) → ∀ a ∈ ws, v < m.value a := by
    intro ws hlinked hsorted
    apply lt_of_lt_head hsorted
    intro w hw
    have hcur := hlinked.head_eq hw
    have hpos := hlinked.ne_null w (List.mem_of_mem_head? hw)
    rw [Mem.succ, hf.link] at hcur
    have hnull : cur ≠ .null := by
      rintro rfl
      apply hpos hcur.symm
    rw [← hcur]
    apply lt_of_le_of_ne (hf.after.resolve_left hnull).2
    apply (hne.resolve_left hnull).symm
  rcases hf.before with hpre | ⟨hpre, hlt⟩
  · have hrest := hS.linked.2.2
    rw [← hpre] at hrest
    intro a ha
    exact (above hrest hS.sorted a ha).ne'
  · obtain ⟨us, ws, rfl⟩ := List.append_of_mem hpre
    obtain ⟨-, hws, hus⟩ := List.pairwise_append.mp hS.sorted
    obtain ⟨-, hws⟩ := List.pairwise_cons.mp hws
    have hlinked : Linked 0 m.succ m.head.addr ((m.head.addr :: us) ++ pre.addr :: ws) := hS.linked
    intro a ha
    rcases List.mem_append.mp ha with ha | ha
    · exact ((hus a ha _ List.mem_cons_self).trans hlt).ne
    · rcases List.mem_cons.mp ha with rfl | ha
      · exact hlt.ne
      · exact (above hlinked.behind hws a ha).ne'

omit [LinearOrder T] [Inhabited T] in
theorem Pc.found_of_unmarked {k : Caller} {v : T} {pre cur : Ptr} (h : cur.mark = false) :
  (Pc.found k v pre cur : Pc T)
    = match k with
      | .add newNode => .addTest v newNode pre cur
      | .remove => .removeTest v pre cur
  := by
  unfold Pc.found
  apply if_neg
  rw [h]
  rintro ⟨-, ⟨⟩⟩

/-! ### The calls -/

/-- The call ends with the answer `b` and leaves the list calm. -/
structure Ends (m : Mem T) (xs : List ℕ) (c : Call T) (todo : List (Call T)) (b : Bool)
    (m' : Mem T) (xs' : List ℕ) : Prop where
  goes : GoesLive m ⟨c :: todo, .idle⟩ [((), .returned c b)] m' ⟨todo, .idle⟩
  calm : Calm m' xs' none
  frame : Frame c.value m xs m' xs'

omit [LinearOrder T] [Inhabited T] in
theorem Private.notMem {a : ℕ} (h : Private m xs a) :
  a ∉ m.head.addr :: xs
  := by
  intro ha
  rcases List.mem_cons.mp ha with ha | ha
  · apply h.notHead ha
  · apply h.unseen (.inl ha)

/-- The end of an `add` that has found the value. -/
theorem add_present {v : T} {newNode pre cur : Ptr} (h : Calm m xs own) (hf : Found m xs v pre cur)
    (hne : cur ≠ .null) (hvalue : m.value cur.addr = v) :
  GoesLive m ⟨todo, .addTest v newNode pre cur⟩ [((), .returned (.add v) false)]
    (m.delete newNode.addr) ⟨todo, .idle⟩
  := by
  have htest : GoesLive m ⟨todo, .addTest v newNode pre cur⟩ [] m
      ⟨todo, .addDelete v newNode⟩ := by
    apply GoesLive.one (e := [])
    · apply hf.live h
    · exact if_pos ⟨hne, hvalue, hf.curMark⟩
  have hdelete : GoesLive m ⟨todo, .addDelete v newNode⟩ [((), .returned (.add v) false)]
      (m.delete newNode.addr) ⟨todo, .idle⟩ := by
    apply GoesLive.one (e := [.returned (.add v) false]) _ rfl
    rintro p ⟨⟩
  exact htest.trans hdelete

omit [Inhabited T] in
/-- Where the value has not been found its node can be linked in. -/
theorem Found.store_ok {v : T} {newNode pre cur : Ptr} (h : Calm m xs own)
    (hf : Found m xs v pre cur) (hmine : Mine m xs v newNode)
    (hne : cur = .null ∨ m.value cur.addr ≠ v) :
  (Pc.addStore v newNode pre cur).Ok m xs
  := by
  refine ⟨hmine, hf.before_ok, ?_, hf.curMark⟩
  rcases hf.after with rfl | ⟨hcur, hle⟩
  · left
    rfl
  · right
    use .inl hcur
    apply lt_of_le_of_ne hle
    apply (hne.resolve_left _).symm
    rintro rfl
    apply h.shape.linked.ne_null _ (List.mem_cons_of_mem _ hcur) rfl

omit [Inhabited T] in
theorem Found.pre_ne {v : T} {newNode pre cur : Ptr} (hf : Found m xs v pre cur)
    (hmine : Mine m xs v newNode) :
  pre.addr ≠ newNode.addr
  := by
  intro heq
  apply hmine.isPrivate.notMem
  rw [← heq]
  apply hf.preIn

omit [Inhabited T] in
/-- The list after the two stores of an `add`. -/
theorem Calm.link {v : T} {newNode pre cur : Ptr} (h : Calm m xs (some newNode.addr))
    (hf : Found m xs v pre cur) (hmine : Mine m xs v newNode)
    (hne : cur = .null ∨ m.value cur.addr ≠ v) :
  ∃ xs', Calm ((m.storeNext newNode.addr cur).storeNext pre.addr newNode) xs' none ∧
    (∀ a, a ∈ xs' ↔ a = newNode.addr ∨ a ∈ xs) ∧ v ∉ Alive m xs ∧
    Alive ((m.storeNext newNode.addr cur).storeNext pre.addr newNode) xs'
      = insert v (Alive m xs)
  := by
  have fresh : ∀ a ∈ xs, a ≠ newNode.addr := by
    rintro a ha rfl
    apply hmine.isPrivate.notMem (List.mem_cons_of_mem _ ha)
  have hkept := Kept.prepare h.shape (hf.store_ok h hmine hne)
  have hcas : (m.storeNext newNode.addr cur).next pre.addr = cur :=
    (Function.update_of_ne (hf.pre_ne hmine) _ _).trans hf.link
  obtain ⟨xs', hkept', hmem⟩ := Kept.link hkept.shape hkept.ok hcas
  have heffect : (Pc.addCas v newNode pre cur).effect (m.storeNext newNode.addr cur)
      = .insert v := if_pos hcas
  have hset := hkept'.set
  have hallowed := hkept'.allowed
  have hsame : Alive (m.storeNext newNode.addr cur) xs = Alive m xs := hkept.set
  rw [heffect, hsame] at hset hallowed
  refine ⟨xs', ⟨hkept'.shape, ?_, h.headPtr, h.tailPtr, ?_⟩, hmem, hallowed, hset⟩
  · intro a ha
    rcases eq_or_ne a pre.addr with rfl | hapre
    · rw [Mem.marked_storeNext, hmine.unmarked]
      rintro ⟨⟩
    · rw [Mem.marked_storeNext_of_ne hapre]
      rcases (hmem a).mp ha with rfl | ha
      · rw [Mem.marked_storeNext, hf.curMark]
        rintro ⟨⟩
      · rw [Mem.marked_storeNext_of_ne (fresh a ha)]
        apply h.unmarked a ha
  · apply h.balanced.congr rfl rfl
    intro a
    simp only [Owned, List.mem_cons, hmem, Option.some.injEq, reduceCtorEq, or_false]
    constructor
    · rintro (ha | rfl | ha)
      · exact .inl (.inl ha)
      · exact .inr rfl
      · exact .inl (.inr ha)
    · rintro ((ha | ha) | rfl)
      · exact .inl ha
      · exact .inr (.inr ha)
      · exact .inr (.inl rfl)

/-- The end of an `add` that has not found the value: the new node is linked in. -/
theorem add_absent {v : T} {newNode pre cur : Ptr} (h : Calm m xs (some newNode.addr))
    (hf : Found m xs v pre cur) (hmine : Mine m xs v newNode)
    (hne : cur = .null ∨ m.value cur.addr ≠ v) :
  GoesLive m ⟨todo, .addTest v newNode pre cur⟩ [((), .returned (.add v) true)]
    ((m.storeNext newNode.addr cur).storeNext pre.addr newNode) ⟨todo, .idle⟩
  := by
  have habsent : ¬ (cur ≠ .null ∧ m.value cur.addr = v ∧ cur.mark = false) := by
    rintro ⟨hnull, hvalue, -⟩
    apply hne.resolve_left hnull hvalue
  have htest : GoesLive m ⟨todo, .addTest v newNode pre cur⟩ [] m
      ⟨todo, .addStore v newNode pre cur⟩ := by
    apply GoesLive.one (e := [])
    · apply hf.live h
    · exact if_neg habsent
  have hprivate := hmine.isPrivate
  have hlive : m.Live newNode :=
    ⟨⟨hmine.unmarked, hprivate.pos, hprivate.inHeap⟩, h.balanced.deleted (.inr rfl)⟩
  have hstore : GoesLive m ⟨todo, .addStore v newNode pre cur⟩ []
      (m.storeNext newNode.addr cur) ⟨todo, .addCas v newNode pre cur⟩ :=
    GoesLive.through hlive rfl rfl
  have hcas : (m.storeNext newNode.addr cur).next pre.addr = cur :=
    (Function.update_of_ne (hf.pre_ne hmine) _ _).trans hf.link
  have hlink : GoesLive (m.storeNext newNode.addr cur) ⟨todo, .addCas v newNode pre cur⟩
      [((), .returned (.add v) true)]
      ((m.storeNext newNode.addr cur).storeNext pre.addr newNode) ⟨todo, .idle⟩ := by
    apply GoesLive.one (e := [.returned (.add v) true])
    · rintro p ⟨⟩
      apply h.live hf.preIn hf.preMark
    · exact if_pos hcas
  exact (htest.trans hstore).trans hlink

/-- `add` answers whether its value was absent, and inserts it. -/
theorem add_goes (h : Calm m xs none) (todo : List (Call T)) (v : T) :
  ∃ m' xs' b, Ends m xs (.add v) todo b m' xs' ∧ (b = true ↔ v ∉ Alive m xs) ∧
    Alive m' xs' = insert v (Alive m xs)
  := by
  have hbegin : GoesLive m ⟨.add v :: todo, .idle⟩ [] m ⟨todo, .addNew v⟩ :=
    GoesLive.silent rfl rfl
  have hnew : GoesLive m ⟨todo, .addNew v⟩ [] (m.newNode v)
      ⟨todo, .findHead (.add ⟨m.size, false⟩) v⟩ := GoesLive.silent rfl rfl
  have hkept := Kept.newNode (v := v) h.shape
  have hmine : Mine (m.newNode v) xs v ⟨m.size, false⟩ := hkept.ok
  have halive : Alive (m.newNode v) xs = Alive m xs := hkept.set
  have hcalm := h.newNode v
  obtain ⟨pre, cur, hfind, hf⟩ := find_goes hcalm todo (.add ⟨m.size, false⟩) v
  rw [Pc.found_of_unmarked hf.curMark] at hfind
  have hstart := (hbegin.trans hnew).trans hfind
  by_cases hpresent : cur ≠ .null ∧ (m.newNode v).value cur.addr = v
  · obtain ⟨hne, hvalue⟩ := hpresent
    have hmem : v ∈ Alive m xs := by
      rw [← halive]
      have hcur := (hf.after.resolve_left hne).1
      exact ⟨cur.addr, hcur, hvalue, hcalm.unmarked _ hcur⟩
    refine ⟨_, xs, false, ⟨hstart.trans (add_present hcalm hf hne hvalue), ?_, ?_⟩, ?_, ?_⟩
    · apply hcalm.delete hmine.isPrivate.pos hmine.isPrivate.inHeap hmine.isPrivate.notMem
    · apply Frame.newNode h.shape
      exact ⟨rfl, rfl, le_rfl, fun _ _ => rfl, fun _ ha _ => ha⟩
    · simp [hmem]
    · rw [Set.insert_eq_of_mem hmem]
      apply halive
  · rw [not_and_or, not_not] at hpresent
    obtain ⟨xs', hcalm', hmem, hout, hset⟩ := hcalm.link hf hmine hpresent
    rw [halive] at hout hset
    have hgoes := hstart.trans (add_absent hcalm hf hmine hpresent)
    refine ⟨_, xs', true, ⟨hgoes, hcalm', ?_⟩, ?_, hset⟩
    · apply Frame.newNode h.shape
      refine ⟨rfl, rfl, le_rfl, fun _ _ => rfl, ?_⟩
      intro a ha _
      exact (hmem a).mpr (.inr ha)
    · simp [hout]

omit [Inhabited T] in
/-- The list after the two stores of a `remove`. -/
theorem Calm.unlink {v : T} {pre cur nextCur : Ptr} (h : Calm m xs none)
    (hf : Found m xs v pre cur) (hne : cur ≠ .null) (hvalue : m.value cur.addr = v)
    (hpre : pre.addr ≠ cur.addr) (hnext : m.next cur.addr = nextCur) :
  ∃ xs', Calm ((m.storeNext cur.addr nextCur.getMarked).storeNext pre.addr nextCur) xs'
      (some cur.addr) ∧ (∀ a, a ∈ xs' ↔ a ∈ xs ∧ a ≠ cur.addr) ∧
    Alive ((m.storeNext cur.addr nextCur.getMarked).storeNext pre.addr nextCur) xs'
      = Alive m xs \ {v}
  := by
  have hcur : cur.addr ∈ xs := (hf.after.resolve_left hne).1
  have hbit : nextCur.mark = false := by
    rw [← hnext]
    apply h.next_unmarked (List.mem_cons_of_mem _ hcur)
  have hok : (Pc.removeMark v pre cur nextCur).Ok m xs :=
    ⟨hf.before_ok, .inl hcur, hvalue, hf.curMark⟩
  have hkept := Kept.mark h.shape hok hnext hbit
  have hcas : (m.storeNext cur.addr nextCur.getMarked).next pre.addr = cur :=
    (Function.update_of_ne hpre _ _).trans hf.link
  obtain ⟨xs', hkept', hmem⟩ := Kept.unlink hkept.shape hkept.ok hcas
  refine ⟨xs', ⟨hkept'.shape, ?_, h.headPtr, h.tailPtr, ?_⟩, hmem, ?_⟩
  · intro a ha
    obtain ⟨ha, hne⟩ := (hmem a).mp ha
    rcases eq_or_ne a pre.addr with rfl | hapre
    · rw [Mem.marked_storeNext, hbit]
      rintro ⟨⟩
    · rw [Mem.marked_storeNext_of_ne hapre, Mem.marked_storeNext_of_ne hne]
      apply h.unmarked a ha
  · apply h.balanced.congr rfl rfl
    intro a
    simp only [Owned, List.mem_cons, hmem, Option.some.injEq, reduceCtorEq, or_false]
    constructor
    · rintro ((ha | ⟨ha, -⟩) | rfl)
      · exact .inl ha
      · exact .inr ha
      · exact .inr hcur
    · intro ha
      rcases eq_or_ne a cur.addr with rfl | hne
      · exact .inr rfl
      · exact .inl (ha.imp_right fun ha => ⟨ha, hne⟩)
  · have heffect : (Pc.removeMark v pre cur nextCur).effect m = .erase v := if_pos hnext
    have hset := hkept.set
    rw [heffect] at hset
    exact Eq.trans hkept'.set hset

/-- The end of a `remove` that has found the value: its node is marked, cut out and
deleted. -/
theorem remove_present {v : T} {pre cur nextCur : Ptr} (h : Calm m xs none)
    (hf : Found m xs v pre cur) (hne : cur ≠ .null) (hvalue : m.value cur.addr = v)
    (hpre : pre.addr ≠ cur.addr) (hnext : m.next cur.addr = nextCur) :
  GoesLive m ⟨todo, .removeTest v pre cur⟩ [((), .returned (.remove v) true)]
    (((m.storeNext cur.addr nextCur.getMarked).storeNext pre.addr nextCur).delete cur.addr)
    ⟨todo, .idle⟩
  := by
  have hcur : cur.addr ∈ xs := (hf.after.resolve_left hne).1
  have hlive : m.Live cur := h.live (List.mem_cons_of_mem _ hcur) hf.curMark
  have hptr := Ptr.getPointer_of_unmarked hf.curMark
  have htest : GoesLive m ⟨todo, .removeTest v pre cur⟩ [] m ⟨todo, .removeLoad v pre cur⟩ := by
    apply GoesLive.one (e := [])
    · apply hf.live h
    · exact if_neg (not_or.mpr ⟨hne, not_not.mpr hvalue⟩)
  have hload : GoesLive m ⟨todo, .removeLoad v pre cur⟩ [] m
      ⟨todo, .removeMark v pre cur nextCur⟩ := by
    apply GoesLive.through hlive
    · rw [Pc.access, hptr]
    · rw [← hnext]
      rfl
  have hmark : GoesLive m ⟨todo, .removeMark v pre cur nextCur⟩ []
      (m.storeNext cur.addr nextCur.getMarked) ⟨todo, .removeSwing v pre cur nextCur⟩ := by
    apply GoesLive.through hlive
    · rw [Pc.access, hptr]
    · exact if_pos hnext
  have hcas : (m.storeNext cur.addr nextCur.getMarked).next pre.addr = cur :=
    (Function.update_of_ne hpre _ _).trans hf.link
  have hpreLive : (m.storeNext cur.addr nextCur.getMarked).Live pre :=
    h.live hf.preIn hf.preMark
  have hswing : GoesLive (m.storeNext cur.addr nextCur.getMarked)
      ⟨todo, .removeSwing v pre cur nextCur⟩ []
      ((m.storeNext cur.addr nextCur.getMarked).storeNext pre.addr nextCur)
      ⟨todo, .removeDelete v cur⟩ :=
    GoesLive.through hpreLive rfl (if_pos hcas)
  have hdelete : GoesLive ((m.storeNext cur.addr nextCur.getMarked).storeNext pre.addr nextCur)
      ⟨todo, .removeDelete v cur⟩ [((), .returned (.remove v) true)]
      (((m.storeNext cur.addr nextCur.getMarked).storeNext pre.addr nextCur).delete cur.addr)
      ⟨todo, .idle⟩ := by
    apply GoesLive.one (e := [.returned (.remove v) true])
    · rintro p ⟨⟩
    · rfl
  exact (((htest.trans hload).trans hmark).trans hswing).trans hdelete

/-- `remove` answers whether its value was present, and erases it. -/
theorem remove_goes (h : Calm m xs none) (todo : List (Call T)) (v : T) :
  ∃ m' xs' b, Ends m xs (.remove v) todo b m' xs' ∧ (b = true ↔ v ∈ Alive m xs) ∧
    Alive m' xs' = Alive m xs \ {v}
  := by
  have hbegin : GoesLive m ⟨.remove v :: todo, .idle⟩ [] m ⟨todo, .findHead .remove v⟩ :=
    GoesLive.silent rfl rfl
  obtain ⟨pre, cur, hfind, hf⟩ := find_goes h todo .remove v
  rw [Pc.found_of_unmarked hf.curMark] at hfind
  have hstart := hbegin.trans hfind
  by_cases hpresent : cur ≠ .null ∧ m.value cur.addr = v
  · obtain ⟨hne, hvalue⟩ := hpresent
    have hcur := (hf.after.resolve_left hne).1
    have halive : v ∈ Alive m xs := ⟨cur.addr, hcur, hvalue, h.unmarked _ hcur⟩
    have hpre : pre.addr ≠ cur.addr := by
      intro heq
      rcases hf.before with hhead | ⟨-, hlt⟩
      · apply h.shape.headOut
        rw [← hhead, heq]
        apply hcur
      · rw [heq, hvalue] at hlt
        exact lt_irrefl v hlt
    obtain ⟨xs', hcalm, hmem, hset⟩ := h.unlink hf hne hvalue hpre rfl
    have hgoes := hstart.trans (remove_present h hf hne hvalue hpre rfl)
    have hlive := (h.live (List.mem_cons_of_mem _ hcur) hf.curMark).1
    refine ⟨_, xs', true, ⟨hgoes, ?_, ?_⟩, ?_, hset⟩
    · apply hcalm.delete hlive.2.1 hlive.2.2
      intro hin
      rcases List.mem_cons.mp hin with heq | hin
      · have hhead : cur.addr = m.head.addr := heq
        apply h.shape.headOut
        rwa [← hhead]
      · apply ((hmem _).mp hin).2 rfl
    · refine ⟨rfl, rfl, le_rfl, fun _ _ => rfl, ?_⟩
      intro a ha hav
      apply (hmem a).mpr
      use ha
      rintro rfl
      apply hav hvalue
    · simp [halive]
  · rw [not_and_or, not_not] at hpresent
    have hout : v ∉ Alive m xs := by
      rintro ⟨a, ha, hvalue, -⟩
      apply hf.absent h.shape hpresent a ha hvalue
    have habsent : GoesLive m ⟨todo, .removeTest v pre cur⟩ [((), .returned (.remove v) false)] m
        ⟨todo, .idle⟩ := by
      apply GoesLive.one (e := [.returned (.remove v) false])
      · apply hf.live h
      · exact if_pos hpresent
    refine ⟨m, xs, false, ⟨hstart.trans habsent, h, Frame.refl v⟩, ?_, ?_⟩
    · simp [hout]
    · symm
      apply Set.sdiff_singleton_eq_self hout

/-- `contains` stops at the tail sentinel and at nodes not below `v`. -/
def Mem.stops (m : Mem T) (v : T) (a : ℕ) : Bool := decide (a = m.tail.addr ∨ v ≤ m.value a)

theorem contains_stop {v : T} {cur : Ptr} (hcur : cur.mark = false)
    (hstop : cur = .null ∨ cur = m.tail ∨ m.Live cur ∧ v ≤ m.value cur.addr) :
  GoesLive m ⟨todo, .containsTest v cur⟩ [] m ⟨todo, .containsTail v cur⟩
  := by
  have hptr := Ptr.getPointer_of_unmarked hcur
  have hact : act m ⟨todo, .containsTest v cur⟩
      = some { mem := m, loc := ⟨todo, .containsTail v cur.getPointer⟩ } := by
    apply if_neg
    rw [hptr]
    rintro ⟨hnull, htail, hlt⟩
    apply hlt.not_ge ((hstop.resolve_left hnull).resolve_left htail).2
  rw [hptr] at hact
  apply GoesLive.one (e := []) _ hact
  intro p hp
  rw [Pc.access, hptr] at hp
  obtain ⟨hne, hp⟩ := Option.ite_none_left_eq_some.mp hp
  cases hp
  rw [not_or] at hne
  apply ((hstop.resolve_left hne.1).resolve_left hne.2).1

/-- The walk of `contains` along the rest `ws` of the chain. -/
theorem contains_walk (h : Calm m xs own) (todo : List (Call T)) (v : T) {ws : List ℕ} :
  ∀ {cur : Ptr}, cur.mark = false → Linked 0 m.succ cur.addr ws →
    (∀ a ∈ ws, a ∈ m.head.addr :: xs) →
    ∃ cur', GoesLive m ⟨todo, .containsTest v cur⟩ [] m ⟨todo, .containsTail v cur'⟩ ∧
      cur'.mark = false ∧ cur'.addr = (ws.find? (m.stops v)).getD 0
  := by
  induction ws with
  | nil =>
      intro cur hcur hnull _
      have heq := Ptr.eq_null hcur hnull
      exact ⟨cur, contains_stop hcur (.inl heq), hcur, hnull⟩
  | cons a ws ih =>
      rintro cur hcur ⟨rfl, hnull, hrest⟩ hws
      have hmem := hws _ List.mem_cons_self
      have hlive := h.live hmem hcur
      by_cases hstop : m.stops v cur.addr = true
      · refine ⟨cur, contains_stop hcur ?_, hcur, ?_⟩
        · right
          apply (of_decide_eq_true hstop).imp
          · apply Ptr.eq_of_addr hcur h.tailPtr
          · apply And.intro hlive
        · rw [List.find?_cons_of_pos hstop]
          rfl
      · obtain ⟨htail, hlt⟩ : cur.addr ≠ m.tail.addr ∧ m.value cur.addr < v := by
          simpa [Mem.stops] using hstop
        have hptr := Ptr.getPointer_of_unmarked hcur
        have hne : cur ≠ .null ∧ cur ≠ m.tail := by
          constructor
          · rintro rfl
            apply hnull rfl
          · rintro rfl
            apply htail rfl
        have hon : GoesLive m ⟨todo, .containsTest v cur⟩ [] m ⟨todo, .containsNext v cur⟩ := by
          apply GoesLive.through hlive
          · rw [Pc.access, hptr]
            exact if_neg (not_or.mpr hne)
          · apply if_pos
            rw [hptr]
            exact ⟨hne.1, hne.2, hlt⟩
        have hload : GoesLive m ⟨todo, .containsNext v cur⟩ [] m
            ⟨todo, .containsTest v (m.next cur.addr)⟩ := GoesLive.through hlive rfl rfl
        obtain ⟨cur', hgoes, hcur', haddr⟩ := ih (h.next_unmarked hmem) hrest
          (fun b hb => hws b (List.mem_cons_of_mem _ hb))
        refine ⟨cur', (hon.trans hload).trans hgoes, hcur', ?_⟩
        rw [List.find?_cons_of_neg hstop, haddr]

/-- `contains` answers whether the node it stops at carries its value and is not the tail
sentinel. -/
theorem contains_goes (h : Calm m xs none) (todo : List (Call T)) (v : T) :
  ∃ b, Ends m xs (.contains v) todo b m xs ∧
    (b = true ↔ ∃ a, (m.head.addr :: xs).find? (m.stops v) = some a ∧ a ≠ m.tail.addr ∧
      m.value a = v)
  := by
  have hbegin : GoesLive m ⟨.contains v :: todo, .idle⟩ [] m ⟨todo, .containsHead v⟩ :=
    GoesLive.silent rfl rfl
  have hhead : GoesLive m ⟨todo, .containsHead v⟩ [] m ⟨todo, .containsTest v m.head⟩ :=
    GoesLive.silent rfl rfl
  obtain ⟨cur, hwalk, hcur, haddr⟩ := contains_walk h todo v h.headPtr h.shape.linked
    (fun _ => id)
  have hstart := (hbegin.trans hhead).trans hwalk
  have stopped : ∀ {a}, (m.head.addr :: xs).find? (m.stops v) = some a → cur.addr = a := by
    intro a ha
    rw [haddr, ha]
    rfl
  have found : cur ≠ .null → (m.head.addr :: xs).find? (m.stops v) = some cur.addr := by
    intro hnull
    cases hfind : (m.head.addr :: xs).find? (m.stops v) with
    | none =>
        rw [hfind] at haddr
        cases hnull (Ptr.eq_null hcur haddr)
    | some a => rw [stopped hfind]
  have hlive : cur ≠ .null → m.Live cur := fun hnull =>
    h.live (List.mem_of_find?_eq_some (found hnull)) hcur
  have haccess : ∀ p ∈ (Pc.containsTail v cur).access m.tail, m.Live p := by
    intro p hp
    obtain ⟨hne, hp⟩ := Option.ite_none_left_eq_some.mp hp
    cases hp
    apply hlive (not_or.mp hne).1
  by_cases hpresent : cur ≠ .null ∧ cur ≠ m.tail ∧ m.value cur.addr = v
  · obtain ⟨hnull, htail, hvalue⟩ := hpresent
    have htest : GoesLive m ⟨todo, .containsTail v cur⟩ [] m ⟨todo, .containsMark v cur⟩ := by
      apply GoesLive.one (e := [])
      · apply haccess
      · exact if_pos ⟨hnull, htail, hvalue⟩
    have hmark : GoesLive m ⟨todo, .containsMark v cur⟩
        [((), .returned (.contains v) !(m.next cur.addr).mark)] m ⟨todo, .idle⟩ := by
      apply GoesLive.one (e := [.returned (.contains v) !(m.next cur.addr).mark])
      · rintro p ⟨⟩
        apply hlive hnull
      · rfl
    rw [h.next_unmarked (List.mem_of_find?_eq_some (found hnull))] at hmark
    refine ⟨true, ⟨(hstart.trans htest).trans hmark, h, Frame.refl v⟩, ?_⟩
    apply iff_of_true rfl
    refine ⟨cur.addr, found hnull, ?_, hvalue⟩
    intro heq
    apply htail (Ptr.eq_of_addr hcur h.tailPtr heq)
  · have habsent : GoesLive m ⟨todo, .containsTail v cur⟩ [((), .returned (.contains v) false)] m
        ⟨todo, .idle⟩ := by
      apply GoesLive.one (e := [.returned (.contains v) false])
      · apply haccess
      · exact if_neg hpresent
    refine ⟨false, ⟨hstart.trans habsent, h, Frame.refl v⟩, ?_⟩
    apply iff_of_false Bool.false_ne_true
    rintro ⟨a, ha, htail, hvalue⟩
    obtain rfl := stopped ha
    apply hpresent
    refine ⟨?_, ?_, hvalue⟩
    · rintro rfl
      apply h.shape.linked.ne_null _ (List.mem_of_find?_eq_some ha) rfl
    · rintro rfl
      apply htail rfl

/-- Every call comes to an end. -/
theorem call_ends (h : Calm m xs none) (todo : List (Call T)) (c : Call T) :
  ∃ m' xs' b, Ends m xs c todo b m' xs'
  := by
  cases c with
  | add v =>
      obtain ⟨m', xs', b, hends, -⟩ := add_goes h todo v
      exact ⟨m', xs', b, hends⟩
  | remove v =>
      obtain ⟨m', xs', b, hends, -⟩ := remove_goes h todo v
      exact ⟨m', xs', b, hends⟩
  | contains v =>
      obtain ⟨b, hends, -⟩ := contains_goes h todo v
      exact ⟨m, xs, b, hends⟩

/-- Any number of calls, one after another, come to an end. -/
theorem calls_end (calls : List (Call T)) :
  ∀ {m : Mem T} {xs : List ℕ}, Calm m xs none →
    ∃ h m' xs', GoesLive m ⟨calls, .idle⟩ h m' ⟨[], .idle⟩ ∧ Calm m' xs' none
  := by
  induction calls with
  | nil =>
      intro m xs h
      exact ⟨[], m, xs, .nil, h⟩
  | cons c calls ih =>
      intro m xs h
      obtain ⟨m₁, xs₁, b, hends⟩ := call_ends h calls c
      obtain ⟨h₁, m', xs', hrest, hcalm⟩ := ih hends.calm
      exact ⟨_, m', xs', hends.goes.trans hrest, hcalm⟩

/-- A thread that has made all its calls takes no step. -/
theorem final (m : Mem T) (a : Unit × Unit) :
  (list Unit T).next ⟨m, fun _ => ⟨[], .idle⟩⟩ a = none
  := by
  simp [list, threads, step, act, Pc.access]

/-! ### A fresh list -/

omit [LinearOrder T] in
theorem Balanced.new :
  Balanced (Mem.new : Mem T) [2] none
  := by
  intro a
  symm
  apply if_neg
  rintro ⟨hpos, hlt, hout⟩
  apply hout
  have hlt : a < 3 := hlt
  have ha : a = 1 ∨ a = 2 := by
    omega
  left
  simpa [Mem.new] using ha

theorem Calm.new :
  Calm (Mem.new : Mem T) [2] none
  := ⟨.new, fun a _ => Mem.not_marked_new a, rfl, rfl, .new⟩

end LockFreeList

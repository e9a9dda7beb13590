import ParallelArch.LinkedList.Shape

/-!
# The list as a set

Each thread knows where its pointers are: `pre` is `head` or was in the chain below the
value sought, `cur` is null or was in the chain, the new node of `add` is its own
(`Pc.Ok`).  What one thread knows survives the steps of the others (`Later`).

Unless `find` cuts a node out or `remove` marks a marked node, every step keeps the shape
of the chain, and on the set of values of its unmarked nodes it acts as `Pc.effect` says: a
successful link inserts an absent value, a successful mark erases a present one, and no
other step changes the set.
-/

namespace LockFreeList

variable {T : Type*} [LinearOrder T] {m m' : Mem T} {xs xs' : List ℕ} {own : Option ℕ}

/-! ### What a thread knows -/

/-- The node is `head` or was in the chain below `v`. -/
def Before (m : Mem T) (xs : List ℕ) (v : T) (p : Ptr) : Prop :=
  p.addr = m.head.addr ∨ Seen m xs p.addr ∧ m.value p.addr < v

/-- The pointer is null or its node was in the chain. -/
def At (m : Mem T) (xs : List ℕ) (p : Ptr) : Prop :=
  p.addr = 0 ∨ Seen m xs p.addr

/-- The pointer is null or its node was in the chain with a value in `s`. -/
def After (m : Mem T) (xs : List ℕ) (s : Set T) (p : Ptr) : Prop :=
  p.addr = 0 ∨ Seen m xs p.addr ∧ m.value p.addr ∈ s

/-- The thread's own new node with the value `v`. -/
structure Mine (m : Mem T) (xs : List ℕ) (v : T) (p : Ptr) : Prop where
  isPrivate : Private m xs p.addr
  unmarked : p.mark = false
  value : m.value p.addr = v

/-- The new node of an `add` is its own still. -/
def Caller.Ok (m : Mem T) (xs : List ℕ) (v : T) : Caller → Prop
  | .add newNode => Mine m xs v newNode
  | .remove => True

/-- What a thread knows of its pointers. -/
def Pc.Ok (m : Mem T) (xs : List ℕ) : Pc T → Prop
  | .findHead k v => k.Ok m xs v
  | .findFirst k v pre => k.Ok m xs v ∧ pre = m.head
  | .findTest k v pre cur => k.Ok m xs v ∧ Before m xs v pre ∧ At m xs cur
  | .findNext k v _ cur => k.Ok m xs v ∧ Seen m xs cur.addr ∧ m.value cur.addr < v
  | .cleanLoad k v pre cur | .cleanCas k v pre cur _ =>
      k.Ok m xs v ∧ Before m xs v pre ∧ After m xs (Set.Ici v) cur
  | .addTest v newNode pre cur =>
      Mine m xs v newNode ∧ Before m xs v pre ∧ After m xs (Set.Ici v) cur ∧ cur.mark = false
  | .addDelete v newNode => Mine m xs v newNode
  | .addStore v newNode pre cur =>
      Mine m xs v newNode ∧ Before m xs v pre ∧ After m xs (Set.Ioi v) cur ∧ cur.mark = false
  | .addCas v newNode pre cur =>
      Mine m xs v newNode ∧ Before m xs v pre ∧ After m xs (Set.Ioi v) cur ∧ cur.mark = false ∧
        m.next newNode.addr = cur
  | .removeTest v pre cur =>
      Before m xs v pre ∧ After m xs (Set.Ici v) cur ∧ cur.mark = false
  | .removeLoad v pre cur | .removeMark v pre cur _ =>
      Before m xs v pre ∧ Seen m xs cur.addr ∧ m.value cur.addr = v ∧ cur.mark = false
  | .removeSwing v pre cur nextCur =>
      Before m xs v pre ∧ m.next cur.addr = nextCur.getMarked ∧ nextCur.mark = false ∧
        cur.mark = false
  | .removeDelete _ cur => m.Marked cur.addr ∧ cur.addr ∉ xs
  | .containsTest _ cur => cur.addr = m.head.addr ∨ At m xs cur
  | .containsNext _ cur => cur.addr = m.head.addr ∨ Seen m xs cur.addr
  | .containsTail _ pCur => pCur.addr = m.head.addr ∨ At m xs pCur
  | .containsMark _ pCur => pCur.addr = m.head.addr ∨ Seen m xs pCur.addr
  | _ => True

/-- The address of the thread's own new node. -/
def Caller.owns : Caller → Option ℕ
  | .add newNode => some newNode.addr
  | .remove => none

/-- The new node of a thread, before it is in the list. -/
def Pc.owns : Pc T → Option ℕ
  | .findHead k _ | .findFirst k _ _ | .findTest k _ _ _ | .findNext k _ _ _ => k.owns
  | .cleanLoad k _ _ _ | .cleanCas k _ _ _ _ => k.owns
  | .addTest _ newNode _ _ | .addDelete _ newNode | .addStore _ newNode _ _ => some newNode.addr
  | .addCas _ newNode _ _ => some newNode.addr
  | _ => none

/-- The heap after a step of a thread that owns `own`, as far as the other threads are
concerned. -/
structure Later (own : Option ℕ) (m : Mem T) (xs : List ℕ) (m' : Mem T) (xs' : List ℕ) :
    Prop where
  head : m'.head = m.head
  size : m.size ≤ m'.size
  value : ∀ a < m.size, m'.value a = m.value a
  seen : ∀ a, Seen m xs a → Seen m' xs' a
  frozen : ∀ a, m.Marked a → m'.next a = m.next a
  other : ∀ a, Private m xs a → own ≠ some a → ¬ Seen m' xs' a ∧ m'.next a = m.next a
  gains : ∀ a ∈ xs', a ∈ xs ∨ own = some a ∧ ¬ m.Marked a ∧ m'.deleted a = m.deleted a

section Later

variable (hS : Shape m xs) (h : Later own m xs m' xs')
include hS h

omit [LinearOrder T] hS in
theorem Later.marked {a : ℕ} (ha : m.Marked a) :
  m'.Marked a
  := by
  rwa [Mem.Marked, h.frozen a ha]

omit [LinearOrder T] hS in
/-- A removed node does not come back. -/
theorem Later.gone {a : ℕ} (ha : m.Marked a) (hout : a ∉ xs) :
  a ∉ xs'
  := by
  intro hmem
  rcases h.gains a hmem with hmem | ⟨-, hunmarked, -⟩
  · apply hout hmem
  · apply hunmarked ha

theorem Later.seen_value {a : ℕ} (ha : Seen m xs a) :
  Seen m' xs' a ∧ m'.value a = m.value a
  := ⟨h.seen a ha, h.value a (hS.seen_inHeap ha)⟩

theorem Before.later {v : T} {p : Ptr} (hp : Before m xs v p) :
  Before m' xs' v p
  := by
  rcases hp with hp | ⟨hp, hv⟩
  · left
    rwa [h.head]
  · right
    obtain ⟨hseen, hvalue⟩ := h.seen_value hS hp
    rw [hvalue]
    exact ⟨hseen, hv⟩

omit [LinearOrder T] hS in
theorem At.later {p : Ptr} (hp : At m xs p) :
  At m' xs' p
  := hp.imp_right (h.seen _)

theorem After.later {s : Set T} {p : Ptr} (hp : After m xs s p) :
  After m' xs' s p
  := by
  apply hp.imp_right
  rintro ⟨hp, hv⟩
  obtain ⟨hseen, hvalue⟩ := h.seen_value hS hp
  rw [hvalue]
  exact ⟨hseen, hv⟩

omit [LinearOrder T] hS in
theorem Mine.later {v : T} {p : Ptr} (hp : Mine m xs v p) (hown : own ≠ some p.addr) :
  Mine m' xs' v p
  := by
  obtain ⟨⟨hpos, hsize, hhead, hunseen⟩, hmark, hvalue⟩ := hp
  refine ⟨⟨hpos, hsize.trans_le h.size, ?_, ?_⟩, hmark, ?_⟩
  · rwa [h.head]
  · exact (h.other _ ⟨hpos, hsize, hhead, hunseen⟩ hown).1
  · rw [h.value _ hsize, hvalue]

omit [LinearOrder T] hS in
theorem Caller.Ok.later {v : T} {k : Caller} (hk : k.Ok m xs v)
    (hown : ∀ a, own = some a → k.owns ≠ some a) :
  k.Ok m' xs' v
  := by
  cases k with
  | add newNode =>
      apply Mine.later h hk
      intro heq
      apply hown _ heq rfl
  | remove => trivial

/-- What a thread knows survives the steps of the others. -/
theorem Pc.Ok.later {pc : Pc T} (hpc : pc.Ok m xs)
    (hown : ∀ a, own = some a → pc.owns ≠ some a) :
  pc.Ok m' xs'
  := by
  have headOr : ∀ {p : Ptr} {P P' : Prop}, (P → P') → p.addr = m.head.addr ∨ P →
      p.addr = m'.head.addr ∨ P' := by
    intro p P P' hP hp
    rw [h.head]
    apply hp.imp_right hP
  cases pc with
  | findHead k v => exact Caller.Ok.later h hpc hown
  | findFirst k v pre => exact ⟨hpc.1.later h hown, hpc.2.trans h.head.symm⟩
  | findTest k v pre cur =>
      exact ⟨hpc.1.later h hown, hpc.2.1.later hS h, hpc.2.2.later h⟩
  | findNext k v pre cur =>
      obtain ⟨hk, hcur, hlt⟩ := hpc
      obtain ⟨hseen, hvalue⟩ := h.seen_value hS hcur
      use hk.later h hown, hseen
      rwa [hvalue]
  | cleanLoad k v pre cur | cleanCas k v pre cur =>
      exact ⟨hpc.1.later h hown, hpc.2.1.later hS h, hpc.2.2.later hS h⟩
  | addTest v newNode pre cur | addStore v newNode pre cur =>
      obtain ⟨hmine, hpre, hcur, hmark⟩ := hpc
      have hne : own ≠ some newNode.addr := fun heq => hown _ heq rfl
      exact ⟨hmine.later h hne, hpre.later hS h, hcur.later hS h, hmark⟩
  | addDelete v newNode =>
      have hne : own ≠ some newNode.addr := fun heq => hown _ heq rfl
      exact Mine.later h hpc hne
  | addCas v newNode pre cur =>
      obtain ⟨hmine, hpre, hcur, hmark, hnext⟩ := hpc
      have hne : own ≠ some newNode.addr := fun heq => hown _ heq rfl
      refine ⟨hmine.later h hne, hpre.later hS h, hcur.later hS h, hmark, ?_⟩
      rw [(h.other _ hmine.isPrivate hne).2, hnext]
  | removeTest v pre cur => exact ⟨hpc.1.later hS h, hpc.2.1.later hS h, hpc.2.2⟩
  | removeLoad v pre cur | removeMark v pre cur =>
      obtain ⟨hpre, hcur, hvalue, hmark⟩ := hpc
      obtain ⟨hseen, hvalue'⟩ := h.seen_value hS hcur
      exact ⟨hpre.later hS h, hseen, hvalue'.trans hvalue, hmark⟩
  | removeSwing v pre cur nextCur =>
      obtain ⟨hpre, hnext, hmark⟩ := hpc
      refine ⟨hpre.later hS h, ?_, hmark⟩
      rw [h.frozen _ (Mem.marked_of_getMarked hnext), hnext]
  | removeDelete v cur => exact ⟨h.marked hpc.1, h.gone hpc.1 hpc.2⟩
  | containsTest v cur => exact headOr (At.later h) hpc
  | containsTail v pCur => exact headOr (At.later h) hpc
  | containsNext v cur => exact headOr (h.seen _) hpc
  | containsMark v pCur => exact headOr (h.seen _) hpc
  | idle | addNew | containsHead => trivial

end Later

/-! ### Changes of the heap, seen by the other threads -/

omit [LinearOrder T] in
theorem Later.refl :
  Later own m xs m xs
  := by
  constructor
  · rfl
  · rfl
  · intro a _
    rfl
  · intro a
    apply id
  · intro a _
    rfl
  · intro a ha _
    exact ⟨ha.unseen, rfl⟩
  · intro a
    apply Or.inl

theorem Later.newNode (hS : Shape m xs) (v : T) :
  Later own m xs (m.newNode v) xs
  := by
  have next : ∀ a, a < m.size → (m.newNode v).next a = m.next a := by
    intro a ha
    apply Function.update_of_ne (Nat.ne_of_lt ha)
  have marked : ∀ a, a < m.size → ((m.newNode v).Marked a ↔ m.Marked a) := by
    intro a ha
    apply Mem.marked_newNode (Nat.ne_of_lt ha)
  constructor
  · rfl
  · apply Nat.le_succ
  · intro a ha
    apply Function.update_of_ne (Nat.ne_of_lt ha)
  · intro a ha
    rwa [Seen, marked a (hS.seen_inHeap ha)]
  · intro a ha
    apply next a (hS.marked a ha).2.1
  · intro a ha _
    refine ⟨?_, next a ha.inHeap⟩
    rw [Seen, marked a ha.inHeap]
    apply ha.unseen
  · intro a
    apply Or.inl

omit [LinearOrder T] in
/-- A store to an unmarked node that is the thread's own, `head` or in the chain. -/
theorem Later.store {a : ℕ} {p : Ptr} (hunmarked : ¬ m.Marked a)
    (ha : own = some a ∨ a = m.head.addr ∨ a ∈ xs)
    (hseen : ∀ b ∈ xs, b ∈ xs' ∨ m.Marked b)
    (hnew : ∀ b ∈ xs', b ∈ xs ∨ own = some b ∧ ¬ m.Marked b) :
  Later own m xs (m.storeNext a p) xs'
  := by
  have next : ∀ b, b ≠ a → (m.storeNext a p).next b = m.next b := by
    intro b hb
    apply Function.update_of_ne hb
  have frozen : ∀ b, m.Marked b → b ≠ a := by
    rintro b hb rfl
    apply hunmarked hb
  constructor
  · rfl
  · rfl
  · intro b _
    rfl
  · have kept : ∀ b, m.Marked b → (m.storeNext a p).Marked b := by
      intro b hb
      rwa [Mem.Marked, next b (frozen b hb)]
    rintro b (hb | hb)
    · apply (hseen b hb).imp_right (kept b)
    · right
      apply kept b hb
  · intro b hb
    apply next b (frozen b hb)
  · intro b hb hown
    have hne : b ≠ a := by
      rintro rfl
      rcases ha with ha | ha | ha
      · apply hown ha
      · apply hb.notHead ha
      · apply hb.unseen (.inl ha)
    refine ⟨?_, next b hne⟩
    rintro (hmem | hmarked)
    · rcases hnew b hmem with hmem | ⟨hmem, -⟩
      · apply hb.unseen (.inl hmem)
      · apply hown hmem
    · rw [Mem.marked_storeNext_of_ne hne] at hmarked
      apply hb.unseen (.inr hmarked)
  · intro b hb
    apply (hnew b hb).imp_right
    rintro ⟨hown, hmark⟩
    exact ⟨hown, hmark, rfl⟩

omit [LinearOrder T] in
theorem Later.delete {a : ℕ} :
  Later own m xs (m.delete a) xs
  := by
  constructor
  · rfl
  · rfl
  · intro b _
    rfl
  · intro b
    apply id
  · intro b _
    rfl
  · intro b hb _
    exact ⟨hb.unseen, rfl⟩
  · intro b
    apply Or.inl

/-! ### The set -/

/-- What a step does to the set of values. -/
inductive Effect (T : Type*) where
  | none
  | insert (v : T)
  | erase (v : T)

/-- The set after the step. -/
def Effect.apply : Effect T → Set T → Set T
  | .none, s => s
  | .insert v, s => Insert.insert v s
  | .erase v, s => s \ {v}

/-- Only an absent value is inserted and only a present one erased. -/
def Effect.Allowed : Effect T → Set T → Prop
  | .none, _ => True
  | .insert v, s => v ∉ s
  | .erase v, s => v ∈ s

/-- The link in `add` inserts and the mark in `remove` erases, when they succeed. -/
def Pc.effect (m : Mem T) : Pc T → Effect T
  | .addCas v _ pre cur => if m.next pre.addr = cur then .insert v else .none
  | .removeMark v _ cur nextCur => if m.next cur.addr = nextCur then .erase v else .none
  | _ => .none

/-- `find` does not cut out a node in this step, and `remove` does not mark a marked one. -/
def Careful (m : Mem T) : Pc T → Prop
  | .cleanCas _ _ pre cur _ => m.next pre.addr ≠ cur
  | .removeMark _ _ cur nextCur => m.next cur.addr = nextCur → nextCur.mark = false
  | _ => True

instance (m : Mem T) : (pc : Pc T) → Decidable (Careful m pc)
  | .cleanCas .. => inferInstanceAs (Decidable (_ ≠ _))
  | .removeMark .. => inferInstanceAs (Decidable (_ → _))
  | .idle | .addNew .. | .findHead .. | .findFirst .. | .findTest .. | .findNext ..
  | .cleanLoad .. | .addTest .. | .addDelete .. | .addStore .. | .addCas .. | .removeTest ..
  | .removeLoad .. | .removeSwing .. | .removeDelete .. | .containsHead .. | .containsTest ..
  | .containsNext .. | .containsTail .. | .containsMark .. => isTrue trivial

/-- The state after a step, with the chain `xs'`. -/
structure Kept (m : Mem T) (xs : List ℕ) (pc : Pc T) (m' : Mem T) (pc' : Pc T)
    (xs' : List ℕ) : Prop where
  shape : Shape m' xs'
  later : Later pc.owns m xs m' xs'
  ok : pc'.Ok m' xs'
  set : Alive m' xs' = (pc.effect m).apply (Alive m xs)
  allowed : (pc.effect m).Allowed (Alive m xs)

/-- A step that leaves the heap as it is. -/
theorem Kept.silent (hS : Shape m xs) {pc pc' : Pc T} (hok : pc'.Ok m xs)
    (heffect : pc.effect m = .none) :
  Kept m xs pc m pc' xs
  := by
  refine ⟨hS, .refl, hok, ?_, ?_⟩
  · rw [heffect]
    rfl
  · rw [heffect]
    trivial

/-- `find` ends with what its caller needs. -/
theorem Pc.found_ok {k : Caller} {v : T} {pre cur : Ptr} (hk : k.Ok m xs v)
    (hpre : Before m xs v pre) (hcur : After m xs (Set.Ici v) cur) :
  (Pc.found k v pre cur).Ok m xs
  := by
  unfold Pc.found
  split_ifs with hclean
  · exact ⟨hk, hpre, hcur⟩
  · have hmark : cur.mark = false := by
      by_contra hmark
      rw [Bool.not_eq_false] at hmark
      apply hclean
      refine ⟨?_, hmark⟩
      rintro rfl
      cases hmark
    cases k with
    | add newNode => exact ⟨hk, hpre, hcur, hmark⟩
    | remove => exact ⟨hpre, hcur, hmark⟩

/-! ### Steps that change the heap -/

omit [LinearOrder T] in
/-- The set is the same if the chain loses only marked nodes. -/
theorem alive_congr (hvalue : ∀ a ∈ xs', m'.value a = m.value a)
    (hmarked : ∀ a ∈ xs', m'.Marked a ↔ m.Marked a) (hsub : ∀ a ∈ xs', a ∈ xs)
    (hlost : ∀ a ∈ xs, a ∈ xs' ∨ m.Marked a) :
  Alive m' xs' = Alive m xs
  := by
  ext v
  constructor
  · rintro ⟨a, ha, hv, hm⟩
    rw [hmarked a ha] at hm
    rw [hvalue a ha] at hv
    exact ⟨a, hsub a ha, hv, hm⟩
  · rintro ⟨a, ha, hv, hm⟩
    have ha := (hlost a ha).resolve_right hm
    rw [← hmarked a ha] at hm
    rw [← hvalue a ha] at hv
    exact ⟨a, ha, hv, hm⟩

theorem Kept.newNode (hS : Shape m xs) {v : T} :
  Kept m xs (.addNew v) (m.newNode v) (.findHead (.add ⟨m.size, false⟩) v) xs
  := by
  have ne : ∀ a ∈ xs, a ≠ m.size := by
    intro a ha
    apply Nat.ne_of_lt (hS.inHeap a (List.mem_cons_of_mem _ ha))
  refine ⟨hS.newNode v, .newNode hS v, ?_, ?_, trivial⟩
  · refine ⟨⟨?_, Nat.lt_succ_self _, ?_, ?_⟩, rfl, Function.update_self ..⟩
    · apply Nat.zero_lt_of_lt (hS.inHeap _ List.mem_cons_self)
    · apply (Nat.ne_of_lt (hS.inHeap _ List.mem_cons_self)).symm
    · rintro (hmem | hmarked)
      · apply ne _ hmem rfl
      · apply Mem.not_marked_newNode hmarked
  · apply alive_congr
    · intro a ha
      apply Function.update_of_ne (ne a ha)
    · intro a ha
      apply Mem.marked_newNode (ne a ha)
    · intro a
      apply id
    · intro a
      apply Or.inl

theorem Kept.delete (hS : Shape m xs) {a : ℕ} {pc : Pc T} (heffect : pc.effect m = .none) :
  Kept m xs pc (m.delete a) .idle xs
  := by
  refine ⟨?_, .delete, trivial, ?_, ?_⟩
  · obtain ⟨hlinked, hsorted, hout, hhead, hheap, hmarked⟩ := hS
    exact ⟨hlinked, hsorted, hout, hhead, hheap, hmarked⟩
  · rw [heffect]
    rfl
  · rw [heffect]
    trivial

theorem Kept.prepare (hS : Shape m xs) {v : T} {newNode pre cur : Ptr}
    (hok : (Pc.addStore v newNode pre cur).Ok m xs) :
  Kept m xs (.addStore v newNode pre cur) (m.storeNext newNode.addr cur)
    (.addCas v newNode pre cur) xs
  := by
  obtain ⟨hmine, hpre, hcur, hmark⟩ := hok
  obtain ⟨hprivate, hbit, hvalue⟩ := hmine
  have hunmarked : ¬ m.Marked newNode.addr := fun hm => hprivate.unseen (.inr hm)
  have hlater : Later (some newNode.addr) m xs (m.storeNext newNode.addr cur) xs :=
    .store hunmarked (.inl rfl) (fun _ => .inl) (fun _ => .inl)
  have ne : ∀ a ∈ xs, a ≠ newNode.addr := by
    rintro a ha rfl
    apply hprivate.unseen (.inl ha)
  refine ⟨hS.prepare hprivate hmark, hlater, ?_, ?_, trivial⟩
  · refine ⟨⟨⟨hprivate.pos, hprivate.inHeap, hprivate.notHead, ?_⟩, hbit, hvalue⟩,
      hpre.later hS hlater, hcur.later hS hlater, hmark, Function.update_self ..⟩
    rintro (hmem | hm)
    · apply hprivate.unseen (.inl hmem)
    · rw [Mem.marked_storeNext, hmark] at hm
      cases hm
  · apply alive_congr
    · intro a _
      rfl
    · intro a ha
      apply Mem.marked_storeNext_of_ne (ne a ha)
    · intro a
      apply id
    · intro a
      apply Or.inl

/-- An unmarked predecessor is `head` or in the chain. -/
theorem Before.inChain {v : T} {p : Ptr} (h : Before m xs v p) (hunmarked : ¬ m.Marked p.addr) :
  p.addr = m.head.addr ∨ p.addr ∈ xs ∧ m.value p.addr < v
  := by
  apply h.imp_right
  rintro ⟨hseen, hlt⟩
  exact ⟨hseen.resolve_right hunmarked, hlt⟩

theorem Kept.link (hS : Shape m xs) {v : T} {newNode pre cur : Ptr}
    (hok : (Pc.addCas v newNode pre cur).Ok m xs) (hcas : m.next pre.addr = cur) :
  ∃ xs', Kept m xs (.addCas v newNode pre cur) (m.storeNext pre.addr newNode) .idle xs' ∧
    ∀ a, a ∈ xs' ↔ a = newNode.addr ∨ a ∈ xs
  := by
  obtain ⟨⟨hprivate, hbit, hvalue⟩, hpre, hcur, hmark, hnext⟩ := hok
  have hunmarked := Mem.not_marked hcas hmark
  have hchain := hpre.inChain hunmarked
  have hsucc : m.succ pre.addr = cur.addr := by
    rw [Mem.succ, hcas]
  obtain ⟨addr, bit⟩ := newNode
  obtain rfl : bit = false := hbit
  obtain ⟨xs', hshape, hmem⟩ : ∃ xs', Shape (m.storeNext pre.addr ⟨addr, false⟩) xs' ∧
      ∀ a, a ∈ xs' ↔ a = addr ∨ a ∈ xs := by
    apply hS.link _ hunmarked hprivate
    · rw [hsucc, Mem.succ, hnext]
    · rw [hsucc, hvalue]
      apply hcur.imp_right And.right
    · rwa [hvalue]
  have heffect : (Pc.addCas v ⟨addr, false⟩ pre cur).effect m = .insert v := if_pos hcas
  refine ⟨xs', ⟨hshape, ?_, trivial, ?_, ?_⟩, hmem⟩
  · apply Later.store hunmarked
    · right
      apply hchain.imp_right And.left
    · intro a ha
      left
      exact (hmem a).mpr (.inr ha)
    · intro a ha
      rcases (hmem a).mp ha with rfl | ha
      · right
        use rfl
        intro hm
        apply hprivate.unseen (.inr hm)
      · left
        apply ha
  · have marked : ∀ a, (m.storeNext pre.addr ⟨addr, false⟩).Marked a ↔ m.Marked a := by
      intro a
      rcases eq_or_ne a pre.addr with rfl | hne
      · rw [Mem.marked_storeNext]
        simpa using hunmarked
      · apply Mem.marked_storeNext_of_ne hne
    rw [heffect]
    ext w
    constructor
    · rintro ⟨a, ha, hw, hm⟩
      rw [marked] at hm
      rcases (hmem a).mp ha with rfl | ha
      · left
        exact hw.symm.trans hvalue
      · right
        exact ⟨a, ha, hw, hm⟩
    · rintro (rfl | ⟨a, ha, hw, hm⟩)
      · refine ⟨addr, (hmem addr).mpr (.inl rfl), hvalue, ?_⟩
        rw [marked]
        intro hm
        apply hprivate.unseen (.inr hm)
      · rw [← marked] at hm
        exact ⟨a, (hmem a).mpr (.inr ha), hw, hm⟩
  · rw [heffect]
    rintro ⟨a, ha, hw, -⟩
    apply hprivate.unseen
    left
    have heq : a = addr := by
      apply hshape.eq_of_value_eq ((hmem a).mpr (.inr ha)) ((hmem addr).mpr (.inl rfl))
      exact hw.trans hvalue.symm
    rwa [heq] at ha

theorem Kept.mark (hS : Shape m xs) {v : T} {pre cur nextCur : Ptr}
    (hok : (Pc.removeMark v pre cur nextCur).Ok m xs) (hcas : m.next cur.addr = nextCur)
    (hbit : nextCur.mark = false) :
  Kept m xs (.removeMark v pre cur nextCur) (m.storeNext cur.addr nextCur.getMarked)
    (.removeSwing v pre cur nextCur) xs
  := by
  obtain ⟨hpre, hseen, hvalue, hmark⟩ := hok
  have hunmarked := Mem.not_marked hcas hbit
  have hmem : cur.addr ∈ xs := hseen.resolve_right hunmarked
  have hlater : Later none m xs (m.storeNext cur.addr nextCur.getMarked) xs :=
    .store hunmarked (.inr (.inr hmem)) (fun _ => .inl) (fun _ => .inl)
  have heffect : (Pc.removeMark v pre cur nextCur).effect m = .erase v := if_pos hcas
  refine ⟨?_, hlater, ?_, ?_, ?_⟩
  · rw [← hcas]
    apply hS.mark hmem hunmarked
  · exact ⟨hpre.later hS hlater, Function.update_self .., hbit, hmark⟩
  · rw [heffect]
    ext w
    constructor
    · rintro ⟨a, ha, hw, hm⟩
      have hne : a ≠ cur.addr := by
        rintro rfl
        rw [Mem.marked_storeNext] at hm
        apply hm rfl
      rw [Mem.marked_storeNext_of_ne hne] at hm
      refine ⟨⟨a, ha, hw, hm⟩, ?_⟩
      rintro rfl
      apply hne
      apply hS.eq_of_value_eq ha hmem (hw.trans hvalue.symm)
    · rintro ⟨⟨a, ha, hw, hm⟩, hwv⟩
      refine ⟨a, ha, hw, ?_⟩
      rwa [Mem.marked_storeNext_of_ne]
      rintro rfl
      apply hwv
      exact hw.symm.trans hvalue
  · rw [heffect]
    exact ⟨cur.addr, hmem, hvalue, hunmarked⟩

theorem Kept.unlink (hS : Shape m xs) {v : T} {pre cur nextCur : Ptr}
    (hok : (Pc.removeSwing v pre cur nextCur).Ok m xs) (hcas : m.next pre.addr = cur) :
  ∃ xs', Kept m xs (.removeSwing v pre cur nextCur) (m.storeNext pre.addr nextCur)
    (.removeDelete v cur) xs' ∧ ∀ a, a ∈ xs' ↔ a ∈ xs ∧ a ≠ cur.addr
  := by
  obtain ⟨hpre, hnext, hbit, hmark⟩ := hok
  have hunmarked := Mem.not_marked hcas hmark
  have hcur := Mem.marked_of_getMarked hnext
  have hsucc : m.succ pre.addr = cur.addr := by
    rw [Mem.succ, hcas]
  have hchain := (hpre.inChain hunmarked).imp_right And.left
  obtain ⟨xs', hshape, hmem⟩ : ∃ xs', Shape (m.storeNext pre.addr nextCur) xs' ∧
      ∀ a, a ∈ xs' ↔ a ∈ xs ∧ a ≠ m.succ pre.addr := by
    apply hS.unlink hchain hunmarked _ _ hbit
    · rwa [hsucc]
    · rw [hsucc, Mem.succ, hnext]
      rfl
  rw [hsucc] at hmem
  have hlost : ∀ a ∈ xs, a ∈ xs' ∨ m.Marked a := by
    intro a ha
    rcases eq_or_ne a cur.addr with rfl | hne
    · right
      apply hcur
    · left
      exact (hmem a).mpr ⟨ha, hne⟩
  have hsub : ∀ a ∈ xs', a ∈ xs := fun a ha => ((hmem a).mp ha).1
  have hlater : Later none m xs (m.storeNext pre.addr nextCur) xs' :=
    .store hunmarked (.inr hchain) hlost (fun a ha => .inl (hsub a ha))
  have hout : cur.addr ∉ xs' := by
    rw [hmem]
    rintro ⟨-, hne⟩
    apply hne rfl
  refine ⟨xs', ⟨hshape, hlater, ⟨hlater.marked hcur, hout⟩, ?_, trivial⟩, hmem⟩
  apply alive_congr _ _ hsub hlost
  · intro a _
    rfl
  · intro a _
    rcases eq_or_ne a pre.addr with rfl | hne
    · rw [Mem.marked_storeNext, hbit]
      simpa using hunmarked
    · apply Mem.marked_storeNext_of_ne hne

/-! ### Every step -/

omit [LinearOrder T] in
/-- A pointer that is followed unless it is null is not null. -/
theorem addr_ne_zero {cur : Ptr}
    (h : ∀ p ∈ (if cur = .null then none else some cur.getPointer), m.Accessible p)
    (hcur : cur ≠ .null) :
  cur.addr ≠ 0
  := by
  rw [if_neg hcur] at h
  obtain ⟨-, hpos, -⟩ := h _ rfl
  exact hpos.ne'

/-- Every careful step keeps the shape of the chain and does to the set what `Pc.effect`
says. -/
theorem step_keeps {l : Thread T} {o : Outcome (Mem T) (Thread T) (Event T)} (hS : Shape m xs)
    (hok : l.pc.Ok m xs) (hG : Careful m l.pc) (h : step m l = some o) :
  ∃ xs', Kept m xs l.pc o.mem o.loc.pc xs'
  := by
  obtain ⟨haccess, hmoves⟩ := step_moves h
  generalize l.pc = pc at *
  cases hmoves with
  | beginAdd | beginRemove | beginContains => exact ⟨xs, Kept.silent hS trivial rfl⟩
  | addNew => exact ⟨xs, Kept.newNode hS⟩
  | findHead => exact ⟨xs, Kept.silent hS ⟨hok, rfl⟩ rfl⟩
  | findFirst =>
      obtain ⟨hk, rfl⟩ := hok
      refine ⟨xs, .silent hS ?_ rfl⟩
      exact ⟨hk, .inl rfl, hS.seen_succ (.inl rfl)⟩
  | findStop hstop =>
      obtain ⟨hk, hpre, hcur⟩ := hok
      refine ⟨xs, .silent hS ?_ rfl⟩
      apply Pc.found_ok hk hpre
      rcases hstop with rfl | hstop
      · left
        rfl
      · apply hcur.imp_right
        intro hseen
        exact ⟨hseen, hstop⟩
  | findOn hcur hlt =>
      obtain ⟨hk, -, hseen⟩ := hok
      refine ⟨xs, .silent hS ?_ rfl⟩
      exact ⟨hk, hseen.resolve_left (addr_ne_zero haccess hcur), hlt⟩
  | findNext =>
      obtain ⟨hk, hseen, hlt⟩ := hok
      refine ⟨xs, .silent hS ?_ rfl⟩
      exact ⟨hk, .inr ⟨hseen, hlt⟩, hS.seen_succ (.inr hseen)⟩
  | cleanLoad => exact ⟨xs, Kept.silent hS hok rfl⟩
  | cleaned hcas => cases hG hcas
  | cleanFails => exact ⟨xs, Kept.silent hS hok.1 rfl⟩
  | addPresent => exact ⟨xs, Kept.silent hS hok.1 rfl⟩
  | @addAbsent v newNode pre cur habsent =>
      obtain ⟨hmine, hpre, hcur, hmark⟩ := hok
      refine ⟨xs, .silent hS ?_ rfl⟩
      refine ⟨hmine, hpre, ?_, hmark⟩
      apply hcur.imp_right
      rintro ⟨hseen, hle⟩
      refine ⟨hseen, lt_of_le_of_ne hle ?_⟩
      intro hvalue
      have hne : cur ≠ .null := by
        rintro rfl
        apply hS.seen_pos hseen rfl
      rw [habsent hne hvalue.symm] at hmark
      cases hmark
  | addDelete => exact ⟨xs, Kept.delete hS rfl⟩
  | addStore => exact ⟨xs, Kept.prepare hS hok⟩
  | added hcas =>
      obtain ⟨xs', hkept, -⟩ := Kept.link hS hok hcas
      exact ⟨xs', hkept⟩
  | addFails hcas => exact ⟨xs, Kept.silent hS hok.1 (if_neg hcas)⟩
  | removeAbsent => exact ⟨xs, Kept.silent hS trivial rfl⟩
  | removePresent hcur hvalue =>
      obtain ⟨hpre, hafter, hmark⟩ := hok
      refine ⟨xs, .silent hS ?_ rfl⟩
      exact ⟨hpre, (hafter.resolve_left (addr_ne_zero haccess hcur)).1, hvalue, hmark⟩
  | removeLoad => exact ⟨xs, Kept.silent hS hok rfl⟩
  | marked hcas => exact ⟨xs, Kept.mark hS hok hcas (hG hcas)⟩
  | markFails hcas => exact ⟨xs, Kept.silent hS trivial (if_neg hcas)⟩
  | swung hcas =>
      obtain ⟨xs', hkept, -⟩ := Kept.unlink hS hok hcas
      exact ⟨xs', hkept⟩
  | swingFails => exact ⟨xs, Kept.silent hS trivial rfl⟩
  | removeDelete => exact ⟨xs, Kept.delete hS rfl⟩
  | containsHead => exact ⟨xs, Kept.silent hS (.inl rfl) rfl⟩
  | containsOn hcur htail hlt =>
      refine ⟨xs, .silent hS ?_ rfl⟩
      apply hok.imp_right
      intro hat
      apply hat.resolve_left
      have hpos := haccess _ (if_neg (not_or.mpr ⟨hcur, htail⟩))
      exact hpos.2.1.ne'
  | containsStop => exact ⟨xs, Kept.silent hS hok rfl⟩
  | containsNext => exact ⟨xs, Kept.silent hS (.inr (hS.seen_succ hok)) rfl⟩
  | containsPresent hcur htail hvalue =>
      refine ⟨xs, .silent hS ?_ rfl⟩
      apply hok.imp_right
      intro hat
      apply hat.resolve_left
      have hpos := haccess _ (if_neg (not_or.mpr ⟨hcur, htail⟩))
      exact hpos.2.1.ne'
  | containsAbsent => exact ⟨xs, Kept.silent hS trivial rfl⟩
  | containsMark => exact ⟨xs, Kept.silent hS trivial rfl⟩

end LockFreeList

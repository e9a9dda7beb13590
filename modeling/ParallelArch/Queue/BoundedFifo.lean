import ParallelArch.Concurrency.CallHistory
import ParallelArch.Concurrency.Lock
import ParallelArch.Queue.Blocking

/-!
# The blocking queue is a bounded FIFO

Let `A` be the items added so far, in the order of the increments of `size`, and `R` the
items removed so far, in the order of its decrements.  In every reachable state (`Inv`)
`size` is the difference of their lengths, the slot of every item added and not removed
holds it, each index is that of the next item unless the thread inside the mutex has
already moved it, and `R` is a prefix of `A`.  The events of a thread are those of its calls
(`follows`), so what a remove returns is what it removed.
-/

namespace BlockingQueue

variable {ι T : Type*}

/-! ### Histories -/

/-- The items added, in the order of the increments of `size`. -/
def added (h : List (ι × Event T)) : List T :=
  h.filterMap fun e => match e.2 with
    | .added item => some item
    | _ => none

/-- The items removed, in the order of the decrements of `size`. -/
def removed (h : List (ι × Event T)) : List T :=
  h.filterMap fun e => match e.2 with
    | .removed out => some out
    | _ => none

@[simp]
theorem added_append (h g : List (ι × Event T)) :
  added (h ++ g) = added h ++ added g
  := List.filterMap_append

@[simp]
theorem removed_append (h g : List (ι × Event T)) :
  removed (h ++ g) = removed h ++ removed g
  := List.filterMap_append

/-! ### The invariant -/

/-- The thread holds `tail_mutex`. -/
def Pc.insideAdd : Pc T → Prop
  | .addTest _ | .addWait _ | .addWrite _ | .addIndex _ | .addIncr _ => True
  | .addNotify | .addUnlock => True
  | _ => False

/-- The thread holds `head_mutex`. -/
def Pc.insideRemove : Pc T → Prop
  | .removeTest | .removeWait | .removeRead | .removeIndex _ | .removeDecr _ => True
  | .removeNotify _ | .removeUnlock _ => True
  | _ => False

/-- What a thread inside `tail_mutex` knows when `a` items have been added. -/
def Pc.AddOk (c : ℕ) (m : Mem ι T) (a : ℕ) : Pc T → Prop
  | .addTest _ | .addWait _ | .addNotify | .addUnlock => m.tail = a % c
  | .addWrite _ => m.tail = a % c ∧ m.size < c
  | .addIndex item => m.tail = a % c ∧ m.size < c ∧ m.buffer (a % c) = item
  | .addIncr item => m.tail = (a + 1) % c ∧ m.size < c ∧ m.buffer (a % c) = item
  | _ => True

/-- What a thread inside `head_mutex` knows when the items `A` have been added and `r` of
them removed. -/
def Pc.RemoveOk (c : ℕ) (m : Mem ι T) (A : List T) (r : ℕ) : Pc T → Prop
  | .removeTest | .removeWait | .removeNotify _ | .removeUnlock _ => m.head = r % c
  | .removeRead => m.head = r % c ∧ 0 < m.size
  | .removeIndex out => m.head = r % c ∧ 0 < m.size ∧ A[r]? = some out
  | .removeDecr out => m.head = (r + 1) % c ∧ 0 < m.size ∧ A[r]? = some out
  | _ => True

/-- The state of the queue when the items `A` have been added and the items `R`
removed. -/
structure Inv (c : ℕ) (m : Mem ι T) (l : ι → Thread T) (A R : List T) : Prop where
  addLock : Guards m.tailMutex (fun t => t.pc.insideAdd) l
  removeLock : Guards m.headMutex (fun t => t.pc.insideRemove) l
  size : m.size + R.length = A.length
  bound : m.size ≤ c
  fifo : R <+: A
  tail : m.tailMutex = none → m.tail = A.length % c
  head : m.headMutex = none → m.head = R.length % c
  buffer : ∀ k, R.length ≤ k → k < A.length → A[k]? = some (m.buffer (k % c))
  add : ∀ i, (l i).pc.AddOk c m A.length
  remove : ∀ i, (l i).pc.RemoveOk c m A R.length

section Keep

variable {c : ℕ} {m m' : Mem ι T} {l : ι → Thread T} {A R : List T} {pc : Pc T}

theorem Pc.AddOk.of_outside {a : ℕ} (h : ¬ pc.insideAdd) :
  pc.AddOk c m a
  := by
  cases pc with
  | addTest | addWait | addWrite | addIndex | addIncr | addNotify | addUnlock =>
      exact absurd trivial h
  | _ => trivial

theorem Pc.RemoveOk.of_outside {r : ℕ} (h : ¬ pc.insideRemove) :
  pc.RemoveOk c m A r
  := by
  cases pc with
  | removeTest | removeWait | removeRead | removeIndex | removeDecr | removeNotify
  | removeUnlock => exact absurd trivial h
  | _ => trivial

/-- What an add knows survives a change elsewhere: room in the queue is not taken away. -/
theorem Pc.AddOk.congr {a : ℕ} (h : pc.AddOk c m a) (htail : m'.tail = m.tail)
    (hsize : m.size < c → m'.size < c) (hbuffer : m'.buffer = m.buffer) :
  pc.AddOk c m' a
  := by
  cases pc with
  | addTest | addWait | addNotify | addUnlock => exact htail.trans h
  | addWrite item => exact ⟨htail.trans h.1, hsize h.2⟩
  | addIndex item | addIncr item =>
      refine ⟨htail.trans h.1, hsize h.2.1, ?_⟩
      rw [hbuffer]
      apply h.2.2
  | _ => trivial

/-- What a remove knows survives a change elsewhere: an item in the queue is not taken
away, and more items may follow. -/
theorem Pc.RemoveOk.congr {r : ℕ} (h : pc.RemoveOk c m A r) (hhead : m'.head = m.head)
    (hsize : 0 < m.size → 0 < m'.size) (B : List T) :
  pc.RemoveOk c m' (A ++ B) r
  := by
  have item : ∀ {out}, A[r]? = some out → (A ++ B)[r]? = some out := by
    intro out hout
    obtain ⟨hr, -⟩ := List.getElem?_eq_some_iff.mp hout
    rw [List.getElem?_append_left hr]
    apply hout
  cases pc with
  | removeTest | removeWait | removeNotify | removeUnlock => exact hhead.trans h
  | removeRead => exact ⟨hhead.trans h.1, hsize h.2⟩
  | removeIndex out | removeDecr out => exact ⟨hhead.trans h.1, hsize h.2.1, item h.2.2⟩
  | _ => trivial

theorem Pc.RemoveOk.congr_mem {r : ℕ} (h : pc.RemoveOk c m A r) (hhead : m'.head = m.head)
    (hsize : 0 < m.size → 0 < m'.size) :
  pc.RemoveOk c m' A r
  := by
  have hnil := h.congr hhead hsize []
  rwa [List.append_nil] at hnil

variable [DecidableEq ι] {i : ι} {v : Thread T}

/-- A step of the thread inside `tail_mutex` changes what adds know for this thread
only. -/
theorem Inv.add_update (h : Inv c m l A R) {a : ℕ} (hi : (l i).pc.insideAdd)
    (hv : v.pc.AddOk c m' a) :
  ∀ j, (Function.update l i v j).pc.AddOk c m' a
  := by
  apply (Function.forall_update_iff l (fun _ t => t.pc.AddOk c m' a)).mpr
  use hv
  intro j hj
  apply Pc.AddOk.of_outside
  intro hin
  apply hj (h.addLock.exclusive hin hi)

/-- A step of the thread inside `head_mutex` changes what removes know for this thread
only. -/
theorem Inv.remove_update (h : Inv c m l A R) {r : ℕ} (hi : (l i).pc.insideRemove)
    (hv : v.pc.RemoveOk c m' A r) :
  ∀ j, (Function.update l i v j).pc.RemoveOk c m' A r
  := by
  apply (Function.forall_update_iff l (fun _ t => t.pc.RemoveOk c m' A r)).mpr
  use hv
  intro j hj
  apply Pc.RemoveOk.of_outside
  intro hin
  apply hj (h.removeLock.exclusive hin hi)

/-- A thread moves, or changes the waiting sets, without touching the ring or a mutex. -/
theorem Inv.quiet (h : Inv c m l A R) {E F : Finset ι}
    (ha : v.pc.insideAdd ↔ (l i).pc.insideAdd)
    (hr : v.pc.insideRemove ↔ (l i).pc.insideRemove) (hadd : v.pc.AddOk c m A.length)
    (hremove : v.pc.RemoveOk c m A R.length) :
  Inv c { m with notEmpty := E, notFull := F } (Function.update l i v) A R
  := by
  refine { h with addLock := h.addLock.keep ha, removeLock := h.removeLock.keep hr,
                  add := ?_, remove := ?_ }
  · apply (Function.forall_update_iff l (fun _ t => t.pc.AddOk c _ A.length)).mpr
    exact ⟨hadd.congr rfl id rfl, fun j _ => (h.add j).congr rfl id rfl⟩
  · apply (Function.forall_update_iff l (fun _ t => t.pc.RemoveOk c _ A R.length)).mpr
    exact ⟨hremove.congr_mem rfl id, fun j _ => (h.remove j).congr_mem rfl id⟩

theorem Inv.lockTail (h : Inv c m l A R) (hfree : m.tailMutex = none)
    (hi : ¬ (l i).pc.insideRemove) {item : T} (hv : v.pc = .addTest item) :
  Inv c { m with tailMutex := some i } (Function.update l i v) A R
  := by
  have htail := h.tail hfree
  refine { h with addLock := ?_, removeLock := h.removeLock.keep ?_, tail := ?_,
                  add := ?_, remove := ?_ }
  · apply Guards.acquire
    · rw [← hfree]
      apply h.addLock
    · rw [hv]
      trivial
  · rw [hv]
    exact ⟨False.elim, hi⟩
  · intro hnone
    cases hnone
  · apply (Function.forall_update_iff l (fun _ t => t.pc.AddOk c _ A.length)).mpr
    constructor
    · rw [hv]
      apply htail
    · intro j _
      apply (h.add j).congr rfl id rfl
  · apply (Function.forall_update_iff l (fun _ t => t.pc.RemoveOk c _ A R.length)).mpr
    constructor
    · rw [hv]
      trivial
    · intro j _
      apply (h.remove j).congr_mem rfl id

theorem Inv.unlockTail (h : Inv c m l A R) {F : Finset ι} (hi : (l i).pc.insideAdd)
    (hi' : ¬ (l i).pc.insideRemove) (htail : m.tail = A.length % c) (hv : ¬ v.pc.insideAdd)
    (hv' : ¬ v.pc.insideRemove) :
  Inv c { m with tailMutex := none, notFull := F } (Function.update l i v) A R
  := by
  refine { h with addLock := h.addLock.release hi hv, removeLock := h.removeLock.keep ?_,
                  tail := fun _ => htail, add := ?_, remove := ?_ }
  · exact iff_of_false hv' hi'
  · apply h.add_update hi
    apply Pc.AddOk.of_outside hv
  · apply (Function.forall_update_iff l (fun _ t => t.pc.RemoveOk c _ A R.length)).mpr
    constructor
    · apply Pc.RemoveOk.of_outside hv'
    · intro j _
      apply (h.remove j).congr_mem rfl id

theorem Inv.lockHead (h : Inv c m l A R) (hfree : m.headMutex = none)
    (hi : ¬ (l i).pc.insideAdd) (hv : v.pc = .removeTest) :
  Inv c { m with headMutex := some i } (Function.update l i v) A R
  := by
  have hhead := h.head hfree
  refine { h with addLock := h.addLock.keep ?_, removeLock := ?_, head := ?_,
                  add := ?_, remove := ?_ }
  · rw [hv]
    exact ⟨False.elim, hi⟩
  · apply Guards.acquire
    · rw [← hfree]
      apply h.removeLock
    · rw [hv]
      trivial
  · intro hnone
    cases hnone
  · apply (Function.forall_update_iff l (fun _ t => t.pc.AddOk c _ A.length)).mpr
    constructor
    · rw [hv]
      trivial
    · intro j _
      apply (h.add j).congr rfl id rfl
  · apply (Function.forall_update_iff l (fun _ t => t.pc.RemoveOk c _ A R.length)).mpr
    constructor
    · rw [hv]
      apply hhead
    · intro j _
      apply (h.remove j).congr_mem rfl id

theorem Inv.unlockHead (h : Inv c m l A R) {E : Finset ι} (hi : (l i).pc.insideRemove)
    (hi' : ¬ (l i).pc.insideAdd) (hhead : m.head = R.length % c)
    (hv : ¬ v.pc.insideRemove) (hv' : ¬ v.pc.insideAdd) :
  Inv c { m with headMutex := none, notEmpty := E } (Function.update l i v) A R
  := by
  refine { h with addLock := h.addLock.keep ?_, removeLock := h.removeLock.release hi hv,
                  head := fun _ => hhead, add := ?_, remove := ?_ }
  · exact iff_of_false hv' hi'
  · apply (Function.forall_update_iff l (fun _ t => t.pc.AddOk c _ A.length)).mpr
    constructor
    · apply Pc.AddOk.of_outside hv'
    · intro j _
      apply (h.add j).congr rfl id rfl
  · apply h.remove_update hi
    apply Pc.RemoveOk.of_outside hv

/-- `buffer[tail] = item`: the slot of the next item belongs to no item in the queue. -/
theorem Inv.addWrite (h : Inv c m l A R) {item : T} (hpc : (l i).pc = .addWrite item)
    (hv : v.pc = .addIndex item) :
  Inv c { m with buffer := Function.update m.buffer m.tail item } (Function.update l i v) A R
  := by
  have hi := h.add i
  rw [hpc] at hi
  obtain ⟨htail, hroom⟩ := hi
  have hsize := h.size
  have hin : (l i).pc.insideAdd := by
    rw [hpc]
    trivial
  refine { h with addLock := h.addLock.keep ?_, removeLock := h.removeLock.keep ?_,
                  buffer := ?_, add := h.add_update hin ?_, remove := ?_ }
  · rw [hv, hpc]
    rfl
  · rw [hv, hpc]
    rfl
  · intro k hk hk'
    show A[k]? = some (Function.update m.buffer m.tail item (k % c))
    rw [Function.update_of_ne]
    · apply h.buffer k hk hk'
    · rw [htail]
      apply (slot_ne hk' (by omega)).symm
  · rw [hv]
    refine ⟨htail, hroom, ?_⟩
    rw [← htail]
    apply Function.update_self
  · apply (Function.forall_update_iff l (fun _ t => t.pc.RemoveOk c _ A R.length)).mpr
    constructor
    · rw [hv]
      trivial
    · intro j _
      apply (h.remove j).congr_mem rfl id

theorem wrap_succ_mod {c n : ℕ} (hc : 0 < c) (hc' : c < 2 ^ 64) :
  SizeT.bits64.wrap (n % c + 1) % c = (n + 1) % c
  := by
  have := Nat.mod_lt n hc
  rw [SizeT.bits64_wrap (by omega), Nat.mod_add_mod]

/-- `tail = (tail + 1) % capacity`. -/
theorem Inv.addIndex (hc : 0 < c) (hc' : c < 2 ^ 64) (h : Inv c m l A R) {item : T}
    (hpc : (l i).pc = .addIndex item) (hv : v.pc = .addIncr item) :
  Inv c { m with tail := SizeT.bits64.wrap (m.tail + 1) % c } (Function.update l i v) A R
  := by
  have hi := h.add i
  rw [hpc] at hi
  obtain ⟨htail, hroom, hitem⟩ := hi
  have hin : (l i).pc.insideAdd := by
    rw [hpc]
    trivial
  refine { h with addLock := h.addLock.keep ?_, removeLock := h.removeLock.keep ?_,
                  tail := ?_, add := h.add_update hin ?_, remove := ?_ }
  · rw [hv, hpc]
    rfl
  · rw [hv, hpc]
    rfl
  · intro hfree
    rw [h.addLock.holds hin] at hfree
    cases hfree
  · rw [hv]
    refine ⟨?_, hroom, hitem⟩
    show SizeT.bits64.wrap (m.tail + 1) % c = (A.length + 1) % c
    rw [htail, wrap_succ_mod hc hc']
  · apply (Function.forall_update_iff l (fun _ t => t.pc.RemoveOk c _ A R.length)).mpr
    constructor
    · rw [hv]
      trivial
    · intro j _
      apply (h.remove j).congr_mem rfl id

/-- `size.fetch_add(1)`: the item is in the queue. -/
theorem Inv.addIncr (hc' : c < 2 ^ 64) (h : Inv c m l A R) {item : T}
    (hpc : (l i).pc = .addIncr item) (hv : v.pc = .addNotify) :
  Inv c { m with size := SizeT.bits64.wrap (m.size + 1) } (Function.update l i v)
    (A ++ [item]) R
  := by
  have hi := h.add i
  rw [hpc] at hi
  obtain ⟨htail, hroom, hitem⟩ := hi
  have hsize := h.size
  have hwrap : SizeT.bits64.wrap (m.size + 1) = m.size + 1 :=
    SizeT.bits64_wrap (by omega)
  have hlen : (A ++ [item]).length = A.length + 1 := List.length_append
  have hin : (l i).pc.insideAdd := by
    rw [hpc]
    trivial
  rw [hwrap]
  constructor
  · apply h.addLock.keep
    rw [hv, hpc]
    rfl
  · apply h.removeLock.keep
    rw [hv, hpc]
    rfl
  · rw [hlen]
    show m.size + 1 + R.length = A.length + 1
    omega
  · exact hroom
  · apply h.fifo.trans (List.prefix_append A [item])
  · intro hfree
    rw [h.addLock.holds hin] at hfree
    cases hfree
  · apply h.head
  · intro k hk hk'
    rw [hlen] at hk'
    rcases Nat.lt_succ_iff_lt_or_eq.mp hk' with hlt | rfl
    · rw [List.getElem?_append_left hlt]
      apply h.buffer k hk hlt
    · rw [List.getElem?_concat_length]
      congr 1
      symm
      apply hitem
  · apply h.add_update hin
    rw [hv, hlen]
    apply htail
  · apply (Function.forall_update_iff l
      (fun _ t => t.pc.RemoveOk c _ (A ++ [item]) R.length)).mpr
    constructor
    · rw [hv]
      trivial
    · intro j _
      refine (h.remove j).congr ?_ ?_ _
      · rfl
      · intro _
        apply Nat.succ_pos

/-- `head = (head + 1) % capacity`. -/
theorem Inv.removeIndex (hc : 0 < c) (hc' : c < 2 ^ 64) (h : Inv c m l A R) {out : T}
    (hpc : (l i).pc = .removeIndex out) (hv : v.pc = .removeDecr out) :
  Inv c { m with head := SizeT.bits64.wrap (m.head + 1) % c } (Function.update l i v) A R
  := by
  have hi := h.remove i
  rw [hpc] at hi
  obtain ⟨hhead, hitem, hout⟩ := hi
  have hin : (l i).pc.insideRemove := by
    rw [hpc]
    trivial
  refine { h with addLock := h.addLock.keep ?_, removeLock := h.removeLock.keep ?_,
                  head := ?_, add := ?_, remove := h.remove_update hin ?_ }
  · rw [hv, hpc]
    rfl
  · rw [hv, hpc]
    rfl
  · intro hfree
    rw [h.removeLock.holds hin] at hfree
    cases hfree
  · apply (Function.forall_update_iff l (fun _ t => t.pc.AddOk c _ A.length)).mpr
    constructor
    · rw [hv]
      trivial
    · intro j _
      apply (h.add j).congr rfl id rfl
  · rw [hv]
    refine ⟨?_, hitem, hout⟩
    show SizeT.bits64.wrap (m.head + 1) % c = (R.length + 1) % c
    rw [hhead, wrap_succ_mod hc hc']

/-- `size.fetch_sub(1)`: the item has left the queue. -/
theorem Inv.removeDecr (hc' : c < 2 ^ 64) (h : Inv c m l A R) {out : T}
    (hpc : (l i).pc = .removeDecr out) (hv : v.pc = .removeNotify out) :
  Inv c { m with size := SizeT.bits64.wrap (m.size + (2 ^ 64 - 1)) } (Function.update l i v)
    A (R ++ [out])
  := by
  have hi := h.remove i
  rw [hpc] at hi
  obtain ⟨hhead, hitem, hout⟩ := hi
  have hsize := h.size
  have hbound := h.bound
  have hwrap : SizeT.bits64.wrap (m.size + (2 ^ 64 - 1)) = m.size - 1 :=
    SizeT.bits64_wrap_pred hitem (by omega)
  have hlen : (R ++ [out]).length = R.length + 1 := List.length_append
  have hin : (l i).pc.insideRemove := by
    rw [hpc]
    trivial
  rw [hwrap]
  constructor
  · apply h.addLock.keep
    rw [hv, hpc]
    rfl
  · apply h.removeLock.keep
    rw [hv, hpc]
    rfl
  · rw [hlen]
    show m.size - 1 + (R.length + 1) = A.length
    omega
  · show m.size - 1 ≤ c
    omega
  · obtain ⟨B, rfl⟩ := h.fifo
    rw [List.getElem?_append_right le_rfl, Nat.sub_self] at hout
    cases B with
    | nil => cases hout
    | cons b B =>
        cases hout
        use B
        simp
  · apply h.tail
  · intro hfree
    rw [h.removeLock.holds hin] at hfree
    cases hfree
  · intro k hk hk'
    rw [hlen] at hk
    apply h.buffer k (by omega) hk'
  · apply (Function.forall_update_iff l (fun _ t => t.pc.AddOk c _ A.length)).mpr
    constructor
    · rw [hv]
      trivial
    · intro j _
      refine (h.add j).congr ?_ ?_ ?_
      · rfl
      · show m.size < c → m.size - 1 < c
        omega
      · rfl
  · apply h.remove_update hin
    rw [hv, hlen]
    apply hhead

end Keep

/-! ### Reachable states -/

variable [DecidableEq ι]

/-- Every step keeps the invariant. -/
theorem step_keeps {c : ℕ} (hc : 0 < c) (hc' : c < 2 ^ 64) {m : Mem ι T} {l : ι → Thread T}
    {A R : List T} {i : ι} {choice : Choice ι} {o : Outcome (Mem ι T) (Thread T) (Event T)}
    (hI : Inv c m l A R) (ho : step c i m (l i) choice = some o) :
  Inv c o.mem (Function.update l i o.loc) (A ++ added (o.events.map (Prod.mk i)))
    (R ++ removed (o.events.map (Prod.mk i)))
  := by
  have ha := hI.add i
  have hr := hI.remove i
  have silent : ∀ {m' : Mem ι T} {v : Thread T}, Inv c m' (Function.update l i v) A R →
      Inv c m' (Function.update l i v) (A ++ []) (R ++ []) := by
    intro m' v h
    simpa using h
  have quiet : ∀ {v : Thread T} {E F : Finset ι},
      (v.pc.insideAdd ↔ (l i).pc.insideAdd) → (v.pc.insideRemove ↔ (l i).pc.insideRemove) →
      v.pc.AddOk c m A.length → v.pc.RemoveOk c m A R.length →
      Inv c { m with notEmpty := E, notFull := F } (Function.update l i v) (A ++ []) (R ++ []) := by
    intro v E F h₁ h₂ h₃ h₄
    apply silent
    apply hI.quiet h₁ h₂ h₃ h₄
  cases step_moves ho with
  | beginAdd hpc => exact quiet (by rw [hpc]; rfl) (by rw [hpc]; rfl) trivial trivial
  | beginRemove hpc => exact quiet (by rw [hpc]; rfl) (by rw [hpc]; rfl) trivial trivial
  | addLock hpc hfree =>
      apply silent
      apply hI.lockTail hfree _ rfl
      simp [hpc, Pc.insideRemove]
  | addWake hpc _ hfree =>
      apply silent
      apply hI.lockTail hfree _ rfl
      simp [hpc, Pc.insideRemove]
  | addRoom hpc hroom =>
      rw [hpc] at ha
      exact quiet (by rw [hpc]; rfl) (by rw [hpc]; rfl) ⟨ha, hroom⟩ trivial
  | addFull hpc =>
      rw [hpc] at ha
      exact quiet (by rw [hpc]; rfl) (by rw [hpc]; rfl) ha trivial
  | addWait hpc =>
      rw [hpc] at ha
      apply silent
      apply hI.unlockTail _ _ ha
      all_goals simp [hpc, Pc.insideAdd, Pc.insideRemove]
  | addSpurious hpc => exact quiet Iff.rfl Iff.rfl ha hr
  | addWrite hpc => exact silent (hI.addWrite hpc rfl)
  | addIndex hpc => exact silent (hI.addIndex hc hc' hpc rfl)
  | addIncr hpc =>
      rw [show removed _ = [] from rfl, List.append_nil]
      apply hI.addIncr hc' hpc rfl
  | addNotify hpc =>
      rw [hpc] at ha
      exact quiet (by rw [hpc]; rfl) (by rw [hpc]; rfl) ha trivial
  | addNotifyNone hpc =>
      rw [hpc] at ha
      exact quiet (by rw [hpc]; rfl) (by rw [hpc]; rfl) ha trivial
  | addUnlock hpc =>
      rw [hpc] at ha
      apply silent
      apply hI.unlockTail _ _ ha
      all_goals simp [hpc, Pc.insideAdd, Pc.insideRemove]
  | removeLock hpc hfree =>
      apply silent
      apply hI.lockHead hfree _ rfl
      simp [hpc, Pc.insideAdd]
  | removeWake hpc _ hfree =>
      apply silent
      apply hI.lockHead hfree _ rfl
      simp [hpc, Pc.insideAdd]
  | removeItem hpc hitem =>
      rw [hpc] at hr
      exact quiet (by rw [hpc]; rfl) (by rw [hpc]; rfl) trivial ⟨hr, hitem⟩
  | removeEmpty hpc =>
      rw [hpc] at hr
      exact quiet (by rw [hpc]; rfl) (by rw [hpc]; rfl) trivial hr
  | removeWait hpc =>
      rw [hpc] at hr
      apply silent
      apply hI.unlockHead _ _ hr
      all_goals simp [hpc, Pc.insideAdd, Pc.insideRemove]
  | removeSpurious hpc => exact quiet Iff.rfl Iff.rfl ha hr
  | removeRead hpc =>
      rw [hpc] at hr
      obtain ⟨hhead, hitem⟩ := hr
      have hsize := hI.size
      have hout : A[R.length]? = some (m.buffer m.head) := by
        rw [hhead]
        apply hI.buffer _ le_rfl (by omega)
      exact quiet (by rw [hpc]; rfl) (by rw [hpc]; rfl) trivial ⟨hhead, hitem, hout⟩
  | removeIndex hpc => exact silent (hI.removeIndex hc hc' hpc rfl)
  | removeDecr hpc =>
      rw [show added _ = [] from rfl, List.append_nil]
      apply hI.removeDecr hc' hpc rfl
  | removeNotify hpc =>
      rw [hpc] at hr
      exact quiet (by rw [hpc]; rfl) (by rw [hpc]; rfl) trivial hr
  | removeNotifyNone hpc =>
      rw [hpc] at hr
      exact quiet (by rw [hpc]; rfl) (by rw [hpc]; rfl) trivial hr
  | removeUnlock hpc =>
      rw [hpc] at hr
      apply silent
      apply hI.unlockHead _ _ hr
      all_goals simp [hpc, Pc.insideAdd, Pc.insideRemove]

variable [Inhabited T]

omit [DecidableEq ι] in
theorem Inv.new {c : ℕ} {l : ι → Thread T} (hl : ∀ i, (l i).pc = .idle) :
  Inv c Mem.new l [] []
  := by
  have outside : ∀ i, ¬ (l i).pc.insideAdd ∧ ¬ (l i).pc.insideRemove := by
    intro i
    simp [hl i, Pc.insideAdd, Pc.insideRemove]
  constructor
  · apply Guards.of_outside (fun i => (outside i).1)
  · apply Guards.of_outside (fun i => (outside i).2)
  · rfl
  · apply Nat.zero_le
  · apply List.prefix_rfl
  · intro _
    symm
    apply Nat.zero_mod
  · intro _
    symm
    apply Nat.zero_mod
  · intro k _ hk
    cases hk
  · intro i
    apply Pc.AddOk.of_outside (outside i).1
  · intro i
    apply Pc.RemoveOk.of_outside (outside i).2

theorem reachable_inv {c : ℕ} (hc : 0 < c) (hc' : c < 2 ^ 64)
    {G : Global ι (Mem ι T) (Thread T) → ι × Choice ι → Prop} {h : List (ι × Event T)}
    {s : Global ι (Mem ι T) (Thread T)} (hs : (queue ι c).Reachable G h s) :
  Inv c s.mem s.loc (added h) (removed h)
  := by
  apply threads_invariant (I := fun m l h => Inv c m l (added h) (removed h)) _ _ hs
  · rintro m l ⟨rfl, hl⟩
    apply Inv.new hl
  · intro m l h i choice o hI _ ho
    rw [added_append, removed_append]
    apply step_keeps hc hc' hI ho

/-! ### The calls of a thread -/

/-- What a call shows: an add puts its argument into the queue and returns, a remove returns the
item it took out. -/
inductive Serves : QueueCall T → List (Event T) → Prop where
  | add (item : T) : Serves (.add item) [.added item, .addReturned]
  | remove (out : T) : Serves .remove [.removed out, .removeReturned out]

/-- The call a thread is in, if any, and what it has shown of it. -/
def Pc.Now : Pc T → List (QueueCall T) → List (Event T) → Prop
  | .idle, call, e => call = [] ∧ e = []
  | .addLock item, call, e | .addTest item, call, e | .addWait item, call, e
  | .addAsleep item, call, e | .addWrite item, call, e | .addIndex item, call, e
  | .addIncr item, call, e => call = [.add item] ∧ e = []
  | .addNotify, call, e | .addUnlock, call, e => ∃ item, call = [.add item] ∧ e = [.added item]
  | .removeLock, call, e | .removeTest, call, e | .removeWait, call, e | .removeAsleep, call, e
  | .removeRead, call, e | .removeIndex _, call, e | .removeDecr _, call, e =>
      call = [.remove] ∧ e = []
  | .removeNotify out, call, e | .removeUnlock out, call, e =>
      call = [.remove] ∧ e = [.removed out]

omit [DecidableEq ι] in
/-- What a thread has shown of a call, the call can still complete. -/
theorem Pc.Now.cut {pc : Pc T} {call : List (QueueCall T)} {e : List (Event T)}
    (h : pc.Now call e) :
  call = [] ∧ e = [] ∨ ∃ c e', call = [c] ∧ Serves c (e ++ e')
  := by
  cases pc with
  | idle =>
      left
      apply h
  | addLock item | addTest item | addWait item | addAsleep item | addWrite item | addIndex item
  | addIncr item =>
      right
      obtain ⟨rfl, rfl⟩ := h
      exact ⟨_, _, rfl, .add item⟩
  | addNotify | addUnlock =>
      right
      obtain ⟨item, rfl, rfl⟩ := h
      exact ⟨_, _, rfl, .add item⟩
  | removeNotify out | removeUnlock out =>
      right
      obtain ⟨rfl, rfl⟩ := h
      exact ⟨_, _, rfl, .remove out⟩
  | _ =>
      right
      obtain ⟨rfl, rfl⟩ := h
      exact ⟨_, _, rfl, .remove default⟩

omit [Inhabited T] in
/-- Every step of a thread goes on with its call, begins one or ends one. -/
theorem step_follows {c : ℕ} {i : ι} {m : Mem ι T} {t : Thread T} {calls : List (QueueCall T)}
    {es : List (Event T)} {choice : Choice ι} {o : Outcome (Mem ι T) (Thread T) (Event T)}
    (hf : Follows Serves Thread.todo (fun t => t.pc.Now) calls es t)
    (ho : step c i m t choice = some o) :
  Follows Serves Thread.todo (fun t => t.pc.Now) calls (es ++ o.events) o.loc
  := by
  cases step_moves ho with
  | @beginAdd item todo hpc htodo =>
      apply hf.go
      intro call e hnow
      rw [hpc] at hnow
      obtain ⟨rfl, rfl⟩ := hnow
      exact ⟨[.add item], ⟨rfl, rfl⟩, htodo⟩
  | beginRemove hpc htodo =>
      apply hf.go
      intro call e hnow
      rw [hpc] at hnow
      obtain ⟨rfl, rfl⟩ := hnow
      exact ⟨[.remove], ⟨rfl, rfl⟩, htodo⟩
  | addUnlock hpc =>
      apply hf.done
      · intro call e hnow
        rw [hpc] at hnow
        obtain ⟨item, rfl, rfl⟩ := hnow
        exact ⟨.add item, rfl, .add item⟩
      · rfl
      · exact ⟨rfl, rfl⟩
  | @removeUnlock out hpc =>
      apply hf.done
      · intro call e hnow
        rw [hpc] at hnow
        obtain ⟨rfl, rfl⟩ := hnow
        exact ⟨.remove, rfl, .remove out⟩
      · rfl
      · exact ⟨rfl, rfl⟩
  | @addIncr item hpc =>
      apply hf.go
      intro call e hnow
      rw [hpc] at hnow
      obtain ⟨rfl, rfl⟩ := hnow
      exact ⟨[.add item], ⟨item, rfl, rfl⟩, rfl⟩
  | removeDecr hpc =>
      apply hf.go
      intro call e hnow
      rw [hpc] at hnow
      obtain ⟨rfl, rfl⟩ := hnow
      exact ⟨[.remove], ⟨rfl, rfl⟩, rfl⟩
  | addSpurious hpc | removeSpurious hpc =>
      apply hf.go
      intro call e hnow
      rw [List.append_nil]
      exact ⟨call, hnow, rfl⟩
  | addLock hpc | addRoom hpc | addFull hpc | addWait hpc | addWake hpc | addWrite hpc
  | addIndex hpc | addNotify hpc | addNotifyNone hpc | removeLock hpc | removeItem hpc
  | removeEmpty hpc | removeWait hpc | removeWake hpc | removeRead hpc | removeIndex hpc
  | removeNotify hpc | removeNotifyNone hpc =>
      apply hf.go
      intro call e hnow
      rw [hpc] at hnow
      rw [List.append_nil]
      exact ⟨call, hnow, rfl⟩

/-- In a run from the state `s₀` the events of a thread are those of the calls it has begun; when
it is outside a call, they are all there. -/
theorem run_showing {c : ℕ} {s₀ s : Global ι (Mem ι T) (Thread T)}
    {G : Global ι (Mem ι T) (Thread T) → ι × Choice ι → Prop} {h : List (ι × Event T)}
    (hinit : (queue ι c).Initial s₀) (hrun : (queue ι c).Run G s₀ h s) (i : ι) :
  ∃ calls, (s₀.loc i).todo = calls ++ (s.loc i).todo ∧ Showing Serves calls (ofThread i h) ∧
    ((s.loc i).pc = .idle → Shown Serves calls (ofThread i h))
  := by
  have hf : Follows Serves Thread.todo (fun t => t.pc.Now) (s₀.loc i).todo (ofThread i h)
      (s.loc i) := by
    apply run_own (I := fun i es t => Follows Serves Thread.todo (fun t => t.pc.Now)
      (s₀.loc i).todo es t) _ _ hrun
    · intro i
      refine ⟨[], [], [], [], .nil, ?_, rfl, rfl⟩
      show (s₀.loc i).pc.Now [] []
      rw [hinit.2 i]
      exact ⟨rfl, rfl⟩
    · intro i m t es choice o hf ho
      apply step_follows hf ho
  apply hf.showing
  · intro call e hidle hnow
    rw [hidle] at hnow
    apply hnow
  · intro call e hnow
    apply Pc.Now.cut hnow

/-! ### The claim of the queue -/

/-- The slot a remove reads or has read and not yet given back: the slot `head`, or the
slot before it once the index has moved on. -/
def Pc.slotInUse (c : ℕ) (m : Mem ι T) : Pc T → Option ℕ
  | .removeRead => some m.head
  | .removeIndex _ => some m.head
  | .removeDecr _ => some ((m.head + (c - 1)) % c)
  | _ => none

/-- In every state a run from `s₀` leads to, `size` is between `0` and the capacity and is not
`0` where it is decremented, no add writes the slot a remove has not given back, and the items
removed are a prefix of the items added.  An add adds its argument, and a remove returns the
item it removed: every thread shows the calls it has begun, and shows them whole when it is
outside a call. -/
theorem bounded_fifo {c : ℕ} (hc : 0 < c) (hc' : c < 2 ^ 64)
    {s₀ s : Global ι (Mem ι T) (Thread T)} {h : List (ι × Event T)}
    (hinit : (queue ι c).Initial s₀) (hrun : (queue ι c).Run Machine.Free s₀ h s) :
  s.mem.size ≤ c ∧
    (∀ i out, (s.loc i).pc = .removeDecr out → 0 < s.mem.size) ∧
    (∀ i j item k, (s.loc i).pc = .addWrite item → (s.loc j).pc.slotInUse c s.mem = some k →
      s.mem.tail ≠ k) ∧
    removed h <+: added h ∧
    ∀ i, ∃ calls, (s₀.loc i).todo = calls ++ (s.loc i).todo ∧
      Showing Serves calls (ofThread i h) ∧
      ((s.loc i).pc = .idle → Shown Serves calls (ofThread i h))
  := by
  have hI := reachable_inv hc hc' ⟨s₀, hinit, hrun⟩
  refine ⟨hI.bound, ?_, ?_, hI.fifo, run_showing hinit hrun⟩
  · intro i out hpc
    have hr := hI.remove i
    rw [hpc] at hr
    apply hr.2.1
  · intro i j item k hi hj
    have ha := hI.add i
    rw [hi] at ha
    obtain ⟨htail, hroom⟩ := ha
    have hsize := hI.size
    have hr := hI.remove j
    have hslot : 0 < s.mem.size ∧ k = (removed h).length % c := by
      cases hpc : (s.loc j).pc with
      | removeRead =>
          rw [hpc] at hr hj
          cases hj
          exact ⟨hr.2, hr.1⟩
      | removeIndex out =>
          rw [hpc] at hr hj
          cases hj
          exact ⟨hr.2.1, hr.1⟩
      | removeDecr out =>
          rw [hpc] at hr hj
          cases hj
          use hr.2.1
          rw [hr.1, Nat.mod_add_mod, show (removed h).length + 1 + (c - 1)
            = (removed h).length + c by omega, Nat.add_mod_right]
      | _ =>
          rw [hpc] at hj
          cases hj
    obtain ⟨hitem, rfl⟩ := hslot
    rw [htail]
    apply slot_ne
    · omega
    · omega

/-- With a single slot, `7` is added by thread `0` and removed by thread `1`, which had to
wait for it. -/
theorem bounded_fifo_seven :
  ∃ (h : List (Fin 2 × Event ℕ)) (s : Global (Fin 2) (Mem (Fin 2) ℕ) (Thread ℕ)),
    (queue (Fin 2) 1).Run Machine.Free
      ⟨Mem.new, fun i => ⟨if i = 0 then [.add 7] else [.remove], .idle⟩⟩ h s ∧
      removed h = [7] ∧ s.mem.size ≤ 1 ∧ removed h <+: added h ∧
      Shown Serves [.remove] (ofThread 1 h)
  := by
  have hinit : (queue (Fin 2) 1).Initial
      ⟨Mem.new, fun i => ⟨if i = 0 then [.add 7] else [.remove], .idle⟩⟩ :=
    ⟨rfl, fun _ => rfl⟩
  have hexec : (queue (Fin 2) 1).exec Machine.Free
      ⟨Mem.new, fun i => ⟨if i = 0 then [.add 7] else [.remove], .idle⟩⟩
      [(1, .go), (1, .go), (1, .go), (1, .go), (0, .go), (0, .go), (0, .go), (0, .go),
        (0, .go), (0, .go), (0, .wake 1), (0, .go), (1, .go), (1, .go), (1, .go), (1, .go),
        (1, .go), (1, .go), (1, .go)] = some (_, _) := rfl
  have hrun := Machine.exec_run hexec
  obtain ⟨hbound, -, -, hfifo, hcalls⟩ := bounded_fifo Nat.one_pos (by omega) hinit hrun
  obtain ⟨calls, htodo, -, hshown⟩ := hcalls 1
  have hcall : [.remove] = calls ++ [] := htodo
  rw [List.append_nil] at hcall
  subst hcall
  exact ⟨_, _, hrun, rfl, hbound, hfifo, hshown rfl⟩

end BlockingQueue

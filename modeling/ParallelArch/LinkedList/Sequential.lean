import Mathlib.Data.Finset.Basic
import ParallelArch.LinkedList.Calls

/-!
# The list used by one thread

With one thread no link of the chain is ever marked between two calls, and `find` ends where
the value belongs.  So `add` and `remove` act on the set of all values of the chain, the
tail sentinel's `T{}` among them, while `contains` never gets past the two sentinels: it
answers whether its value is `T{}`.

Compared with a set that starts empty this is right for a sequence of calls exactly if no
call names `T{}` and no `contains` asks for a value that is in the set (`agrees_iff`).
-/

namespace LockFreeList

variable {T : Type*} [LinearOrder T]

/-! ### The set -/

/-- What a set answers to a call. -/
def Call.answer (s : Finset T) : Call T → Bool
  | .add v => decide (v ∉ s)
  | .remove v | .contains v => decide (v ∈ s)

/-- The set after a call. -/
def Call.next (s : Finset T) : Call T → Finset T
  | .add v => insert v s
  | .remove v => s.erase v
  | .contains _ => s

/-- What a set answers to a sequence of calls. -/
def answers (s : Finset T) : List (Call T) → List Bool
  | [] => []
  | c :: calls => c.answer s :: answers (c.next s) calls

/-- What the calls of a run have returned. -/
def returns (h : List (Unit × Event T)) : List Bool :=
  h.map fun e => match e.2 with
    | .returned _ answer => answer

variable [Inhabited T]

/-- The call does not name `T{}` and does not ask for a value that is present. -/
def Call.Fair (s : Finset T) (c : Call T) : Prop :=
  c.value ≠ default ∧ ∀ v, c = .contains v → v ∉ s

/-- No call names `T{}`, and no `contains` asks for a value that is present. -/
def Fair (s : Finset T) : List (Call T) → Prop
  | [] => True
  | c :: calls => c.Fair s ∧ Fair (c.next s) calls

/-! ### One thread -/

/-- One thread goes from `t` to `t'` while the calls of `h` return. -/
def Goes (m : Mem T) (t : Thread T) (h : List (Unit × Event T)) (m' : Mem T) (t' : Thread T) :
    Prop :=
  (list Unit T).Run Machine.Free ⟨m, fun _ => t⟩ h ⟨m', fun _ => t'⟩

/-- The list answers the calls, one after another on a fresh list, as a set that starts
empty. -/
def Agrees (calls : List (Call T)) : Prop :=
  ∃ h m, Goes Mem.new ⟨calls, .idle⟩ h m ⟨[], .idle⟩ ∧ returns h = answers ∅ calls

variable {m m' : Mem T} {xs xs' : List ℕ} {todo : List (Call T)}

theorem GoesLive.goes {t t' : Thread T} {h : List (Unit × Event T)} (hgoes : GoesLive m t h m' t') :
  Goes m t h m' t'
  := Machine.Run.free hgoes

/-! ### Between two calls -/

/-- The list between two calls: no node of the chain is marked, and the tail sentinel is in
the chain. -/
structure Quiet (m : Mem T) (xs : List ℕ) : Prop where
  shape : Shape m xs
  unmarked : ∀ a ∈ xs, ¬ m.Marked a
  headPtr : m.head.mark = false
  headValue : m.value m.head.addr = default
  tailPtr : m.tail.mark = false
  tailIn : m.tail.addr ∈ xs
  tailValue : m.value m.tail.addr = default

/-- A call that names another value than `T{}` keeps the list quiet. -/
theorem Quiet.frame {v : T} (h : Quiet m xs) (hcalm : Calm m' xs' none)
    (hframe : Frame v m xs m' xs') (hv : v ≠ default) :
  Quiet m' xs'
  := by
  have hvalue : ∀ a ∈ m.head.addr :: xs, m'.value a = m.value a := by
    intro a ha
    apply hframe.value a (h.shape.inHeap a ha)
  refine ⟨hcalm.shape, hcalm.unmarked, hcalm.headPtr, ?_, hcalm.tailPtr, ?_, ?_⟩
  · rw [hframe.head, hvalue _ List.mem_cons_self]
    apply h.headValue
  · rw [hframe.tail]
    apply hframe.stays _ h.tailIn
    rw [h.tailValue]
    apply hv.symm
  · rw [hframe.tail, hvalue _ (List.mem_cons_of_mem _ h.tailIn)]
    apply h.tailValue

/-- `contains` stops at one of the two sentinels. -/
theorem Quiet.find_stops (h : Quiet m xs) (v : T) :
  (m.head.addr :: xs).find? (m.stops v)
    = some (if default < v then m.tail.addr else m.head.addr)
  := by
  rw [List.find?_eq_some_iff_append]
  split_ifs with hlt
  · obtain ⟨us, ws, heq⟩ := List.append_of_mem h.tailIn
    refine ⟨?_, m.head.addr :: us, ws, congrArg (List.cons m.head.addr) heq, ?_⟩
    · simp [Mem.stops]
    · have hsorted := h.shape.sorted
      have hhead := h.shape.headOut
      rw [heq] at hsorted hhead
      obtain ⟨-, -, hus⟩ := List.pairwise_append.mp hsorted
      intro a ha
      have hbelow : a ≠ m.tail.addr ∧ m.value a < v := by
        rcases List.mem_cons.mp ha with rfl | ha
        · constructor
          · intro htail
            apply hhead
            simp [htail]
          · rw [h.headValue]
            apply hlt
        · have hval := hus a ha _ List.mem_cons_self
          constructor
          · rintro rfl
            apply lt_irrefl _ hval
          · rw [h.tailValue] at hval
            apply hval.trans hlt
      simpa [Mem.stops] using hbelow
  · refine ⟨?_, [], xs, rfl, List.forall_mem_nil _⟩
    simpa [Mem.stops, h.headValue] using Or.inr (not_lt.mp hlt)

/-- `contains` answers whether its value is `T{}`. -/
theorem Quiet.contains (h : Quiet m xs) (v : T) :
  (∃ a, (m.head.addr :: xs).find? (m.stops v) = some a ∧ a ≠ m.tail.addr ∧ m.value a = v)
    ↔ v = default
  := by
  rw [h.find_stops]
  constructor
  · rintro ⟨a, ha, htail, rfl⟩
    split_ifs at ha with hlt
    · cases ha
      cases htail rfl
    · cases ha
      apply h.headValue
  · rintro rfl
    refine ⟨m.head.addr, ?_, ?_, h.headValue⟩
    · rw [if_neg (lt_irrefl _)]
    · intro heq
      apply h.shape.headOut
      rw [heq]
      apply h.tailIn

/-! ### Sequences of calls -/

theorem Quiet.new :
  Quiet (Mem.new : Mem T) [2]
  := by
  constructor
  · apply Shape.new
  · intro a _
    apply Mem.not_marked_new
  · rfl
  · rfl
  · rfl
  · apply List.mem_cons_self
  · rfl

omit [LinearOrder T] in
theorem alive_new :
  Alive (Mem.new : Mem T) [2] = {default}
  := by
  ext v
  constructor
  · rintro ⟨_, -, rfl, -⟩
    rfl
  · rintro rfl
    exact ⟨2, List.mem_cons_self, rfl, Mem.not_marked_new 2⟩

/-- One call on a list that holds `s` besides `T{}`. -/
theorem call_goes (hcalm : Calm m xs none) (h : Quiet m xs) {s : Finset T}
    (halive : Alive m xs = insert default ↑s) (hs : default ∉ s) (todo : List (Call T))
    (c : Call T) :
  ∃ m' xs' b, Ends m xs c todo b m' xs' ∧ (b = c.answer s ↔ c.Fair s) ∧
    (c.value ≠ default → Alive m' xs' = insert default ↑(c.next s) ∧ default ∉ c.next s)
  := by
  have mem_alive : ∀ v, v ∈ Alive m xs ↔ v = default ∨ v ∈ s := by
    intro v
    rw [halive]
    rfl
  cases c with
  | add v =>
      obtain ⟨m', xs', b, hends, hb, hset⟩ := add_goes hcalm todo v
      rw [mem_alive] at hb
      refine ⟨m', xs', b, hends, ?_, ?_⟩
      · rw [Bool.eq_iff_iff, hb]
        rcases eq_or_ne v default with rfl | hv
        · simp [Call.answer, Call.Fair, Call.value, hs]
        · simp [Call.answer, Call.Fair, Call.value, hv]
      · intro hv
        constructor
        · rw [hset, halive, Set.insert_comm, Call.next, Finset.coe_insert]
        · simp only [Call.next, Finset.mem_insert, not_or]
          use hv.symm
  | remove v =>
      obtain ⟨m', xs', b, hends, hb, hset⟩ := remove_goes hcalm todo v
      rw [mem_alive] at hb
      refine ⟨m', xs', b, hends, ?_, ?_⟩
      · rw [Bool.eq_iff_iff, hb]
        rcases eq_or_ne v default with rfl | hv
        · simp [Call.answer, Call.Fair, Call.value, hs]
        · simp [Call.answer, Call.Fair, Call.value, hv]
      · intro hv
        constructor
        · rw [hset, halive, Call.next, Finset.coe_erase]
          symm
          apply Set.insert_sdiff_singleton_comm
          apply Ne.symm hv
        · intro hmem
          apply hs (Finset.mem_of_mem_erase hmem)
  | contains v =>
      obtain ⟨b, hends, hb⟩ := contains_goes hcalm todo v
      rw [h.contains] at hb
      refine ⟨m, xs, b, hends, ?_, ?_⟩
      · rw [Bool.eq_iff_iff, hb]
        rcases eq_or_ne v default with rfl | hv
        · simp [Call.answer, Call.Fair, Call.value, hs]
        · simp [Call.answer, Call.Fair, Call.value, hv]
      · intro _
        exact ⟨halive, hs⟩

theorem agrees_from {calls : List (Call T)} :
  ∀ {m : Mem T} {xs : List ℕ} {s : Finset T}, Calm m xs none → Quiet m xs →
    Alive m xs = insert default ↑s → default ∉ s →
    ((∃ h m', Goes m ⟨calls, .idle⟩ h m' ⟨[], .idle⟩ ∧ returns h = answers s calls)
      ↔ Fair s calls)
  := by
  induction calls with
  | nil =>
      intro m xs s _ _ _ _
      apply iff_of_true _ trivial
      exact ⟨[], m, .nil, rfl⟩
  | cons c calls ih =>
      intro m xs s hcalm hquiet halive hs
      obtain ⟨m₁, xs₁, b, hends, hb, hnext⟩ := call_goes hcalm hquiet halive hs calls c
      have hgoes := hends.goes.goes
      have rest : c.Fair s → ((∃ h m', Goes m₁ ⟨calls, .idle⟩ h m' ⟨[], .idle⟩ ∧
          returns h = answers (c.next s) calls) ↔ Fair (c.next s) calls) := by
        intro hfair
        obtain ⟨halive₁, hs₁⟩ := hnext hfair.1
        apply ih hends.calm (hquiet.frame hends.calm hends.frame hfair.1) halive₁ hs₁
      constructor
      · rintro ⟨h, m', hrun, hreturns⟩
        obtain ⟨h₁, hrest, rfl⟩ := Machine.Run.prefix_of_final hgoes hrun (final m')
        obtain ⟨hanswer, hreturns⟩ := List.cons.inj hreturns
        have hfair := hb.mp hanswer
        use hfair
        apply (rest hfair).mp
        exact ⟨h₁, m', hrest, hreturns⟩
      · rintro ⟨hfair, hrest⟩
        obtain ⟨h₁, m', hrun, hreturns⟩ := (rest hfair).mpr hrest
        refine ⟨_, m', hgoes.trans hrun, ?_⟩
        exact congrArg₂ List.cons (hb.mpr hfair) hreturns

/-- The list answers a sequence of calls as a set that starts empty exactly if no call names
`T{}` and no `contains` asks for a value that is in the set. -/
theorem agrees_iff (calls : List (Call T)) :
  Agrees calls ↔ Fair ∅ calls
  := by
  apply agrees_from Calm.new Quiet.new
  · rw [alive_new, Finset.coe_empty, insert_empty_eq]
  · apply Finset.notMem_empty

/-- `contains` does not find the value that has just been added. -/
theorem contains_misses :
  ¬ Agrees [Call.add (10 : ℤ), .contains 10] ∧
    ∃ h m, Goes Mem.new ⟨[Call.add (10 : ℤ), .contains 10], .idle⟩ h m ⟨[], .idle⟩ ∧
      returns h = [true, false]
  := by
  constructor
  · intro hagrees
    have hfair : Fair ∅ [Call.add (10 : ℤ), .contains 10] := by
      apply (agrees_from Calm.new Quiet.new _ (Finset.notMem_empty _)).mp hagrees
      rw [alive_new, Finset.coe_empty, insert_empty_eq]
    apply hfair.2.1.2 10 rfl
    apply Finset.mem_insert_self
  · have hrun : (list Unit ℤ).exec Machine.Free
        ⟨Mem.new, fun _ => ⟨[.add 10, .contains 10], .idle⟩⟩ (List.replicate 16 ((), ()))
        = some (⟨_, fun _ => ⟨[], .idle⟩⟩,
            [((), .returned (.add 10) true), ((), .returned (.contains 10) false)]) := rfl
    exact ⟨_, _, Machine.exec_run hrun, rfl⟩

end LockFreeList

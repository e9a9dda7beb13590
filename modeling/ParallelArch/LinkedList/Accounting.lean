import Mathlib.Algebra.GroupWithZero.Nat
import Mathlib.Algebra.Notation.Indicator
import Mathlib.Tactic.FinCases
import ParallelArch.LinkedList.Invariant

/-!
# The list accounts for its updates

In a careful run that never goes through a marked pointer every `add` that returns true has
inserted its value and every `remove` that returns true, or is about to, has erased it.  So the
adds of a value exceed its removes by one exactly while the value is in the list.

Without care a value is removed twice (`removed_twice`): a second `remove` loads the marked
`next` of a node that is being removed, and its compare-exchange from that word to itself
succeeds.  And a walk over the marked link of a node keeps the mark in `pre`, so that an `add`
comes to a compare-exchange through a marked pointer (`comes_to_marked`).
-/

namespace LockFreeList

variable {ι T : Type*} [LinearOrder T]

/-! ### Counting -/

/-- How many calls of `add(v)` have returned true. -/
def adds (v : T) (h : List (ι × Event T)) : ℕ :=
  (h.map Prod.snd).count (.returned (.add v) true)

/-- How many calls of `remove(v)` have returned true. -/
def removes (v : T) (h : List (ι × Event T)) : ℕ :=
  (h.map Prod.snd).count (.returned (.remove v) true)

theorem adds_append (v : T) (h : List (ι × Event T)) (i : ι) (e : List (Event T)) :
  adds v (h ++ e.map (Prod.mk i)) = adds v h + e.count (.returned (.add v) true)
  := by
  have hsnd : Prod.snd ∘ Prod.mk i = (id : Event T → Event T) := rfl
  rw [adds, List.map_append, List.map_map, hsnd, List.map_id, List.count_append, adds]

theorem removes_append (v : T) (h : List (ι × Event T)) (i : ι) (e : List (Event T)) :
  removes v (h ++ e.map (Prod.mk i)) = removes v h + e.count (.returned (.remove v) true)
  := by
  have hsnd : Prod.snd ∘ Prod.mk i = (id : Event T → Event T) := rfl
  rw [removes, List.map_append, List.map_map, hsnd, List.map_id, List.count_append, removes]

/-- The thread has erased `v` and not yet returned. -/
def Pc.pending (v : T) : Pc T → ℕ
  | .removeSwing w _ _ _ | .removeDelete w _ => if w = v then 1 else 0
  | _ => 0

/-- How often `v` is in the set. -/
noncomputable def present (s : Set T) (v : T) : ℕ := s.indicator 1 v

/-- How often an effect inserts `v`. -/
def Effect.inserted (v : T) : Effect T → ℕ
  | .insert w => if w = v then 1 else 0
  | _ => 0

/-- How often an effect erases `v`. -/
def Effect.erased (v : T) : Effect T → ℕ
  | .erase w => if w = v then 1 else 0
  | _ => 0

omit [LinearOrder T] in
theorem present_of_mem {s : Set T} {v : T} (h : v ∈ s) :
  present s v = 1
  := Set.indicator_of_mem h 1

omit [LinearOrder T] in
theorem present_of_notMem {s : Set T} {v : T} (h : v ∉ s) :
  present s v = 0
  := Set.indicator_of_notMem h 1

omit [LinearOrder T] in
theorem present_congr {s s' : Set T} {v : T} (h : v ∈ s ↔ v ∈ s') :
  present s v = present s' v
  := by
  by_cases hv : v ∈ s
  · rw [present_of_mem hv, present_of_mem (h.mp hv)]
  · rw [present_of_notMem hv, present_of_notMem (mt h.mpr hv)]

theorem present_apply {e : Effect T} {s : Set T} (h : e.Allowed s) (v : T) :
  present (e.apply s) v + e.erased v = present s v + e.inserted v
  := by
  cases e with
  | none => rfl
  | insert w =>
      rcases eq_or_ne v w with rfl | hne
      · rw [Effect.apply, present_of_mem (Set.mem_insert v s), present_of_notMem h]
        simp [Effect.erased, Effect.inserted]
      · have hsame : v ∈ (Effect.insert w).apply s ↔ v ∈ s := or_iff_right hne
        rw [present_congr hsame]
        simp [Effect.erased, Effect.inserted, hne.symm]
  | erase w =>
      rcases eq_or_ne v w with rfl | hne
      · have hout : v ∉ (Effect.erase v).apply s := fun hv => hv.2 rfl
        rw [present_of_notMem hout, present_of_mem h]
        simp [Effect.erased, Effect.inserted]
      · have hsame : v ∈ (Effect.erase w).apply s ↔ v ∈ s := and_iff_left hne
        rw [present_congr hsame]
        simp [Effect.erased, Effect.inserted, hne.symm]

/-! ### One step -/

section Step

variable {m : Mem T} {l : Thread T} {o : Outcome (Mem T) (Thread T) (Event T)}

/-- `add` returns true in the step that inserts its value. -/
theorem adds_step (h : step m l = some o) (v : T) :
  o.events.count (.returned (.add v) true) = (l.pc.effect m).inserted v
  := by
  obtain ⟨-, hmoves⟩ := step_moves h
  generalize l.pc = pc at hmoves
  cases hmoves with
  | added hcas =>
      simp [Pc.effect, hcas, Effect.inserted, List.count_singleton]
  | addFails hcas => simp [Pc.effect, hcas, Effect.inserted]
  | marked hcas | markFails hcas => simp [Pc.effect, hcas, Effect.inserted]
  | addDelete | removeAbsent | swingFails | removeDelete | containsAbsent | containsMark =>
      simp [Pc.effect, Effect.inserted]
  | _ => rfl

/-- `remove` returns true after the step that erases its value. -/
theorem removes_step (h : step m l = some o) (v : T) :
  o.events.count (.returned (.remove v) true) + o.loc.pc.pending v
    = l.pc.pending v + (l.pc.effect m).erased v
  := by
  obtain ⟨-, hmoves⟩ := step_moves h
  generalize l.pc = pc at hmoves
  have found : ∀ k w pre cur, (Pc.found k w pre cur).pending v = 0 := by
    intro k w pre cur
    unfold Pc.found
    split_ifs
    · rfl
    · cases k <;> rfl
  cases hmoves with
  | findStop | cleaned => exact (Nat.zero_add _).trans (found _ _ _ _)
  | added hcas | addFails hcas | marked hcas | markFails hcas =>
      simp [Pc.effect, hcas, Effect.erased, Pc.pending]
  | swung => simp [Pc.effect, Effect.erased, Pc.pending]
  | swingFails | removeDelete =>
      simp [Pc.effect, Effect.erased, Pc.pending, List.count_singleton]
  | addDelete | removeAbsent | containsAbsent | containsMark =>
      simp [Pc.effect, Effect.erased, Pc.pending]
  | _ => rfl

end Step

/-! ### Runs -/

variable [DecidableEq ι] [Fintype ι] [Inhabited T]

/-- The adds of a value, with one more for the sentinel's, are its removes, those about to
return, and the value in the list. -/
structure Accounts (m : Mem T) (l : ι → Thread T) (h : List (ι × Event T)) (xs : List ℕ) :
    Prop where
  inv : Inv m l xs
  sentinel : m.value m.head.addr = default
  balance : ∀ v, adds v h + (if v = default then 1 else 0)
    = removes v h + total (fun t : Thread T => t.pc.pending v) l + present (Alive m xs) v

theorem Accounts.step {m : Mem T} {l : ι → Thread T} {h : List (ι × Event T)} {xs : List ℕ}
    (hA : Accounts m l h xs) {i : ι} (hG : Careful m (l i).pc)
    {o : Outcome (Mem T) (Thread T) (Event T)} (ho : LockFreeList.step m (l i) = some o) :
  ∃ xs', Accounts o.mem (Function.update l i o.loc) (h ++ o.events.map (Prod.mk i)) xs'
  := by
  obtain ⟨xs', hinv, hkept⟩ := hA.inv.step hG ho
  refine ⟨xs', hinv, ?_, ?_⟩
  · rw [hkept.later.head, hkept.later.value _ (hA.inv.shape.inHeap _ List.mem_cons_self)]
    apply hA.sentinel
  · intro v
    have hbalance := hA.balance v
    have hadds := adds_step ho v
    have hremoves := removes_step ho v
    have hpresent := present_apply hkept.allowed v
    have htotal := total_update (fun t : Thread T => t.pc.pending v) l i o.loc
    rw [← hkept.set] at hpresent
    rw [adds_append, removes_append]
    omega

theorem reachable_accounts {h : List (ι × Event T)} {s : Global ι (Mem T) (Thread T)}
    (hs : (list ι T).Reachable Carefully h s) :
  ∃ xs, Accounts s.mem s.loc h xs
  := by
  apply threads_invariant (I := fun m l h => ∃ xs, Accounts m l h xs) _ _ hs
  · rintro m l ⟨rfl, hl⟩
    refine ⟨[2], Inv.new hl, rfl, ?_⟩
    intro v
    have hpending : total (fun t : Thread T => t.pc.pending v) l = 0 := by
      apply total_eq_zero
      intro i
      rw [hl i]
      rfl
    have halive : Alive (Mem.new : Mem T) [2] = {default} := by
      ext w
      constructor
      · rintro ⟨a, -, hw, -⟩
        exact hw.symm
      · rintro rfl
        refine ⟨2, List.mem_singleton_self 2, rfl, ?_⟩
        simp [Mem.Marked, Mem.new, Ptr.null]
    rw [hpending, halive]
    rcases eq_or_ne v default with rfl | hne
    · rw [present_of_mem (Set.mem_singleton _)]
      simp [adds, removes]
    · have hout : v ∉ ({default} : Set T) := hne
      rw [present_of_notMem hout]
      simp [adds, removes, hne]
  · rintro m l h i _ o ⟨xs, hA⟩ hG ho
    apply hA.step hG.2 ho

/-- When all calls of a careful run without an access through a marked pointer have returned, the
adds of a value have succeeded as often as its removes, or once more; and once more exactly if an
unmarked node with the value can be reached from `head`. -/
theorem accounts_for_updates {h : List (ι × Event T)} {s : Global ι (Mem T) (Thread T)}
    (hs : (list ι T).Reachable Carefully h s) (hreturned : ∀ i, (s.loc i).pc = .idle) {v : T}
    (hv : v ≠ default) :
  (adds v h = removes v h ∨ adds v h = removes v h + 1) ∧
    (adds v h = removes v h + 1 ↔ ∃ a, Reaches 0 s.mem.succ s.mem.head.addr a ∧
      s.mem.value a = v ∧ ¬ s.mem.Marked a)
  := by
  obtain ⟨xs, hinv, hsentinel, hbalance⟩ := reachable_accounts hs
  have hpending : total (fun t : Thread T => t.pc.pending v) s.loc = 0 := by
    apply total_eq_zero
    intro i
    rw [hreturned i]
    rfl
  have hreach : (∃ a, Reaches 0 s.mem.succ s.mem.head.addr a ∧ s.mem.value a = v ∧
      ¬ s.mem.Marked a) ↔ v ∈ Alive s.mem xs := by
    constructor
    · rintro ⟨a, ha, hvalue, hmark⟩
      rw [hinv.shape.linked.reaches_iff, List.mem_cons] at ha
      rcases ha with rfl | ha
      · rw [hsentinel] at hvalue
        cases hv hvalue.symm
      · exact ⟨a, ha, hvalue, hmark⟩
    · rintro ⟨a, ha, hvalue, hmark⟩
      refine ⟨a, ?_, hvalue, hmark⟩
      rw [hinv.shape.linked.reaches_iff]
      apply List.mem_cons_of_mem _ ha
  have hcount := hbalance v
  rw [hpending, if_neg hv] at hcount
  rw [hreach]
  by_cases hmem : v ∈ Alive s.mem xs
  · rw [present_of_mem hmem] at hcount
    constructor
    · omega
    · simp only [hmem, iff_true]
      omega
  · rw [present_of_notMem hmem] at hcount
    constructor
    · omega
    · simp only [hmem, iff_false]
      omega

/-- Thread `0` adds `10` and removes it, thread `1` adds `20`. -/
theorem accounts_for_twenty :
  ∃ (h : List (Fin 2 × Event ℤ)) (s : Global (Fin 2) (Mem ℤ) (Thread ℤ)),
    (list (Fin 2) ℤ).Reachable Carefully h s ∧ adds 10 h = 1 ∧ removes 10 h = 1 ∧
      (adds 20 h = removes 20 h + 1 ↔ ∃ a, Reaches 0 s.mem.succ s.mem.head.addr a ∧
        s.mem.value a = 20 ∧ ¬ s.mem.Marked a)
  := by
  have hinit : (list (Fin 2) ℤ).Initial
      ⟨Mem.new, fun i => ⟨if i = 0 then [.add 10, .remove 10] else [.add 20], .idle⟩⟩ :=
    ⟨rfl, fun _ => rfl⟩
  have hs := Machine.exec_reachable (G := Carefully)
    (List.replicate 10 (0, ()) ++ List.replicate 12 (1, ()) ++ List.replicate 11 (0, ()))
    hinit rfl
  refine ⟨_, _, hs, rfl, rfl, (accounts_for_updates hs ?_ (by decide)).2⟩
  intro i
  fin_cases i <;> rfl

/-- Thread `1` finds the node of `10` while thread `0` is removing it: both removes return
true. -/
theorem removed_twice :
  ∃ (h : List (Fin 2 × Event ℤ)) (s : Global (Fin 2) (Mem ℤ) (Thread ℤ)),
    (list (Fin 2) ℤ).Reachable Machine.Free h s ∧
      (∀ i, (s.loc i).pc = .idle ∧ (s.loc i).todo = []) ∧ adds 10 h = 1 ∧ removes 10 h = 2
  := by
  have hinit : (list (Fin 2) ℤ).Initial
      ⟨Mem.new, fun i => ⟨if i = 0 then [.add 10, .remove 10] else [.remove 10], .idle⟩⟩ :=
    ⟨rfl, fun _ => rfl⟩
  have hs := Machine.exec_reachable (G := Machine.Free)
    (List.replicate 19 (0, ()) ++ List.replicate 11 (1, ()) ++ [(0, ())]) hinit rfl
  refine ⟨_, _, hs, ?_, rfl, rfl⟩
  intro i
  fin_cases i <;> exact ⟨rfl, rfl⟩

/-- Thread `0` has added `10` and `20` and marked the node of `10`; thread `1`, which is to add
`30`, walks over the marked link and comes to its compare-exchange with a marked `pre`. -/
theorem comes_to_marked :
  ∃ (h : List (Fin 2 × Event ℤ)) (s : Global (Fin 2) (Mem ℤ) (Thread ℤ)),
    (list (Fin 2) ℤ).Reachable Carefully h s ∧
      (s.loc 1).pc = .addCas 30 ⟨5, false⟩ ⟨4, true⟩ .null ∧
      (s.loc 1).pc.AccessesMarked s.mem.tail
  := by
  have hinit : (list (Fin 2) ℤ).Initial
      ⟨Mem.new, fun i => ⟨if i = 0 then [.add 10, .add 20, .remove 10] else [.add 30], .idle⟩⟩ :=
    ⟨rfl, fun _ => rfl⟩
  have hs := Machine.exec_reachable (G := Carefully)
    (List.replicate 31 (0, ()) ++ List.replicate 13 (1, ())) hinit rfl
  exact ⟨_, _, hs, rfl, (rfl : Option.any _ _ = true)⟩

end LockFreeList

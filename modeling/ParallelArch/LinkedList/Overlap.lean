import ParallelArch.LinkedList.Pointers
import ParallelArch.LinkedList.Sequential

/-!
# Overlapping adds

In the runs of this module calls of `add` overlap in any way, and a `remove` runs while no
other call is in progress.  Then no thread meets a marked link, so the chain keeps its shape,
and between two removes no node of the chain is marked.

The set of values is `T{}` with the set that the history makes of the successful adds and the
removes (`replay`): a false `add` has found its value in it, and a `remove` answers whether its
value is in it.
-/

namespace LockFreeList

variable {ι T : Type*}

/-! ### The runs -/

/-- The walk of `find` belongs to a `remove`. -/
def Caller.removing : Caller → Bool
  | .add _ => false
  | .remove => true

/-- The thread is in a call of `remove`. -/
def Pc.removing : Pc T → Bool
  | .findHead k _ | .findFirst k _ _ | .findTest k _ _ _ | .findNext k _ _ _ => k.removing
  | .cleanLoad k _ _ _ | .cleanCas k _ _ _ _ => k.removing
  | .removeTest _ _ _ | .removeLoad _ _ _ | .removeMark _ _ _ _ | .removeSwing _ _ _ _ => true
  | .removeDelete _ _ => true
  | _ => false

/-- The thread is between two calls. -/
def Pc.between : Pc T → Bool
  | .idle => true
  | _ => false

/-- The call is a `remove`. -/
def Call.isRemove : Call T → Bool
  | .remove _ => true
  | _ => false

/-- A call that begins names a value other than `T{}`; no `remove` is in progress, and if it is
a `remove` itself, no other call is. -/
def Apart [Inhabited T] (s : Global ι (Mem T) (Thread T)) (a : ι × Unit) : Prop :=
  (s.loc a.1).pc.between → ∀ c ∈ (s.loc a.1).todo.head?,
    Call.value c ≠ default ∧ (∀ j, ¬ (s.loc j).pc.removing) ∧
      (c.isRemove → ∀ j ≠ a.1, (s.loc j).pc.between)

instance [Inhabited T] [DecidableEq T] [Fintype ι] [DecidableEq ι]
    (s : Global ι (Mem T) (Thread T)) (a : ι × Unit) : Decidable (Apart s a) :=
  inferInstanceAs (Decidable (_ → _))

/-! ### The history as a set -/

/-- What a call that has returned has done to the set. -/
def Event.effect : Event T → Effect T
  | .returned (.add v) true => .insert v
  | .returned (.remove v) true => .erase v
  | _ => .none

/-- The set that the history makes of the empty set. -/
def replay (h : List (ι × Event T)) : Set T :=
  h.foldl (fun s e => e.2.effect.apply s) ∅

theorem replay_silent (h : List (ι × Event T)) :
  replay (h ++ []) = replay h
  := by
  rw [List.append_nil]

theorem replay_snoc (h : List (ι × Event T)) (e : ι × Event T) :
  replay (h ++ [e]) = e.2.effect.apply (replay h)
  := by
  rw [replay, List.foldl_append]
  rfl

/-! ### What a thread is about to do -/

/-- The value of the update in progress. -/
def Pc.argument : Pc T → Option T
  | .addNew v | .findHead _ v | .findFirst _ v _ | .findTest _ v _ _ | .findNext _ v _ _ => some v
  | .cleanLoad _ v _ _ | .cleanCas _ v _ _ _ | .addTest v _ _ _ | .addDelete v _ => some v
  | .addStore v _ _ _ | .addCas v _ _ _ | .removeTest v _ _ | .removeLoad v _ _ => some v
  | .removeMark v _ _ _ | .removeSwing v _ _ _ | .removeDelete v _ => some v
  | _ => none

/-- The value a `remove` has erased and not yet answered for. -/
def Pc.erasing : Pc T → Option T
  | .removeSwing v _ _ _ | .removeDelete v _ => some v
  | _ => none

/-- The links a `remove` has loaded are still there. -/
def Pc.Current (m : Mem T) : Pc T → Prop
  | .findTest .remove _ pre cur => m.next pre.addr = cur
  | .removeTest _ pre cur | .removeLoad _ pre cur | .removeSwing _ pre cur _ =>
      m.next pre.addr = cur
  | .removeMark _ pre cur nextCur => m.next pre.addr = cur ∧ m.next cur.addr = nextCur
  | _ => True

theorem Pc.found_removing (k : Caller) (v : T) (pre cur : Ptr) :
  (Pc.found k v pre cur).removing = k.removing
  := by
  unfold Pc.found
  split_ifs
  · rfl
  · cases k <;> rfl

theorem Pc.found_argument (k : Caller) (v : T) (pre cur : Ptr) :
  (Pc.found k v pre cur).argument = some v
  := by
  unfold Pc.found
  split_ifs
  · rfl
  · cases k <;> rfl

theorem Pc.found_erasing (k : Caller) (v : T) (pre cur : Ptr) :
  (Pc.found k v pre cur).erasing = none
  := by
  unfold Pc.found
  split_ifs
  · rfl
  · cases k <;> rfl

variable [LinearOrder T]

section Step

variable {m : Mem T} {l : Thread T} {o : Outcome (Mem T) (Thread T) (Event T)}

/-- A thread comes to remove only by beginning to. -/
theorem removing_step (h : step m l = some o) (ho : o.loc.pc.removing) :
  l.pc.removing ∨ l.pc = .idle ∧ ∃ v todo, l.todo = .remove v :: todo
  := by
  obtain ⟨-, hmoves⟩ := step_moves h
  generalize l.pc = pc at *
  cases hmoves with
  | beginRemove htodo => exact .inr ⟨rfl, _, _, htodo⟩
  | findStop | cleaned =>
      rw [Thread.goto_pc, Pc.found_removing] at ho
      exact .inl ho
  | removePresent | removeLoad | marked | markFails | swung => exact .inl rfl
  | findHead | findFirst | findOn | findNext | cleanLoad | cleanFails => exact .inl ho
  | _ => cases ho

/-- The value of an update is that of the call that has begun. -/
theorem argument_step (h : step m l = some o) {v : T} (ho : o.loc.pc.argument = some v) :
  l.pc.argument = some v ∨ l.pc = .idle ∧ ∃ c ∈ l.todo.head?, Call.value c = v
  := by
  obtain ⟨-, hmoves⟩ := step_moves h
  generalize l.pc = pc at *
  cases hmoves with
  | beginAdd htodo | beginRemove htodo =>
      right
      rw [htodo]
      exact ⟨rfl, _, rfl, Option.some.inj ho⟩
  | findStop | cleaned =>
      left
      rw [Thread.goto_pc, Pc.found_argument] at ho
      exact ho
  | addNew | findHead | findFirst | findOn | findNext | cleanLoad | cleanFails | addPresent
  | addAbsent | addStore | addFails | removePresent | removeLoad | marked | markFails
  | swung => exact .inl ho
  | _ => cases ho

/-- Only the mark in `remove` marks a node. -/
theorem marked_step {xs : List ℕ} (h : step m l = some o) (hok : l.pc.Ok m xs)
    (hstraight : l.pc.Straight) {a : ℕ} (ha : o.mem.Marked a) :
  m.Marked a ∨ ∃ v pre cur nextCur, l.pc = .removeMark v pre cur nextCur ∧
    m.next cur.addr = nextCur ∧ a = cur.addr
  := by
  have stored : ∀ {b : ℕ} {p : Ptr}, p.mark = false → (m.storeNext b p).Marked a → m.Marked a := by
    intro b p hp ha
    rcases eq_or_ne a b with rfl | hne
    · rw [Mem.marked_storeNext, hp] at ha
      cases ha
    · rwa [Mem.marked_storeNext_of_ne hne] at ha
  obtain ⟨-, hmoves⟩ := step_moves h
  generalize l.pc = pc at *
  cases hmoves with
  | addNew =>
      left
      rcases eq_or_ne a m.size with rfl | hne
      · cases Mem.not_marked_newNode ha
      · rwa [Mem.marked_newNode hne] at ha
  | cleanLoad | cleaned | cleanFails => cases hstraight.2
  | addStore => exact .inl (stored hok.2.2.2 ha)
  | added => exact .inl (stored hok.1.unmarked ha)
  | swung => exact .inl (stored hok.2.2.1 ha)
  | @marked v pre cur nextCur hcas =>
      rcases eq_or_ne a cur.addr with rfl | hne
      · exact .inr ⟨v, pre, cur, nextCur, rfl, hcas, rfl⟩
      · left
        rwa [Mem.marked_storeNext_of_ne hne] at ha
  | _ => exact .inl ha

omit [LinearOrder T] in
theorem replay_one (h : List (ι × Event T)) (i : ι) (e : Event T) :
  replay (h ++ [e].map (Prod.mk i)) = e.effect.apply (replay h)
  := replay_snoc h (i, e)

/-- What a step does to the set, to the history and to what is being erased. -/
inductive SetStep (m : Mem T) (pc pc' : Pc T) (es : List (Event T)) : Prop where
  | silent (heffect : pc.effect m = .none) (herasing : pc'.erasing = pc.erasing)
      (hreplay : ∀ (i : ι) (h : List (ι × Event T)),
        replay (h ++ es.map (Prod.mk i)) = replay h)
  | added (v : T) (heffect : pc.effect m = .insert v) (herasing : pc.erasing = none)
      (herasing' : pc'.erasing = none)
      (hreplay : ∀ (i : ι) (h : List (ι × Event T)),
        replay (h ++ es.map (Prod.mk i)) = insert v (replay h))
  | erased (v : T) (heffect : pc.effect m = .erase v) (hargument : pc.argument = some v)
      (herasing : pc.erasing = none) (herasing' : pc'.erasing = some v)
      (hreplay : ∀ (i : ι) (h : List (ι × Event T)),
        replay (h ++ es.map (Prod.mk i)) = replay h)
  | removed (v : T) (heffect : pc.effect m = .none) (hremoving : pc.removing = true)
      (herasing : pc.erasing = some v) (herasing' : pc'.erasing = none)
      (hreplay : ∀ (i : ι) (h : List (ι × Event T)),
        replay (h ++ es.map (Prod.mk i)) = replay h \ {v})

theorem set_step (h : step m l = some o) :
  SetStep (ι := ι) m l.pc o.loc.pc o.events
  := by
  obtain ⟨-, hmoves⟩ := step_moves h
  generalize l.pc = pc at *
  have quiet : ∀ {pc pc' : Pc T}, pc.effect m = .none → pc'.erasing = pc.erasing →
      SetStep (ι := ι) m pc pc' [] :=
    fun heffect herasing => .silent heffect herasing fun _ h => replay_silent h
  cases hmoves with
  | findStop | cleaned => exact quiet rfl (Pc.found_erasing _ _ _ _)
  | addDelete | removeAbsent | containsAbsent | containsMark =>
      exact .silent rfl rfl fun i h => replay_one h i _
  | added hcas => exact .added _ (if_pos hcas) rfl rfl fun i h => replay_one h i _
  | addFails hcas | markFails hcas => exact quiet (if_neg hcas) rfl
  | marked hcas => exact .erased _ (if_pos hcas) rfl rfl rfl fun _ h => replay_silent h
  | swingFails | removeDelete => exact .removed _ rfl rfl rfl rfl fun i h => replay_one h i _
  | _ => exact quiet rfl rfl

theorem tail_step (h : step m l = some o) :
  o.mem.tail = m.tail
  := by
  obtain ⟨-, hmoves⟩ := step_moves h
  generalize l.pc = pc at *
  cases hmoves <;> rfl

omit [LinearOrder T] in
theorem Pc.erasing_removing {pc : Pc T} {v : T} (h : pc.erasing = some v) :
  pc.removing = true
  := by
  cases pc <;> first | rfl | cases h

omit [LinearOrder T] in
theorem Pc.current_of_not_removing {pc : Pc T} (h : ¬ pc.removing) :
  pc.Current m
  := by
  cases pc with
  | findTest k =>
      cases k with
      | add => trivial
      | remove => cases h rfl
  | removeTest | removeLoad | removeMark | removeSwing => cases h rfl
  | _ => trivial

/-- The predecessor is another node than the one that carries the value. -/
theorem Before.addr_ne {xs : List ℕ} (hS : Shape m xs) {v : T} {pre cur : Ptr}
    (hpre : Before m xs v pre) (hcur : Seen m xs cur.addr) (hvalue : m.value cur.addr = v) :
  pre.addr ≠ cur.addr
  := by
  intro heq
  rcases hpre with hhead | ⟨-, hlt⟩
  · apply hS.seen_ne_head hcur
    rw [← heq, hhead]
  · rw [heq, hvalue] at hlt
    apply lt_irrefl _ hlt

/-- In a call of `remove` the links it has loaded stay there through its own steps. -/
theorem current_step {xs : List ℕ} (h : step m l = some o) (hS : Shape m xs) (hok : l.pc.Ok m xs)
    (hstraight : l.pc.Straight) (hcurrent : l.pc.Current m) :
  o.loc.pc.Current o.mem
  := by
  obtain ⟨-, hmoves⟩ := step_moves h
  generalize l.pc = pc at *
  cases hmoves with
  | @findFirst k =>
      cases k with
      | add => trivial
      | remove => rfl
  | @findNext k =>
      cases k with
      | add => trivial
      | remove => rfl
  | @findStop k v pre cur =>
      have hcur : cur.mark = false := hstraight.1 cur (by simp [Pc.held])
      rw [Thread.goto_pc, Pc.found_of_unmarked hcur]
      cases k with
      | add => trivial
      | remove => exact hcurrent
  | cleanLoad | cleaned | cleanFails => cases hstraight.2
  | removePresent => exact hcurrent
  | removeLoad => exact ⟨hcurrent, rfl⟩
  | @marked v pre cur nextCur hcas =>
      have hne := hok.1.addr_ne hS hok.2.1 hok.2.2.1
      exact (Function.update_of_ne hne _ _).trans hcurrent.1
  | _ => trivial

end Step

/-! ### The invariant -/

variable [Inhabited T]

/-- The state of the list and of all threads, after the history `h`. -/
structure Overlap (m : Mem T) (l : ι → Thread T) (h : List (ι × Event T)) (xs : List ℕ) :
    Prop where
  inv : Inv m l xs
  straight : ∀ i, (l i).pc.Straight
  held : ∀ i, ∀ p ∈ (l i).pc.held, ¬ m.Marked p.addr
  headPtr : m.head.mark = false
  alone : ∀ i, (l i).pc.removing → ∀ j ≠ i, (l j).pc = .idle
  marked : ∀ a ∈ xs, m.Marked a →
    ∃ i v pre cur nextCur, (l i).pc = .removeSwing v pre cur nextCur ∧ cur.addr = a
  current : ∀ i, (l i).pc.Current m
  named : ∀ i v, (l i).pc.argument = some v → v ≠ default
  tailIn : m.tail.addr ∈ xs
  tailUnmarked : ¬ m.Marked m.tail.addr
  tailValue : m.value m.tail.addr = default
  set : ∀ w, w ∈ Alive m xs ↔ w = default ∨ w ∈ replay h ∧ ∀ i, (l i).pc.erasing ≠ some w
  erases : ∀ i v, (l i).pc.erasing = some v → v ∈ replay h
  present : ∀ i v newNode, (l i).pc = .addDelete v newNode → v ∈ replay h

section Keep

variable {m : Mem T} {l : ι → Thread T} {h : List (ι × Event T)} {xs : List ℕ} {i : ι}
  {o : Outcome (Mem T) (Thread T) (Event T)}

omit [Inhabited T] in
/-- A thread that takes a step from between two calls begins the next call. -/
theorem begins {t : Thread T} (ho : step m t = some o) (hidle : t.pc = .idle) :
  t.todo.head?.isSome = true
  := by
  obtain ⟨-, hmoves⟩ := step_moves ho
  rw [hidle] at hmoves
  cases hmoves with
  | beginAdd htodo | beginRemove htodo | beginContains htodo =>
      rw [htodo]
      rfl

/-- While a thread takes a step no other one is removing. -/
theorem Overlap.others (hI : Overlap m l h xs) (hG : Apart ⟨m, l⟩ (i, ()))
    (ho : step m (l i) = some o) {j : ι} (hj : j ≠ i) :
  ¬ (l j).pc.removing
  := by
  intro hremoving
  have hidle := hI.alone j hremoving i hj.symm
  obtain ⟨c, hc⟩ := Option.isSome_iff_exists.mp (begins ho hidle)
  have hbetween : (l i).pc.between = true := by
    rw [hidle]
    rfl
  apply (hG hbetween c hc).2.1 j hremoving

/-- What a thread loads leads to an unmarked node, or is null. -/
theorem Overlap.load (hI : Overlap m l h xs) {q : Ptr} (hq : q ∈ (l i).pc.loads) :
  (m.next q.addr).mark = false ∧ ¬ m.Marked (m.next q.addr).addr
  := by
  have hunmarked := hI.held i q (Pc.loads_held hq)
  use Bool.eq_false_of_not_eq_true hunmarked
  intro hmarked
  have hS := hI.inv.shape
  have hmem := Seen.mem_chain ((hI.inv.ok i).loads_seen hq) hunmarked
  rcases hS.linked.next_mem_tail hmem with hnull | hnext
  · apply (hS.marked _ hmarked).1 hnull
  · obtain ⟨j, v, pre, cur, nextCur, hpc, -⟩ := hI.marked _ hnext hmarked
    have hremoving : (l j).pc.removing = true := by
      rw [hpc]
      rfl
    rcases eq_or_ne i j with rfl | hne
    · rw [hpc] at hq
      cases hq
    · rw [hI.alone j hremoving i hne] at hq
      cases hq

/-- What a thread holds after its step is unmarked. -/
theorem Overlap.held_own (hI : Overlap m l h xs) (ho : step m (l i) = some o) {p : Ptr}
    (hp : p ∈ o.loc.pc.held) :
  ¬ o.mem.Marked p.addr
  := by
  have hS := hI.inv.shape
  have hok := hI.inv.ok i
  intro hmarked
  rcases marked_step ho hok (hI.straight i) hmarked with
    hmarked | ⟨v, pre, cur, nextCur, hpc, hcas, ha⟩
  · rcases held_step ho (hI.straight i) p hp with hp | rfl | rfl | ⟨q, hq, rfl⟩
    · apply hI.held i p hp hmarked
    · apply hS.headUnmarked hmarked
    · apply (hS.marked _ hmarked).2.1.ne rfl
    · apply (hI.load hq).2 hmarked
  · obtain ⟨-, hmoves⟩ := step_moves ho
    rw [hpc] at hmoves hok
    cases hmoves with
    | marked =>
        rw [List.mem_singleton.mp hp] at ha
        apply hok.1.addr_ne hS hok.2.1 hok.2.2.1 ha
    | markFails hfails => cases hfails hcas

/-- What any thread holds after a step is unmarked. -/
theorem Overlap.held_all [DecidableEq ι] (hI : Overlap m l h xs) (hG : Apart ⟨m, l⟩ (i, ()))
    (ho : step m (l i) = some o) (j : ι) :
  ∀ p ∈ (Function.update l i o.loc j).pc.held, ¬ o.mem.Marked p.addr
  := by
  rcases eq_or_ne j i with rfl | hne
  · rw [Function.update_self]
    intro p hp
    apply hI.held_own ho hp
  · rw [Function.update_of_ne hne]
    intro p hp hmarked
    rcases marked_step ho (hI.inv.ok i) (hI.straight i) hmarked with hmarked | ⟨_, _, _, _, hpc, -⟩
    · apply hI.held j p hp hmarked
    · have hremoving : (l i).pc.removing = true := by
        rw [hpc]
        rfl
      rw [hI.alone i hremoving j hne] at hp
      cases hp

/-- A `remove` stays alone. -/
theorem Overlap.alone_all [DecidableEq ι] (hI : Overlap m l h xs) (hG : Apart ⟨m, l⟩ (i, ()))
    (ho : step m (l i) = some o) (j : ι)
    (hj : (Function.update l i o.loc j).pc.removing = true) :
  ∀ k ≠ j, (Function.update l i o.loc k).pc = .idle
  := by
  rcases eq_or_ne j i with rfl | hne
  · rw [Function.update_self] at hj
    intro k hk
    rw [Function.update_of_ne hk]
    rcases removing_step ho hj with hremoving | ⟨hidle, v, todo, htodo⟩
    · apply hI.alone j hremoving k hk
    · have hbetween : (l j).pc.between = true := by
        rw [hidle]
        rfl
      have hc : Call.remove v ∈ (l j).todo.head? := by
        rw [htodo]
        rfl
      have hothers := (hG hbetween _ hc).2.2 rfl k hk
      change (l k).pc.between = true at hothers
      generalize (l k).pc = pc at hothers
      cases pc <;> first | rfl | cases hothers
  · rw [Function.update_of_ne hne] at hj
    cases hI.others hG ho hne hj

/-- A node of the chain is marked only while its `remove` is about to cut it out. -/
theorem Overlap.marked_all [DecidableEq ι] (hI : Overlap m l h xs) (hG : Apart ⟨m, l⟩ (i, ()))
    (ho : step m (l i) = some o) {xs' : List ℕ} (hkept : Kept m xs (l i).pc o.mem o.loc.pc xs')
    {a : ℕ} (ha : a ∈ xs') (hmarked : o.mem.Marked a) :
  ∃ j v pre cur nextCur,
    (Function.update l i o.loc j).pc = .removeSwing v pre cur nextCur ∧ cur.addr = a
  := by
  have hmoves := (step_moves ho).2
  rcases marked_step ho (hI.inv.ok i) (hI.straight i) hmarked with
    hmarked | ⟨v, pre, cur, nextCur, hpc, hcas, rfl⟩
  · have hmem : a ∈ xs := by
      apply (hkept.later.gains a ha).resolve_right
      rintro ⟨-, hunmarked, -⟩
      apply hunmarked hmarked
    obtain ⟨j, v, pre, cur, nextCur, hpc, rfl⟩ := hI.marked a hmem hmarked
    rcases eq_or_ne j i with rfl | hne
    · have hlink := hI.current j
      have hok := hkept.ok
      rw [hpc] at hmoves hlink
      cases hmoves with
      | swung => cases hok.2 ha
      | swingFails hfails => cases hfails hlink
    · have hremoving : (l j).pc.removing = true := by
        rw [hpc]
        rfl
      cases hI.others hG ho hne hremoving
  · refine ⟨i, v, pre, cur, nextCur, ?_, rfl⟩
    rw [Function.update_self]
    rw [hpc] at hmoves
    cases hmoves with
    | marked => rfl
    | markFails hfails => cases hfails hcas

/-- What is being erased after a step is what the thread that took it is erasing. -/
theorem Overlap.erasing_all [DecidableEq ι] (hI : Overlap m l h xs) (hG : Apart ⟨m, l⟩ (i, ()))
    (ho : step m (l i) = some o) (w : T) :
  ((∀ j, (Function.update l i o.loc j).pc.erasing ≠ some w) ↔ o.loc.pc.erasing ≠ some w) ∧
    ((∀ j, (l j).pc.erasing ≠ some w) ↔ (l i).pc.erasing ≠ some w)
  := by
  have hothers : ∀ j ≠ i, (l j).pc.erasing ≠ some w := by
    intro j hj herasing
    apply hI.others hG ho hj (Pc.erasing_removing herasing)
  constructor
  · constructor
    · intro hall
      have := hall i
      rwa [Function.update_self] at this
    · intro hi j
      rcases eq_or_ne j i with rfl | hne
      · rwa [Function.update_self]
      · rw [Function.update_of_ne hne]
        apply hothers j hne
  · constructor
    · intro hall
      apply hall i
    · intro hi j
      rcases eq_or_ne j i with rfl | hne
      · apply hi
      · apply hothers j hne

/-- The set stays `T{}` with what the history makes, as far as it is not being erased. -/
theorem Overlap.set_all [DecidableEq ι] (hI : Overlap m l h xs) (hG : Apart ⟨m, l⟩ (i, ()))
    (ho : step m (l i) = some o) {xs' : List ℕ} (hkept : Kept m xs (l i).pc o.mem o.loc.pc xs')
    (w : T) :
  w ∈ Alive o.mem xs' ↔ w = default ∨ w ∈ replay (h ++ o.events.map (Prod.mk i)) ∧
    ∀ j, (Function.update l i o.loc j).pc.erasing ≠ some w
  := by
  have hset := hI.set w
  obtain ⟨hafter, hbefore⟩ := hI.erasing_all hG ho w
  rw [hbefore] at hset
  rw [hafter, hkept.set]
  cases set_step (ι := ι) ho with
  | silent heffect herasing hreplay =>
      rw [heffect, herasing, hreplay]
      exact hset
  | added v heffect herasing herasing' hreplay =>
      rw [heffect, herasing', hreplay, Effect.apply, Set.mem_insert_iff, Set.mem_insert_iff, hset]
      simp only [herasing, ne_eq, reduceCtorEq, not_false_eq_true, and_true]
      exact or_left_comm
  | erased v heffect hargument herasing herasing' hreplay =>
      have hv := hI.named i v hargument
      rw [heffect, herasing', hreplay, Effect.apply, Set.mem_sdiff, Set.mem_singleton_iff, hset]
      simp only [herasing, ne_eq, reduceCtorEq, not_false_eq_true, and_true, Option.some.injEq]
      grind
  | removed v heffect hremoving herasing herasing' hreplay =>
      rw [heffect, herasing', hreplay, Effect.apply, Set.mem_sdiff, Set.mem_singleton_iff, hset]
      simp only [herasing, ne_eq, reduceCtorEq, not_false_eq_true, and_true, Option.some.injEq]
      grind

/-- What is being erased is in the set the history makes. -/
theorem Overlap.erases_all [DecidableEq ι] (hI : Overlap m l h xs) (hG : Apart ⟨m, l⟩ (i, ()))
    (ho : step m (l i) = some o) {xs' : List ℕ} (hkept : Kept m xs (l i).pc o.mem o.loc.pc xs')
    (j : ι) (v : T) (hj : (Function.update l i o.loc j).pc.erasing = some v) :
  v ∈ replay (h ++ o.events.map (Prod.mk i))
  := by
  rcases eq_or_ne j i with rfl | hne
  · rw [Function.update_self] at hj
    cases set_step (ι := ι) ho with
    | silent heffect herasing hreplay =>
        rw [hreplay]
        apply hI.erases j v (herasing.symm.trans hj)
    | added _ _ _ herasing' =>
        rw [herasing'] at hj
        cases hj
    | erased w heffect hargument _ herasing' hreplay =>
        obtain rfl : w = v := Option.some.inj (herasing'.symm.trans hj)
        have hallowed := hkept.allowed
        rw [heffect] at hallowed
        rw [hreplay]
        exact (((hI.set w).mp hallowed).resolve_left (hI.named j w hargument)).1
    | removed _ _ _ _ herasing' =>
        rw [herasing'] at hj
        cases hj
  · rw [Function.update_of_ne hne] at hj
    cases hI.others hG ho hne (Pc.erasing_removing hj)

/-- An `add` that is about to return false has found its value in the set. -/
theorem Overlap.present_own (hI : Overlap m l h xs) (ho : step m (l i) = some o) {v : T}
    {newNode : Ptr} (hpc : o.loc.pc = .addDelete v newNode) :
  v ∈ replay (h ++ o.events.map (Prod.mk i))
  := by
  have hok := hI.inv.ok i
  have hheld := hI.held i
  have hnamed := hI.named i
  have hstraight := hI.straight i
  obtain ⟨-, hmoves⟩ := step_moves ho
  generalize (l i).pc = pc at *
  cases hmoves with
  | @findStop k w pre cur =>
      rw [Thread.goto_pc, Pc.found_of_unmarked (hstraight.1 cur (by simp [Pc.held]))] at hpc
      cases k <;> cases hpc
  | cleaned => cases hstraight.2
  | @addPresent w newNode' pre cur hcur hvalue hmark =>
      cases hpc
      have hseen := (hok.2.2.1.resolve_left (Ptr.addr_ne_zero hmark hcur)).1
      have hunmarked := hheld cur (by simp [Pc.held])
      have halive : v ∈ Alive m xs := ⟨_, hseen.resolve_right hunmarked, hvalue, hunmarked⟩
      rw [List.map_nil, replay_silent]
      exact (((hI.set v).mp halive).resolve_left (hnamed v rfl)).1
  | _ => cases hpc

/-- An `add` that is about to return false keeps its value in the set. -/
theorem Overlap.present_all [DecidableEq ι] (hI : Overlap m l h xs) (hG : Apart ⟨m, l⟩ (i, ()))
    (ho : step m (l i) = some o) (j : ι) (v : T) (newNode : Ptr)
    (hj : (Function.update l i o.loc j).pc = .addDelete v newNode) :
  v ∈ replay (h ++ o.events.map (Prod.mk i))
  := by
  rcases eq_or_ne j i with rfl | hne
  · rw [Function.update_self] at hj
    apply hI.present_own ho hj
  · rw [Function.update_of_ne hne] at hj
    have hpresent := hI.present j v newNode hj
    cases set_step (ι := ι) ho with
    | silent _ _ hreplay | erased _ _ _ _ _ hreplay =>
        rw [hreplay]
        apply hpresent
    | added w _ _ _ hreplay =>
        rw [hreplay]
        apply Set.mem_insert_of_mem w hpresent
    | removed _ _ hremoving =>
        rw [hI.alone i hremoving j hne] at hj
        cases hj

/-- The tail sentinel is not removed. -/
theorem Overlap.tail_unmarked (hI : Overlap m l h xs) (ho : step m (l i) = some o) :
  ¬ o.mem.Marked m.tail.addr
  := by
  intro hmarked
  have hok := hI.inv.ok i
  rcases marked_step ho hok (hI.straight i) hmarked with
    hmarked | ⟨v, pre, cur, nextCur, hpc, -, ha⟩
  · apply hI.tailUnmarked hmarked
  · have hv : (l i).pc.argument = some v := by
      rw [hpc]
      rfl
    rw [hpc] at hok
    apply hI.named i v hv
    rw [← hok.2.2.1, ← ha, hI.tailValue]

/-- The values of updates are not `T{}`. -/
theorem Overlap.named_all [DecidableEq ι] (hI : Overlap m l h xs) (hG : Apart ⟨m, l⟩ (i, ()))
    (ho : step m (l i) = some o) (j : ι) (v : T)
    (hj : (Function.update l i o.loc j).pc.argument = some v) :
  v ≠ default
  := by
  rcases eq_or_ne j i with rfl | hne
  · rw [Function.update_self] at hj
    rcases argument_step ho hj with hargument | ⟨hidle, c, hc, rfl⟩
    · apply hI.named j v hargument
    · have hbetween : (l j).pc.between = true := by
        rw [hidle]
        rfl
      apply (hG hbetween c hc).1
  · rw [Function.update_of_ne hne] at hj
    apply hI.named j v hj

/-- Every step keeps the invariant. -/
theorem Overlap.step [DecidableEq ι] (hI : Overlap m l h xs) (hG : Apart ⟨m, l⟩ (i, ()))
    (ho : LockFreeList.step m (l i) = some o) :
  ∃ xs', Overlap o.mem (Function.update l i o.loc) (h ++ o.events.map (Prod.mk i)) xs'
  := by
  have hS := hI.inv.shape
  obtain ⟨xs', hinv, hkept⟩ := hI.inv.step (hI.straight i).careful ho
  have htail := tail_step ho
  refine ⟨xs', hinv, ?_, hI.held_all hG ho, ?_, hI.alone_all hG ho,
    fun a => hI.marked_all hG ho hkept, ?_, hI.named_all hG ho, ?_, ?_, ?_,
    hI.set_all hG ho hkept, hI.erases_all hG ho hkept, hI.present_all hG ho⟩
  · intro j
    rcases eq_or_ne j i with rfl | hne
    · rw [Function.update_self]
      apply straight_step ho (hI.straight j) hI.headPtr
      intro q hq
      apply (hI.load hq).1
    · rw [Function.update_of_ne hne]
      apply hI.straight j
  · rw [hkept.later.head]
    apply hI.headPtr
  · intro j
    rcases eq_or_ne j i with rfl | hne
    · rw [Function.update_self]
      apply current_step ho hS (hI.inv.ok j) (hI.straight j) (hI.current j)
    · rw [Function.update_of_ne hne]
      apply Pc.current_of_not_removing (hI.others hG ho hne)
  · rw [htail]
    apply (hkept.later.seen _ (.inl hI.tailIn)).resolve_right (hI.tail_unmarked ho)
  · rw [htail]
    apply hI.tail_unmarked ho
  · rw [htail, hkept.later.value]
    · apply hI.tailValue
    · apply hS.inHeap _ (List.mem_cons_of_mem _ hI.tailIn)

end Keep

/-! ### Overlapping adds -/

variable [DecidableEq ι]

theorem reachable_overlap {h : List (ι × Event T)} {s : Global ι (Mem T) (Thread T)}
    (hs : (list ι T).Reachable Apart h s) :
  ∃ xs, Overlap s.mem s.loc h xs
  := by
  apply threads_invariant (I := fun m l h => ∃ xs, Overlap m l h xs) _ _ hs
  · rintro m l ⟨rfl, hl⟩
    have hquiet : Quiet (Mem.new : Mem T) [2] := Quiet.new
    refine ⟨[2], Inv.new hl, ?_, ?_, rfl, ?_, ?_, ?_, ?_, hquiet.tailIn, ?_, rfl, ?_, ?_, ?_⟩
    · intro i
      rw [hl i]
      exact ⟨List.forall_mem_nil _, trivial⟩
    · simp [hl, Pc.held]
    · simp [hl, Pc.removing]
    · intro a ha hmarked
      cases hquiet.unmarked a ha hmarked
    · simp [hl, Pc.Current]
    · simp [hl, Pc.argument]
    · apply hquiet.unmarked _ hquiet.tailIn
    · simp [hl, alive_new, replay, Pc.erasing]
    · simp [hl, Pc.erasing]
    · simp [hl]
  · rintro m l h i _ o ⟨xs, hI⟩ hG ho
    apply hI.step hG ho

section Returns

variable {m : Mem T} {l : ι → Thread T} {h : List (ι × Event T)} {xs : List ℕ} {i : ι}
  {o : Outcome (Mem T) (Thread T) (Event T)}

omit [DecidableEq ι] in
/-- A `remove` that has not found its value answers for a set without it. -/
theorem Overlap.absent (hI : Overlap m l h xs) {v : T} {pre cur : Ptr}
    (hpc : (l i).pc = .removeTest v pre cur) (habsent : cur = .null ∨ m.value cur.addr ≠ v) :
  v ∉ replay h
  := by
  have hok := hI.inv.ok i
  have hheld := hI.held i
  have hstraight := (hI.straight i).1
  have hlink := hI.current i
  have halone := hI.alone i
  rw [hpc] at hok hheld hstraight hlink halone
  have hpre : pre ∈ [pre, cur] := by simp
  have hcur : cur ∈ [pre, cur] := by simp
  have hafter : cur = .null ∨ cur.addr ∈ xs ∧ v ≤ m.value cur.addr := by
    apply hok.2.1.imp
    · apply Ptr.eq_null hok.2.2
    · rintro ⟨hseen, hle⟩
      exact ⟨hseen.resolve_right (hheld cur hcur), hle⟩
  have hfound : Found m xs v pre cur :=
    ⟨hstraight pre hpre, hok.1.inChain (hheld pre hpre), hlink, hok.2.2, hafter⟩
  intro hv
  have hnone : ∀ j, (l j).pc.erasing ≠ some v := by
    intro j
    rcases eq_or_ne j i with rfl | hne
    · rw [hpc]
      rintro ⟨⟩
    · rw [halone rfl j hne]
      rintro ⟨⟩
  obtain ⟨a, ha, hvalue, -⟩ := (hI.set v).mpr (.inr ⟨hv, hnone⟩)
  apply hfound.absent hI.inv.shape habsent a ha hvalue

omit [DecidableEq ι] in
/-- What a call answers is right for the set the history makes. -/
theorem Overlap.returns (hI : Overlap m l h xs) (ho : LockFreeList.step m (l i) = some o) (v : T) :
  (.returned (.add v) false ∈ o.events → v ∈ replay h) ∧
    ∀ b, .returned (.remove v) b ∈ o.events → (b = true ↔ v ∈ replay h)
  := by
  have hpresent := hI.present i
  have habsent : ∀ {v pre cur}, (l i).pc = .removeTest v pre cur → _ := hI.absent
  have herases := hI.erases i
  obtain ⟨-, hmoves⟩ := step_moves ho
  generalize (l i).pc = pc at *
  constructor
  · intro hevent
    cases hmoves with
    | addDelete =>
        cases List.mem_singleton.mp hevent
        apply hpresent _ _ rfl
    | added | removeAbsent | swingFails | removeDelete | containsAbsent | containsMark =>
        cases List.mem_singleton.mp hevent
    | _ => cases hevent
  · intro b hevent
    cases hmoves with
    | removeAbsent hnot =>
        cases List.mem_singleton.mp hevent
        apply iff_of_false Bool.false_ne_true (habsent rfl hnot)
    | swingFails | removeDelete =>
        cases List.mem_singleton.mp hevent
        apply iff_of_true rfl (herases _ rfl)
    | addDelete | added | containsAbsent | containsMark => cases List.mem_singleton.mp hevent
    | _ => cases hevent

end Returns

/-- While no `remove` is in progress the chain from `head` ends in null, no link in it is
marked, its values behind `head` ascend strictly, and they are that of the tail sentinel and
the set that the history makes.  An `add` returns false only if its value is in that set, and a
`remove` returns true exactly if its value is. -/
theorem overlapping_adds {h : List (ι × Event T)} {s : Global ι (Mem T) (Thread T)}
    (hs : (list ι T).Reachable Apart h s) :
  ((∀ i, ¬ (s.loc i).pc.removing) → ∃ xs,
      Linked 0 s.mem.succ s.mem.head.addr (s.mem.head.addr :: xs) ∧
        (∀ a ∈ s.mem.head.addr :: xs, ¬ s.mem.Marked a) ∧
        xs.Pairwise (fun a b => s.mem.value a < s.mem.value b) ∧
        s.mem.tail.addr ∈ xs ∧ s.mem.value s.mem.tail.addr = default ∧
        {v | ∃ a ∈ xs, s.mem.value a = v} = insert default (replay h)) ∧
    ∀ a s' e, (list ι T).next s a = some (s', e) →
      (∀ i v, (i, .returned (.add v) false) ∈ e → v ∈ replay h) ∧
        ∀ i v b, (i, .returned (.remove v) b) ∈ e → (b = true ↔ v ∈ replay h)
  := by
  obtain ⟨xs, hI⟩ := reachable_overlap hs
  constructor
  · intro hcalm
    have hunmarked : ∀ a ∈ xs, ¬ s.mem.Marked a := by
      intro a ha hmarked
      obtain ⟨i, v, pre, cur, nextCur, hpc, -⟩ := hI.marked a ha hmarked
      apply hcalm i
      rw [hpc]
      rfl
    refine ⟨xs, hI.inv.shape.linked, ?_, hI.inv.shape.sorted, hI.tailIn, hI.tailValue, ?_⟩
    · exact List.forall_mem_cons.mpr ⟨hI.inv.shape.headUnmarked, hunmarked⟩
    · ext v
      have hset := hI.set v
      have hnone : ∀ i, (s.loc i).pc.erasing ≠ some v := by
        intro i herasing
        apply hcalm i (Pc.erasing_removing herasing)
      simp only [hnone, ne_eq, not_false_eq_true, implies_true, and_true] at hset
      rw [Set.mem_insert_iff, ← hset]
      constructor
      · rintro ⟨a, ha, hvalue⟩
        exact ⟨a, ha, hvalue, hunmarked a ha⟩
      · rintro ⟨a, ha, hvalue, -⟩
        exact ⟨a, ha, hvalue⟩
  · rintro ⟨i, c⟩ s' e hnext
    obtain ⟨o, ho, -, rfl⟩ := threads_next.mp hnext
    constructor
    · intro j v hevent
      obtain ⟨ev, hev, heq⟩ := List.mem_map.mp hevent
      cases heq
      apply (hI.returns ho v).1 hev
    · intro j v b hevent
      obtain ⟨ev, hev, heq⟩ := List.mem_map.mp hevent
      cases heq
      apply (hI.returns ho v).2 b hev

/-- Thread `1` adds `20` while thread `0` is adding `10`, which thread `0` then removes. -/
theorem overlapping_adds_twenty :
  ∃ (h : List (Fin 2 × Event ℤ)) (s : Global (Fin 2) (Mem ℤ) (Thread ℤ)),
    (list (Fin 2) ℤ).Reachable Apart h s ∧ h = [(1, .returned (.add 20) true),
      (0, .returned (.add 10) true), (0, .returned (.remove 10) true)] ∧
    ∃ xs, Linked 0 s.mem.succ s.mem.head.addr (s.mem.head.addr :: xs) ∧
      {v | ∃ a ∈ xs, s.mem.value a = v} = insert default (replay h)
  := by
  have hinit : (list (Fin 2) ℤ).Initial
      ⟨Mem.new, fun i => ⟨if i = 0 then [.add 10, .remove 10] else [.add 20], .idle⟩⟩ :=
    ⟨rfl, fun _ => rfl⟩
  have hrun : ∃ h s, (list (Fin 2) ℤ).Reachable Apart h s ∧
      h = [(1, .returned (.add 20) true), (0, .returned (.add 10) true),
        (0, .returned (.remove 10) true)] ∧ ∀ i, (s.loc i).pc.removing = false := by
    refine ⟨_, _, Machine.exec_reachable (G := Apart)
      (List.replicate 9 (0, ()) ++ List.replicate 10 (1, ()) ++ List.replicate 20 (0, ()))
      hinit rfl, rfl, ?_⟩
    intro i
    match i with
    | 0 | 1 => rfl
  obtain ⟨h, s, hs, hh, hcalm⟩ := hrun
  have hnone : ∀ i, ¬ (s.loc i).pc.removing := by
    intro i
    rw [hcalm i]
    apply Bool.false_ne_true
  obtain ⟨xs, hlinked, -, -, -, -, hvalues⟩ := (overlapping_adds hs).1 hnone
  exact ⟨h, s, hs, hh, xs, hlinked, hvalues⟩

end LockFreeList

import Mathlib.Tactic.SplitIfs
import ParallelArch.Queue.BoundedFifo
import ParallelArch.Queue.NonBlocking

/-!
# The queues used by one thread

In the non-blocking queue the test on `dif` decides a call: if the slot of its ticket is
ready the call completes, otherwise it spins for ever, since nobody else moves.  What the
calls return is then a function of the fields of the queue.

The blocking queue answers as an ideal queue of its capacity does.
-/

namespace NonBlockingQueue

variable {T : Type*} (W : SizeT) (c : ℕ)

/-- The slot of the next add is free. -/
def Mem.AddReady (m : Mem T) : Prop := W.dif (m.buffer (m.tail % c)).seq m.tail = 0

/-- The slot of the next remove is filled. -/
def Mem.RemoveReady (m : Mem T) : Prop :=
  W.dif (m.buffer (m.head % c)).seq (W.wrap (m.head + 1)) = 0

instance (m : Mem T) : Decidable (m.AddReady W c) := inferInstanceAs (Decidable (_ = _))

instance (m : Mem T) : Decidable (m.RemoveReady W c) := inferInstanceAs (Decidable (_ = _))

/-- The effect of a completed `add`. -/
def Mem.push (m : Mem T) (item : T) : Mem T :=
  ({ m with tail := W.wrap (m.tail + 1) }.storeData (m.tail % c) item).storeSeq (m.tail % c)
    (W.wrap (m.tail + 1))

/-- The effect of a completed `remove`. -/
def Mem.pop (m : Mem T) : Mem T :=
  { m with head := W.wrap (m.head + 1) }.storeSeq (m.head % c) (W.wrap (m.head + c))

/-- What the queue answers to a sequence of calls by one thread: nothing to an add, an item
to a remove.  The first call that spins for ever ends the sequence. -/
def answers : Mem T → List (QueueCall T) → List (Option T)
  | _, [] => []
  | m, .add item :: calls =>
      if m.AddReady W c then none :: answers (m.push W c item) calls else []
  | m, .remove :: calls =>
      if m.RemoveReady W c then
        some (m.buffer (m.head % c)).data :: answers (m.pop W c) calls
      else []

/-- The answer an event shows. -/
def answer : Unit × Event T → Option (Option T)
  | (_, .addReturned _) => some none
  | (_, .removeReturned _ out) => some (some out)
  | _ => none

/-- What a thread in the state `t` has still to answer. -/
def Thread.left (m : Mem T) (t : Thread T) : List (Option T) :=
  match t.pc with
  | .idle => answers W c m t.todo
  | .addLoadTail item | .addLoadSeq item _ | .addCas item _ | .addFull item _
  | .addRetry item _ => answers W c m (.add item :: t.todo)
  | .addWrite item pos =>
      none :: answers W c ((m.storeData (pos % c) item).storeSeq (pos % c) (W.wrap (pos + 1)))
        t.todo
  | .addPublish _ pos =>
      none :: answers W c (m.storeSeq (pos % c) (W.wrap (pos + 1))) t.todo
  | .removeLoadHead | .removeLoadSeq _ | .removeCas _ | .removeEmpty _ | .removeRetry _ =>
      answers W c m (.remove :: t.todo)
  | .removeRead pos =>
      some (m.buffer (pos % c)).data ::
        answers W c (m.storeSeq (pos % c) (W.wrap (pos + c))) t.todo
  | .removeRelease pos out =>
      some out :: answers W c (m.storeSeq (pos % c) (W.wrap (pos + c))) t.todo

/-- The ticket a thread has read is the next one, and what it has found out about its slot
holds. -/
def Pc.Current (m : Mem T) : Pc T → Prop
  | .addLoadSeq _ pos => pos = m.tail
  | .addCas _ pos => pos = m.tail ∧ m.AddReady W c
  | .removeLoadSeq pos => pos = m.head
  | .removeCas pos => pos = m.head ∧ m.RemoveReady W c
  | _ => True

variable {W c} {m : Mem T} {t : Thread T}

/-- A step answers the next part of what is left to answer. -/
theorem left_step {spurious : Bool} {o : Outcome (Mem T) (Thread T) (Event T)}
    (hcurrent : t.pc.Current W c m) (ho : step W c m t spurious = some o) :
  o.loc.pc.Current W c o.mem ∧
    t.left W c m = (o.events.map (Prod.mk ())).filterMap answer ++ o.loc.left W c o.mem
  := by
  unfold Thread.left
  cases step_moves ho with
  | beginAdd hpc htodo | beginRemove hpc htodo =>
      use trivial
      rw [hpc]
      exact congrArg (answers W c m) htodo
  | addLoadTail hpc | removeLoadHead hpc =>
      use rfl
      rw [hpc]
      rfl
  | addReady hpc hdif | removeReady hpc hdif =>
      rw [hpc] at hcurrent
      obtain rfl := hcurrent
      use ⟨rfl, hdif⟩
      rw [hpc]
      rfl
  | addWins hpc | removeWins hpc =>
      rw [hpc] at hcurrent
      obtain ⟨rfl, hready⟩ := hcurrent
      use trivial
      rw [hpc]
      exact if_pos hready
  | _ hpc =>
      use trivial
      rw [hpc]
      rfl

/-- An `add` that finds its slot free completes. -/
theorem solo_add {ι : Type*} {i : ι} (hready : m.AddReady W c) (item : T)
    (todo : List (QueueCall T)) (spins : ℕ) :
  solo (fun _ : ι => step W c) i (List.replicate 6 false) m
    ⟨.add item :: todo, .idle, spins⟩
    = some { mem := m.push W c item, loc := ⟨todo, .idle, spins⟩,
             events := [.addWon m.tail item, .addReturned m.tail] }
  := by
  have hdif : W.dif (m.buffer (m.tail % c)).seq m.tail = 0 := hready
  simp [solo, step, Thread.goto, hdif, Mem.push]

/-- A `remove` that finds its slot filled completes. -/
theorem solo_remove {ι : Type*} {i : ι} (hready : m.RemoveReady W c)
    (todo : List (QueueCall T)) (spins : ℕ) :
  solo (fun _ : ι => step W c) i (List.replicate 6 false) m
    ⟨.remove :: todo, .idle, spins⟩
    = some { mem := m.pop W c, loc := ⟨todo, .idle, spins⟩,
             events := [.removeWon m.head,
               .removeReturned m.head (m.buffer (m.head % c)).data] }
  := by
  have hdif : W.dif (m.buffer (m.head % c)).seq (W.wrap (m.head + 1)) = 0 := hready
  simp [solo, step, Thread.goto, hdif, Mem.pop]

/-- One thread is given the prefixes of `answers`. -/
theorem traces_eq [Inhabited T] (m : Mem T) (calls : List (QueueCall T)) (spins : ℕ) :
  (queue Unit W c).Traces answer ⟨m, fun _ => ⟨calls, .idle, spins⟩⟩
    = {as | as <+: answers W c m calls}
  := by
  ext as
  constructor
  · apply alone_prefix (J := fun m t as => t.pc.Current W c m ∧ t.left W c m = as)
    · rintro m t _ spurious o ⟨hcurrent, rfl⟩ ho
      obtain ⟨hcurrent', hleft⟩ := left_step hcurrent ho
      exact ⟨_, ⟨hcurrent', rfl⟩, hleft⟩
    · exact ⟨trivial, rfl⟩
  · apply prefix_alone (J := fun m t as => t.pc = .idle ∧ answers W c m t.todo = as)
    · rintro m ⟨calls, _, spins⟩ a as ⟨rfl, hleft⟩
      rcases calls with _ | ⟨item | _, calls⟩
      · cases hleft
      · rw [answers] at hleft
        split_ifs at hleft with hready
        obtain ⟨rfl, rfl⟩ := List.cons.inj hleft
        exact ⟨_, _, solo_add hready item calls spins, rfl, rfl, rfl⟩
      · rw [answers] at hleft
        split_ifs at hleft with hready
        obtain ⟨rfl, rfl⟩ := List.cons.inj hleft
        exact ⟨_, _, solo_remove hready calls spins, rfl, rfl, rfl⟩
    · exact ⟨rfl, rfl⟩

end NonBlockingQueue

namespace BlockingQueue

variable {T : Type*} {c : ℕ}

/-- The answer an event shows. -/
def answer : Unit × Event T → Option (Option T)
  | (_, .addReturned) => some none
  | (_, .removeReturned out) => some (some out)
  | _ => none

/-- What a thread has still to answer when the queue holds `q`. -/
def Thread.left (c : ℕ) (q : List T) (t : Thread T) : List (Option T) :=
  match t.pc with
  | .idle => QueueCall.answers c q t.todo
  | .addLock item | .addTest item | .addWait item | .addAsleep item =>
      QueueCall.answers c q (.add item :: t.todo)
  | .addWrite item | .addIndex item | .addIncr item =>
      none :: QueueCall.answers c (q ++ [item]) t.todo
  | .addNotify | .addUnlock => none :: QueueCall.answers c q t.todo
  | .removeLock | .removeTest | .removeWait | .removeAsleep | .removeRead | .removeIndex _
  | .removeDecr _ => QueueCall.answers c q (.remove :: t.todo)
  | .removeNotify out | .removeUnlock out => some out :: QueueCall.answers c q t.todo

variable {m : Mem Unit T} {t : Thread T} {A R : List T}

/-- A step answers the next part of what is left to answer. -/
theorem left_step {choice : Choice Unit} {o : Outcome (Mem Unit T) (Thread T) (Event T)}
    (hI : Inv c m (fun _ => t) A R) (ho : step c () m t choice = some o) :
  t.left c (A.drop R.length) = (o.events.map (Prod.mk ())).filterMap answer ++
    o.loc.left c ((A ++ added (o.events.map (Prod.mk ()))).drop
      (R ++ removed (o.events.map (Prod.mk ()))).length)
  := by
  have hsize := hI.size
  have hr := hI.remove ()
  unfold Thread.left
  cases step_moves ho with
  | beginAdd hpc htodo | beginRemove hpc htodo =>
      rw [hpc]
      simp [htodo, added, removed]
  | addRoom hpc hroom =>
      have hlen : A.length - R.length < c := by omega
      rw [hpc]
      simp [added, removed, QueueCall.answers, hlen]
  | @addIncr item hpc =>
      have hle : R.length ≤ A.length := by omega
      have hdrop : (A ++ [item]).drop R.length = A.drop R.length ++ [item] :=
        List.drop_append_of_le_length hle
      rw [hpc]
      simp [added, removed, answer, hdrop]
  | @removeDecr out hpc =>
      rw [hpc] at hr
      obtain ⟨hlt, hout⟩ := List.getElem?_eq_some_iff.mp hr.2.2
      have hdrop : A.drop R.length = out :: A.drop (R.length + 1) := by
        rw [← hout]
        apply List.drop_eq_getElem_cons
      rw [hpc]
      simp [added, removed, answer, hdrop, QueueCall.answers]
  | _ hpc =>
      rw [hpc]
      simp [added, removed, answer]

/-- An `add` that finds room completes. -/
theorem solo_add (htail : m.tailMutex = none) (hempty : m.notEmpty = ∅) (hroom : m.size < c)
    (item : T) (todo : List (QueueCall T)) :
  solo (step c) () (List.replicate 8 .go) m ⟨.add item :: todo, .idle⟩
    = some { mem := { m with
                      buffer := Function.update m.buffer m.tail item
                      tail := SizeT.bits64.wrap (m.tail + 1) % c
                      size := SizeT.bits64.wrap (m.size + 1)
                      tailMutex := none },
             loc := ⟨todo, .idle⟩, events := [.added item, .addReturned] }
  := by
  simp [solo, step, Thread.goto, htail, hempty, hroom]

/-- A `remove` that finds an item completes. -/
theorem solo_remove (hhead : m.headMutex = none) (hfull : m.notFull = ∅) (hitem : 0 < m.size)
    (todo : List (QueueCall T)) :
  solo (step c) () (List.replicate 8 .go) m ⟨.remove :: todo, .idle⟩
    = some { mem := { m with
                      head := SizeT.bits64.wrap (m.head + 1) % c
                      size := SizeT.bits64.wrap (m.size + (2 ^ 64 - 1))
                      headMutex := none },
             loc := ⟨todo, .idle⟩,
             events := [.removed (m.buffer m.head), .removeReturned (m.buffer m.head)] }
  := by
  simp [solo, step, Thread.goto, hhead, hfull, hitem]

/-- Between two calls nobody holds a mutex or waits. -/
structure Quiet (m : Mem Unit T) (t : Thread T) : Prop where
  idle : t.pc = .idle
  headMutex : m.headMutex = none
  tailMutex : m.tailMutex = none
  notEmpty : m.notEmpty = ∅
  notFull : m.notFull = ∅

theorem solo_inv {c : ℕ} (hc : 0 < c) (hc' : c < 2 ^ 64) {cs : List (Choice Unit)}
    {o : Outcome (Mem Unit T) (Thread T) (Event T)} (hI : Inv c m (fun _ => t) A R)
    (ho : solo (step c) () cs m t = some o) :
  Inv c o.mem (fun _ => o.loc) (A ++ added (o.events.map (Prod.mk ())))
    (R ++ removed (o.events.map (Prod.mk ())))
  := by
  apply solo_keeps (I := fun m t h => Inv c m (fun _ => t) (A ++ added (h.map (Prod.mk ())))
    (R ++ removed (h.map (Prod.mk ())))) (h := []) _ _ ho
  · intro m t h choice o hI ho
    have hI' := step_keeps hc hc' hI ho
    rw [update_unit, List.append_assoc, List.append_assoc, ← added_append, ← removed_append,
      ← List.map_append] at hI'
    apply hI'
  · simpa [added, removed] using hI

/-- One thread is given the prefixes of what an ideal queue answers. -/
theorem traces_eq [Inhabited T] (hc : 0 < c) (hc' : c < 2 ^ 64) (calls : List (QueueCall T)) :
  (queue Unit c).Traces answer ⟨Mem.new, fun _ => ⟨calls, .idle⟩⟩
    = {as | as <+: QueueCall.answers c [] calls}
  := by
  ext as
  constructor
  · apply alone_prefix (J := fun m t as => ∃ A R, Inv c m (fun _ => t) A R ∧
      t.left c (A.drop R.length) = as)
    · rintro m t _ choice o ⟨A, R, hI, rfl⟩ ho
      have hI' := step_keeps hc hc' hI ho
      rw [update_unit] at hI'
      exact ⟨_, ⟨_, _, hI', rfl⟩, left_step hI ho⟩
    · exact ⟨[], [], Inv.new fun _ => rfl, rfl⟩
  · apply prefix_alone (J := fun m t as => Quiet m t ∧ ∃ A R, Inv c m (fun _ => t) A R ∧
      QueueCall.answers c (A.drop R.length) t.todo = as)
    · rintro m ⟨calls, _⟩ a as ⟨⟨rfl, hhead, htail, hempty, hfull⟩, A, R, hI, hleft⟩
      have hsize := hI.size
      rcases calls with _ | ⟨item | _, calls⟩
      · rw [QueueCall.answers] at hleft
        cases hleft
      · rw [QueueCall.answers] at hleft
        split_ifs at hleft with hlen
        obtain ⟨rfl, rfl⟩ := List.cons.inj hleft
        have hroom : m.size < c := by
          rw [List.length_drop] at hlen
          omega
        have hsolo := solo_add htail hempty hroom item calls
        have hI' := solo_inv hc hc' hI hsolo
        refine ⟨_, _, hsolo, rfl, ⟨rfl, hhead, rfl, hempty, hfull⟩, _, _, hI', ?_⟩
        have hle : R.length ≤ A.length := by omega
        simp [added, removed, List.drop_append_of_le_length hle]
      · cases hdrop : A.drop R.length with
        | nil =>
            rw [hdrop, QueueCall.answers] at hleft
            cases hleft
        | cons out q =>
            rw [hdrop, QueueCall.answers] at hleft
            obtain ⟨rfl, rfl⟩ := List.cons.inj hleft
            have hlt : R.length < A.length := by
              by_contra hle
              rw [List.drop_eq_nil_of_le (not_lt.mp hle)] at hdrop
              cases hdrop
            rw [List.drop_eq_getElem_cons hlt] at hdrop
            obtain ⟨hget, hrest⟩ := List.cons.inj hdrop
            have hout : m.buffer m.head = out := by
              have hbuffer := hI.buffer _ le_rfl hlt
              rw [List.getElem?_eq_getElem hlt, hget, ← hI.head hhead] at hbuffer
              exact (Option.some.inj hbuffer).symm
            have hitem : 0 < m.size := by omega
            have hsolo := solo_remove (c := c) hhead hfull hitem calls
            have hI' := solo_inv hc hc' hI hsolo
            refine ⟨_, _, hsolo, ?_, ⟨rfl, rfl, htail, hempty, hfull⟩, _, _, hI', ?_⟩
            · rw [hout]
              rfl
            · simp [added, removed, hrest]
    · refine ⟨⟨rfl, rfl, rfl, rfl, rfl⟩, [], [], Inv.new fun _ => rfl, rfl⟩

end BlockingQueue

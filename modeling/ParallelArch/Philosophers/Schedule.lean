import ParallelArch.Philosophers.Lifetime
import ParallelArch.Philosophers.Seats

/-!
# No dead end in versions 3 and 4

From every reachable state the philosophers can be scheduled to a state in which none holds a
mutex, a seat or a chopstick: whoever is under a mutex first leaves its section, then whoever
has its chopsticks eats and gives them back, and then each philosopher that has a seat finds
both its chopsticks free.  A rank that all this lowers bounds the schedule (`Pc.rank`).  From
there each philosopher can eat alone, or return when `exit_flag` is set.

`main` creates the threads and may set `exit_flag`; it does not come to destroy the mutexes.
-/

namespace Version4

variable {n : ℕ}

/-! ### The runs -/

/-- The runs in which all threads are created and `main` does not destroy the mutexes. -/
def Serves (s : Global (Party n) (Mem n) Pc) (a : Party n × Choice) : Prop :=
  a ≠ (none, .fail) ∧ (a.1 = none → ¬ (s.loc none).destroying)

/-- The runs of the philosophers alone. -/
def Dining (_ : Global (Party n) (Mem n) Pc) (a : Party n × Choice) : Prop :=
  a.1 ≠ none

/-- What the runs keep: mutexes and process are alive, `main` has created as many threads as it
has counted, and no philosopher returns before `exit_flag` is set. -/
structure Serving (m : Mem n) (l : Party n → Pc) : Prop where
  wait : m.waitMutex.destroyed = false
  table : m.mutex.destroyed = false
  running : m.exited = false
  away : ∀ tid : Fin n, ¬ (l (some tid)).inMain
  creating : ∀ k, l none = .create k → m.created = k ∧ k ≤ n ∧ m.exitFlag = false
  created : (∀ k, l none ≠ .create k) → m.created = n
  stays : m.exitFlag = false → ∀ tid : Fin n, l (some tid) ≠ .done

section Keep

variable {m : Mem n} {l : Party n → Pc}

/-- A philosopher leaves flags and threads to `main`, and returns only when `exit_flag` is
set. -/
theorem thinkingAndEating_keeps {tid : Fin n} {pc : Pc} {o : Outcome (Mem n) Pc Event}
    (ho : thinkingAndEating tid m pc = some o) :
  o.mem.exitFlag = m.exitFlag ∧ o.mem.created = m.created ∧ o.mem.exited = m.exited ∧
    ¬ o.loc.inMain ∧ (m.exitFlag = false → o.loc ≠ .done)
  := by
  cases thinkingAndEating_moves ho with
  | leave hflag =>
      refine ⟨rfl, rfl, rfl, id, ?_⟩
      intro hunset
      rw [hflag] at hunset
      cases hunset
  | _ =>
      refine ⟨rfl, rfl, rfl, id, ?_⟩
      rintro - ⟨⟩

/-- Every step of a philosopher keeps the service. -/
theorem Serving.philosopher (h : Serving m l) {tid : Fin n} {o : Outcome (Mem n) Pc Event}
    (ho : thinkingAndEating tid m (l (some tid)) = some o) :
  Serving o.mem (Function.update l (some tid) o.loc)
  := by
  obtain ⟨-, -, hwait, htable⟩ := thinkingAndEating_frame ho
  obtain ⟨hflag, hcreated, hrun, haway, hstays⟩ := thinkingAndEating_keeps ho
  have hmain : Function.update l (some tid) o.loc none = l none := by
    rw [Function.update_of_ne]
    rintro ⟨⟩
  constructor
  · apply hwait h.wait
  · apply htable h.table
  · rw [hrun]
    apply h.running
  · intro tid'
    rcases eq_or_ne tid' tid with rfl | hne
    · rwa [Function.update_self]
    · rw [Function.update_of_ne (by simpa using hne)]
      apply h.away
  · rw [hmain, hflag, hcreated]
    apply h.creating
  · rw [hmain, hcreated]
    apply h.created
  · rw [hflag]
    intro hunset tid'
    rcases eq_or_ne tid' tid with rfl | hne
    · rw [Function.update_self]
      apply hstays hunset
    · rw [Function.update_of_ne (by simpa using hne)]
      apply h.stays hunset

/-- `main` moves. -/
theorem Serving.main_move (h : Serving m l) {m' : Mem n} {pc : Pc}
    (hwait : m'.waitMutex = m.waitMutex) (htable : m'.mutex = m.mutex)
    (hrun : m'.exited = m.exited)
    (hcreating : ∀ k, pc = .create k → m'.created = k ∧ k ≤ n ∧ m'.exitFlag = false)
    (hcreated : (∀ k, pc ≠ .create k) → m'.created = n)
    (hflag : m'.exitFlag = false → m.exitFlag = false) :
  Serving m' (Function.update l none pc)
  := by
  constructor
  · rw [hwait]
    apply h.wait
  · rw [htable]
    apply h.table
  · rw [hrun]
    apply h.running
  · intro tid
    rw [Function.update_of_ne (by simp)]
    apply h.away
  · rwa [Function.update_self]
  · rwa [Function.update_self]
  · intro hunset tid
    rw [Function.update_of_ne (by simp)]
    apply h.stays (hflag hunset)

/-- Every step of `main` keeps the service. -/
theorem Serving.main (h : Serving m l) {choice : Choice} {o : Outcome (Mem n) Pc Event}
    (hchoice : choice ≠ .fail) (hcalm : ¬ (l none).destroying)
    (ho : Version4.main m (l none) choice = some o) :
  Serving o.mem (Function.update l none o.loc)
  := by
  have hcreating := h.creating
  have hcreated := h.created
  generalize l none = pc at *
  cases pc with
  | create i =>
      obtain ⟨hi, hle, hflag⟩ := hcreating i rfl
      simp only [Version4.main] at ho
      split_ifs at ho with hlt
      · have hnext : ∀ k, Pc.create (i + 1) = .create k → i + 1 = k ∧ k ≤ n ∧
            m.exitFlag = false := by
          rintro _ ⟨⟩
          exact ⟨rfl, hlt, hflag⟩
        cases choice with
        | fail => cases hchoice rfl
        | go | quit =>
            cases ho
            exact h.main_move rfl rfl rfl hnext (fun hk => absurd rfl (hk _)) id
      · cases ho
        have hall : m.created = n := by omega
        exact h.main_move rfl rfl rfl (by rintro _ ⟨⟩) (fun _ => hall) id
  | read =>
      have hall := hcreated (by rintro _ ⟨⟩)
      cases choice <;> cases ho <;>
        exact h.main_move rfl rfl rfl (by rintro _ ⟨⟩) (fun _ => hall) id
  | exitSet =>
      have hall := hcreated (by rintro _ ⟨⟩)
      cases ho
      exact h.main_move rfl rfl rfl (by rintro _ ⟨⟩) (fun _ => hall) (by rintro ⟨⟩)
  | exitLock | exitUnlock =>
      have hall := hcreated (by rintro _ ⟨⟩)
      simp only [Version4.main, Option.map_eq_some_iff] at ho
      obtain ⟨x, -, rfl⟩ := ho
      exact h.main_move rfl rfl rfl (by rintro _ ⟨⟩) (fun _ => hall) id
  | join i =>
      have hall := hcreated (by rintro _ ⟨⟩)
      simp only [Version4.main] at ho
      split_ifs at ho <;> cases ho <;>
        exact h.main_move rfl rfl rfl (by rintro _ ⟨⟩) (fun _ => hall) id
  | destroy => cases hcalm trivial
  | _ => cases ho

end Keep

/-- Every reachable state is in service. -/
theorem reachable_serving {h : List (Party n × Event)} {s : Global (Party n) (Mem n) Pc}
    (hs : (table n).Reachable Serves h s) :
  Serving s.mem s.loc
  := by
  apply threads_invariant (I := fun m l _ => Serving m l) _ _ hs
  · rintro m l ⟨rfl, hmain, hborn⟩
    constructor
    · rfl
    · rfl
    · rfl
    · simp [hborn, Pc.inMain]
    · rw [hmain]
      rintro _ ⟨⟩
      exact ⟨rfl, Nat.zero_le n, rfl⟩
    · simp [hmain]
    · simp [hborn]
  · intro m l h i choice o hI hG ho
    simp only [step, Option.ite_none_left_eq_some] at ho
    obtain ⟨-, ho⟩ := ho
    cases i with
    | none =>
        apply hI.main _ (hG.2 rfl) ho
        rintro rfl
        apply hG.1 rfl
    | some tid => exact hI.philosopher ho

theorem Dining.serves {s : Global (Party n) (Mem n) Pc} {a : Party n × Choice} (h : Dining s a) :
  Serves s a
  := by
  constructor
  · rintro rfl
    apply h rfl
  · intro ha
    cases h ha

/-- Philosophers alone leave flags and threads to `main`. -/
theorem dining_keeps {s t : Global (Party n) (Mem n) Pc} {h : List (Party n × Event)}
    (hr : (table n).Run Dining s h t) :
  t.mem.exitFlag = s.mem.exitFlag ∧ t.mem.created = s.mem.created
  := by
  apply hr.invariant
    (I := fun t _ => t.mem.exitFlag = s.mem.exitFlag ∧ t.mem.created = s.mem.created) ⟨rfl, rfl⟩
  rintro ⟨m, l⟩ h ⟨i, c⟩ t' e ⟨hflag, hcreated⟩ hG hnext
  obtain ⟨o, ho, rfl, rfl⟩ := threads_next.mp hnext
  simp only [step, Option.ite_none_left_eq_some] at ho
  obtain ⟨-, ho⟩ := ho
  cases i with
  | none => cases hG rfl
  | some tid =>
      obtain ⟨hflag', hcreated', -⟩ := thinkingAndEating_keeps ho
      exact ⟨hflag'.trans hflag, hcreated'.trans hcreated⟩

/-! ### The rank -/

/-- How far a philosopher is from holding nothing. -/
def Pc.rank : Pc → ℕ
  | .seatTest => 18
  | .seatTake => 17
  | .seatUnlock => 16
  | .leftTest => 15
  | .rightTest => 14
  | .tableSpin => 13
  | .tableLock => 12
  | .takeLeft => 11
  | .takeRight => 10
  | .tableUnlock => 9
  | .leaveLock => 8
  | .leaveCount => 7
  | .leaveUnlock => 6
  | .eat => 5
  | .giveLock => 4
  | .giveLeft => 3
  | .giveRight => 2
  | .giveUnlock | .seatSpin => 1
  | _ => 0

theorem Pc.inMain.rank_zero {pc : Pc} (h : pc.inMain) :
  pc.rank = 0
  := by
  cases pc <;> cases h <;> rfl

/-- A philosopher that holds something lowers its rank with every step, except in front of
`mutex`. -/
theorem rank_lt {tid : Fin n} {m : Mem n} {pc : Pc} {o : Outcome (Mem n) Pc Event}
    (ho : thinkingAndEating tid m pc = some o) (hpc : pc.rank ≠ 0) (htable : pc ≠ .tableLock) :
  o.loc.rank < pc.rank
  := by
  cases thinkingAndEating_moves ho with
  | born | leave | stay | think | hunger | waitLock => cases hpc rfl
  | tableLock => cases htable rfl
  | _ => simp [Pc.rank]

section Descend

variable {m : Mem n} {l : Party n → Pc}

/-- A philosopher that can lower its rank by one step does. -/
theorem descend_step (hrun : m.exited = false) {tid : Fin n} (hpc : (l (some tid)).rank ≠ 0)
    (htable : l (some tid) ≠ .tableLock)
    (henabled : (thinkingAndEating tid m (l (some tid))).isSome = true) :
  ∃ h t, (table n).Run Dining ⟨m, l⟩ h t ∧ total Pc.rank t.loc < total Pc.rank l
  := by
  obtain ⟨o, ho⟩ := Option.isSome_iff_exists.mp henabled
  have hstep : step n (some tid) m (l (some tid)) .go = some o := by
    rw [step, hrun]
    exact ho
  refine ⟨_, _, threads_run_single (Option.some_ne_none tid) hstep, ?_⟩
  have hrank := rank_lt ho hpc htable
  have htotal := total_update Pc.rank l (some tid) o.loc
  show total Pc.rank (Function.update l (some tid) o.loc) < _
  omega

/-- A philosopher under `wait_mutex` can move. -/
theorem enabled_seats (tid : Fin n) {pc : Pc} (hwait : m.waitMutex.destroyed = false)
    (hin : pc.insideSeats) :
  (thinkingAndEating tid m pc).isSome = true ∧ pc.rank ≠ 0 ∧ pc ≠ .tableLock
  := by
  cases pc with
  | seatTest =>
      simp only [thinkingAndEating]
      split_ifs <;> simp [Pc.rank]
  | seatSpin | seatUnlock | leaveUnlock => simp [thinkingAndEating, Mutex.unlock, hwait, Pc.rank]
  | seatTake | leaveCount => simp [thinkingAndEating, Pc.rank]
  | _ => cases hin

/-- A philosopher under `mutex` can move. -/
theorem enabled_table (tid : Fin n) {pc : Pc} (htable : m.mutex.destroyed = false)
    (hin : pc.insideTable) :
  (thinkingAndEating tid m pc).isSome = true ∧ pc.rank ≠ 0 ∧ pc ≠ .tableLock
  := by
  cases pc with
  | leftTest | rightTest =>
      simp only [thinkingAndEating]
      split_ifs <;> simp [Pc.rank]
  | tableSpin | tableUnlock | giveUnlock =>
      simp [thinkingAndEating, Mutex.unlock, htable, Pc.rank]
  | takeLeft | takeRight | giveLeft | giveRight => simp [thinkingAndEating, Pc.rank]
  | _ => cases hin

/-- With both mutexes free a philosopher that has its chopsticks can move. -/
theorem enabled_eating (tid : Fin n) {pc : Pc} (hwait : m.waitMutex = .init)
    (hmutex : m.mutex = .init) (heats : pc.eating) (hseats : ¬ pc.insideSeats)
    (htable : ¬ pc.insideTable) :
  (thinkingAndEating tid m pc).isSome = true ∧ pc.rank ≠ 0 ∧ pc ≠ .tableLock
  := by
  cases pc with
  | leaveLock => simp [thinkingAndEating, Mutex.lock, Mutex.init, hwait, Pc.rank]
  | giveLock => simp [thinkingAndEating, Mutex.lock, Mutex.init, hmutex, Pc.rank]
  | eat => simp [thinkingAndEating, Pc.rank]
  | leaveCount | leaveUnlock => cases hseats trivial
  | tableUnlock | giveLeft => cases htable trivial
  | _ => cases heats

/-- A philosopher runs alone from the lock of `mutex` until it has its chopsticks. -/
theorem solo_takes (tid : Fin n) {m : Mem n} (hrun : m.exited = false) (hmutex : m.mutex = .init)
    (hsticks : ∀ k, m.chopsticks k = true) :
  solo (step n) (some tid) (List.replicate 6 .go) m .tableLock = some
    { mem := { m with chopsticks :=
        Function.update (Function.update m.chopsticks tid.val false) ((tid.val + 1) % 5) false },
      loc := .leaveLock }
  := by
  simp [solo, step, thinkingAndEating, List.replicate, Mutex.lock, Mutex.unlock, Mutex.init,
    hrun, hmutex, hsticks]

/-- A philosopher that holds something and is in no section holds a seat in front of
`mutex`. -/
theorem Pc.at_tableLock {pc : Pc} (hpc : pc.rank ≠ 0) (hseats : ¬ pc.insideSeats)
    (htable : ¬ pc.insideTable) (heats : ¬ pc.eating) :
  pc = .tableLock
  := by
  cases pc with
  | tableLock => rfl
  | seatTest | seatSpin | seatTake | seatUnlock | leaveCount | leaveUnlock => cases hseats trivial
  | leftTest | rightTest | tableSpin | takeLeft | takeRight | tableUnlock | giveLeft | giveRight
  | giveUnlock => cases htable trivial
  | leaveLock | eat | giveLock => cases heats trivial
  | _ => cases hpc rfl

/-- With `mutex` free and nobody eating all chopsticks are free. -/
theorem Table.all_free (h : Table m l) (hmutex : m.mutex = .init)
    (heats : ∀ tid : Fin n, ¬ (l (some tid)).eating) (k : ℕ) :
  m.chopsticks k = true
  := by
  by_contra hk
  obtain ⟨tid, ⟨htid, -⟩, -⟩ := (h.taken (by rw [hmutex]; rfl) k).mp (by simpa using hk)
  apply heats tid htid

/-- As long as someone holds something, some philosopher can be run to hold less. -/
theorem descend (hseats : Seats m l) (htable : Table m l) (hserving : Serving m l) :
  total Pc.rank l = 0 ∨
    ∃ h t, (table n).Run Dining ⟨m, l⟩ h t ∧ total Pc.rank t.loc < total Pc.rank l
  := by
  rw [or_iff_not_imp_left]
  intro hrank
  cases hwait : m.waitMutex.holder with
  | some i =>
      have hin := (hseats.guards i).mpr hwait
      cases i with
      | none => cases hseats.inMain.outsideSeats.1 hin
      | some tid =>
          obtain ⟨henabled, hpc, hlock⟩ := enabled_seats tid hserving.wait hin
          apply descend_step hserving.running hpc hlock henabled
  | none =>
      have hwait' := Mutex.eq_init hwait hserving.wait
      have hout : ∀ i, ¬ (l i).insideSeats := by
        have hguards := hseats.guards
        rw [hwait] at hguards
        apply hguards.outside
      cases hmutex : m.mutex.holder with
      | some i =>
          have hin := (htable.guards i).mpr hmutex
          cases i with
          | none => cases hseats.inMain.away.1 hin
          | some tid =>
              obtain ⟨henabled, hpc, hlock⟩ := enabled_table tid hserving.table hin
              apply descend_step hserving.running hpc hlock henabled
      | none =>
          have hmutex' := Mutex.eq_init hmutex hserving.table
          have hout' : ∀ i, ¬ (l i).insideTable := by
            have hguards := htable.guards
            rw [hmutex] at hguards
            apply hguards.outside
          by_cases heats : ∃ tid : Fin n, (l (some tid)).eating
          · obtain ⟨tid, htid⟩ := heats
            obtain ⟨henabled, hpc, hlock⟩ := enabled_eating tid hwait' hmutex' htid
              (hout _) (hout' _)
            apply descend_step hserving.running hpc hlock henabled
          · have hnone : ∀ tid : Fin n, ¬ (l (some tid)).eating := by
              simpa using heats
            obtain ⟨i, hi⟩ : ∃ i, (l i).rank ≠ 0 := by
              by_contra hzero
              apply hrank
              apply total_eq_zero
              simpa using hzero
            cases i with
            | none => cases hi hseats.inMain.rank_zero
            | some tid =>
                have hpc := Pc.at_tableLock hi (hout _) (hout' _) (hnone tid)
                have htakes := solo_takes tid hserving.running hmutex'
                  (htable.all_free hmutex' hnone)
                rw [← hpc] at htakes
                refine ⟨_, _, solo_run_guarded (fun _ _ _ => Option.some_ne_none tid) htakes, ?_⟩
                have htotal := total_update Pc.rank l (some tid) .leaveLock
                rw [hpc] at htotal
                simp only [Pc.rank] at htotal
                show total Pc.rank (Function.update l (some tid) .leaveLock) < _
                omega

end Descend

/-- The philosophers alone get from every reachable state to one in which nobody holds
anything. -/
theorem reaches_rest (hn : 1 ≤ n) {h : List (Party n × Event)} {s : Global (Party n) (Mem n) Pc}
    (hs : (table n).Reachable Serves h s) :
  ∃ h' t, (table n).Run Dining s h' t ∧ total Pc.rank t.loc = 0
  := by
  have hdescend : ∀ s, (∃ h, (table n).Reachable Serves h s) → total Pc.rank s.loc = 0 ∨
      ∃ h' t, (table n).Run Dining s h' t ∧ (∃ h, (table n).Reachable Serves h t) ∧
        total Pc.rank t.loc < total Pc.rank s.loc := by
    rintro s ⟨h, hs⟩
    rcases descend (reachable_seats hn hs.free) (reachable_table hs.free) (reachable_serving hs)
      with hrest | ⟨h', t, hrun, hlt⟩
    · left
      apply hrest
    · right
      exact ⟨h', t, hrun, ⟨_, hs.trans (hrun.mono fun _ _ => Dining.serves)⟩, hlt⟩
  obtain ⟨h', t, hrun, -, hrest⟩ := Machine.reaches_of_descent _ hdescend ⟨h, hs⟩
  exact ⟨h', t, hrun, hrest⟩

/-! ### From rest -/

/-- Nobody holds anything. -/
structure Resting (m : Mem n) (l : Party n → Pc) : Prop where
  waitMutex : m.waitMutex = .init
  mutex : m.mutex = .init
  count : m.count = 0
  chopsticks : ∀ k, m.chopsticks k = true
  places : ∀ tid : Fin n, l (some tid) ∈ [.unborn, .top, .think, .hunger, .waitLock, .done]

/-- A philosopher of rank `0` is in none of the sections. -/
theorem Pc.at_rest {pc : Pc} (hpc : pc.rank = 0) :
  ¬ pc.insideSeats ∧ ¬ pc.insideTable ∧ ¬ pc.eating ∧ pc.seat = 0 ∧
    (¬ pc.inMain → pc ∈ [.unborn, .top, .think, .hunger, .waitLock, .done])
  := by
  cases pc with
  | unborn | top | think | hunger | waitLock | done =>
      refine ⟨id, id, id, rfl, ?_⟩
      simp
  | create | read | exitLock | exitSet | exitUnlock | join | destroy | exited =>
      refine ⟨id, id, id, rfl, ?_⟩
      intro hmain
      cases hmain trivial
  | _ => cases hpc

theorem resting (hn : 1 ≤ n) {h : List (Party n × Event)} {s : Global (Party n) (Mem n) Pc}
    (hs : (table n).Reachable Serves h s) (hrank : total Pc.rank s.loc = 0) :
  Resting s.mem s.loc
  := by
  have hseats := reachable_seats hn hs.free
  have htable := reachable_table hs.free
  have hserving := reachable_serving hs
  have hrest : ∀ i, (s.loc i).rank = 0 := by
    intro i
    have := summand_le_total Pc.rank s.loc i
    omega
  have hfree : ∀ {x : Mutex (Party n)} {inside : Pc → Prop}, Guards x.holder inside s.loc →
      (∀ i, ¬ inside (s.loc i)) → x.destroyed = false → x = .init := by
    intro x inside hguards hout halive
    apply Mutex.eq_init _ halive
    by_contra hholder
    obtain ⟨i, hi⟩ := Option.ne_none_iff_exists'.mp hholder
    apply hout i ((hguards i).mpr hi)
  have hmutex := hfree htable.guards (fun i => (Pc.at_rest (hrest i)).2.1) hserving.table
  constructor
  · apply hfree hseats.guards (fun i => (Pc.at_rest (hrest i)).1) hserving.wait
  · apply hmutex
  · rw [hseats.count, total_eq_zero fun i => (Pc.at_rest (hrest i)).2.2.2.1]
    rfl
  · apply htable.all_free hmutex
    intro tid
    apply (Pc.at_rest (hrest (some tid))).2.2.1
  · intro tid
    apply (Pc.at_rest (hrest (some tid))).2.2.2.2 (hserving.away tid)

section Rest

variable {m : Mem n} {l : Party n → Pc}

/-- A hungry philosopher eats alone and comes back to the head of its loop. -/
theorem solo_meal (hn : 2 ≤ n) (tid : Fin n) (hrun : m.exited = false) (hrest : Resting m l) :
  solo (step n) (some tid) (List.replicate 18 .go) m .waitLock = some
    { mem := { m with
        chopsticks := Function.update (Function.update (Function.update
          (Function.update m.chopsticks tid.val false) ((tid.val + 1) % 5) false)
          tid.val true) ((tid.val + 1) % 5) true },
      loc := .top,
      events := [.eating] }
  := by
  have hseat : (0 : ℤ) ≠ n - 1 := by omega
  simp [solo, step, thinkingAndEating, List.replicate, Mutex.lock, Mutex.unlock, Mutex.init,
    hrun, hrest.waitMutex, hrest.mutex, hrest.count, hseat, hrest.chopsticks]

/-- A philosopher at rest comes to the lock of `wait_mutex`, unless it finds `exit_flag`
set. -/
theorem solo_hungry (tid : Fin n) {pc : Pc} (hrun : m.exited = false)
    (hpc : pc ∈ [Pc.think, .hunger, .waitLock] ∨
      pc ∈ [Pc.unborn, .top] ∧ m.exitFlag = false ∧ tid.val < m.created) :
  ∃ cs es, solo (step n) (some tid) cs m pc = some { mem := m, loc := .waitLock, events := es }
  := by
  simp only [List.mem_cons, List.not_mem_nil, or_false] at hpc
  rcases hpc with (rfl | rfl | rfl) | ⟨rfl | rfl, hflag, hcreated⟩
  · use [.go, .go], [.thinking, .hungry]
    simp [solo, step, thinkingAndEating, hrun]
  · use [.go], [.hungry]
    simp [solo, step, thinkingAndEating, hrun]
  · use [], []
    rfl
  · use [.go, .go, .go, .go], [.thinking, .hungry]
    simp [solo, step, thinkingAndEating, hrun, hflag, hcreated]
  · use [.go, .go, .go], [.thinking, .hungry]
    simp [solo, step, thinkingAndEating, hrun, hflag]

/-- A philosopher at rest that may eat does so alone. -/
theorem solo_eaten (hn : 2 ≤ n) (tid : Fin n) (hrun : m.exited = false) (hrest : Resting m l)
    (hpc : l (some tid) ∈ [Pc.think, .hunger, .waitLock] ∨
      l (some tid) ∈ [Pc.unborn, .top] ∧ m.exitFlag = false ∧ tid.val < m.created) :
  ∃ cs o, solo (step n) (some tid) cs m (l (some tid)) = some o ∧ .eating ∈ o.events ∧
    o.loc = .top ∧ o.mem.exitFlag = m.exitFlag ∧ o.mem.exited = false
  := by
  obtain ⟨cs, es, hsolo⟩ := solo_hungry tid hrun hpc
  refine ⟨_, _, solo_append hsolo (solo_meal hn tid hrun hrest), ?_, rfl, rfl, hrun⟩
  simp

/-- A philosopher at rest returns alone when `exit_flag` is set. -/
theorem solo_leaves (hn : 2 ≤ n) (tid : Fin n) (hrun : m.exited = false) (hrest : Resting m l)
    (hflag : m.exitFlag = true) (hcreated : tid.val < m.created) :
  ∃ cs o, solo (step n) (some tid) cs m (l (some tid)) = some o ∧ o.loc = .done
  := by
  have hplace := hrest.places tid
  have hdone : ∀ m' : Mem n, m'.exitFlag = true → m'.exited = false →
      solo (step n) (some tid) [.go] m' .top = some
        { mem := { m' with returned := insert tid m'.returned }, loc := .done } := by
    intro m' hflag' hrun'
    simp [solo, step, thinkingAndEating, hflag', hrun']
  by_cases hhungry : l (some tid) ∈ [Pc.think, .hunger, .waitLock]
  · obtain ⟨cs, o, hsolo, -, htop, hflag', hrun'⟩ := solo_eaten hn tid hrun hrest (.inl hhungry)
    have hlast := hdone o.mem (hflag'.trans hflag) hrun'
    rw [← htop] at hlast
    exact ⟨_, _, solo_append hsolo hlast, rfl⟩
  · generalize l (some tid) = pc at *
    simp only [List.mem_cons, List.not_mem_nil, or_false, not_or] at hplace hhungry
    rcases hplace with rfl | rfl | rfl | rfl | rfl | rfl
    · exact ⟨_, _, solo_returns hrun hcreated hflag, rfl⟩
    · exact ⟨_, _, hdone m hflag hrun, rfl⟩
    · cases hhungry.1 rfl
    · cases hhungry.2.1 rfl
    · cases hhungry.2.2 rfl
    · exact ⟨[], _, rfl, rfl⟩

end Rest

/-! ### No dead end -/

/-- One for a philosopher that has not returned. -/
def Pc.left (pc : Pc) : ℕ := if pc = .done then 0 else 1

/-- `main` creates the threads that are still missing. -/
theorem reaches_created {h : List (Party n × Event)} {s : Global (Party n) (Mem n) Pc}
    (hs : (table n).Reachable Serves h s) (hflag : s.mem.exitFlag = false) :
  ∃ h' t, (table n).Run Serves s h' t ∧ t.mem.exitFlag = false ∧ t.mem.created = n
  := by
  have hdescend : ∀ s : Global (Party n) (Mem n) Pc,
      ((∃ h, (table n).Reachable Serves h s) ∧ s.mem.exitFlag = false) → s.mem.created = n ∨
        ∃ h' t, (table n).Run Serves s h' t ∧ ((∃ h, (table n).Reachable Serves h t) ∧
          t.mem.exitFlag = false) ∧ n - t.mem.created < n - s.mem.created := by
    rintro ⟨m, l⟩ ⟨⟨h, hs⟩, hflag⟩
    have hserving := reachable_serving hs
    rw [or_iff_not_imp_left]
    intro hmissing
    obtain ⟨k, hpc⟩ : ∃ k, l none = .create k := by
      by_contra hnone
      apply hmissing (hserving.created (by simpa using hnone))
    obtain ⟨hcreated, hle, -⟩ := hserving.creating k hpc
    have hlt : k < n := by
      apply lt_of_le_of_ne hle
      rintro rfl
      apply hmissing hcreated
    have hstep : step n none m (l none) .go = some
        { mem := { m with created := k + 1 }, loc := .create (k + 1) } := by
      have hrun : m.exited = false := hserving.running
      simp [step, main, hrun, hpc, hlt]
    have hG : Serves ⟨m, l⟩ (none, .go) := by
      refine ⟨by rintro ⟨⟩, ?_⟩
      simp [hpc, Pc.destroying]
    have hrun : (table n).Run Serves _ _ _ := threads_run_single hG hstep
    refine ⟨_, _, hrun, ⟨⟨_, hs.trans hrun⟩, hflag⟩, ?_⟩
    show n - (k + 1) < n - m.created
    simp only at hcreated
    omega
  obtain ⟨h', t, hrun, ⟨-, hflag'⟩, hcreated⟩ :=
    Machine.reaches_of_descent _ hdescend ⟨⟨h, hs⟩, hflag⟩
  exact ⟨h', t, hrun, hflag', hcreated⟩

/-- With `exit_flag` unset every philosopher can come to eat. -/
theorem reaches_eating (hn : 2 ≤ n) {h : List (Party n × Event)}
    {s : Global (Party n) (Mem n) Pc} (hs : (table n).Reachable Serves h s)
    (hflag : s.mem.exitFlag = false) (tid : Fin n) :
  ∃ h' t, (table n).Run Serves s h' t ∧ (some tid, .eating) ∈ h' ∧ t.mem.exitFlag = false
  := by
  obtain ⟨h₁, s₁, hrun₁, hflag₁, hcreated⟩ := reaches_created hs hflag
  have hs₁ := hs.trans hrun₁
  obtain ⟨h₂, ⟨m, l⟩, hrun₂, hrank⟩ := reaches_rest (by omega) hs₁
  obtain ⟨hflag₂, hcreated₂⟩ := dining_keeps hrun₂
  have hrun₂' := hrun₂.mono fun _ _ => Dining.serves
  have hs₂ := hs₁.trans hrun₂'
  have hserving := reachable_serving hs₂
  have hrest := resting (by omega) hs₂ hrank
  have hflag' : m.exitFlag = false := hflag₂.trans hflag₁
  have hlt : tid.val < m.created := Nat.lt_of_lt_of_eq tid.isLt (hcreated₂.trans hcreated).symm
  have hpc : l (some tid) ∈ [Pc.think, .hunger, .waitLock] ∨
      l (some tid) ∈ [Pc.unborn, .top] ∧ m.exitFlag = false ∧ tid.val < m.created := by
    have hplace := hrest.places tid
    have hstays : l (some tid) ≠ .done := hserving.stays hflag' tid
    simp only [List.mem_cons, List.not_mem_nil, or_false] at hplace ⊢
    rcases hplace with hpc | hpc | hpc | hpc | hpc | hpc
    · exact .inr ⟨.inl hpc, hflag', hlt⟩
    · exact .inr ⟨.inr hpc, hflag', hlt⟩
    · exact .inl (.inl hpc)
    · exact .inl (.inr (.inl hpc))
    · exact .inl (.inr (.inr hpc))
    · cases hstays hpc
  obtain ⟨cs, o, hsolo, heats, -, hflag₃, -⟩ := solo_eaten hn tid hserving.running hrest hpc
  have hrun₃ : (table n).Run Dining _ _ _ :=
    solo_run_guarded (fun _ _ _ => Option.some_ne_none tid) hsolo
  refine ⟨_, _, (hrun₁.trans hrun₂').trans (hrun₃.mono fun _ _ => Dining.serves), ?_,
    hflag₃.trans hflag'⟩
  apply List.mem_append_right
  apply List.mem_map_of_mem heats

/-- With `exit_flag` set all philosophers can return. -/
theorem reaches_done (hn : 2 ≤ n) {h : List (Party n × Event)}
    {s : Global (Party n) (Mem n) Pc} (hs : (table n).Reachable Serves h s)
    (hflag : s.mem.exitFlag = true) :
  ∃ h' t, (table n).Run Serves s h' t ∧ (∀ tid : Fin n, t.loc (some tid) = .done) ∧
    t.mem.count = 0 ∧ ∀ k, t.mem.chopsticks k = true
  := by
  have hdescend : ∀ s : Global (Party n) (Mem n) Pc,
      ((∃ h, (table n).Reachable Serves h s) ∧ total Pc.rank s.loc = 0 ∧ s.mem.exitFlag = true) →
      (∀ tid : Fin n, s.loc (some tid) = .done) ∨ ∃ h' t, (table n).Run Dining s h' t ∧
        ((∃ h, (table n).Reachable Serves h t) ∧ total Pc.rank t.loc = 0 ∧
          t.mem.exitFlag = true) ∧ total Pc.left t.loc < total Pc.left s.loc := by
    rintro ⟨m, l⟩ ⟨⟨h, hs⟩, hrank, hflag⟩
    rw [or_iff_not_imp_left]
    intro hall
    obtain ⟨tid, htid⟩ := not_forall.mp hall
    have hserving := reachable_serving hs
    have hcreated : m.created = n := by
      apply hserving.created
      intro k hk
      have hunset := (hserving.creating k hk).2.2
      rw [hflag] at hunset
      cases hunset
    obtain ⟨cs, o, hsolo, hdone⟩ := solo_leaves hn tid hserving.running
      (resting (by omega) hs hrank) hflag (Nat.lt_of_lt_of_eq tid.isLt hcreated.symm)
    have hrun : (table n).Run Dining _ _ _ :=
      solo_run_guarded (fun _ _ _ => Option.some_ne_none tid) hsolo
    have htotal := total_update Pc.rank l (some tid) o.loc
    have hleft := total_update Pc.left l (some tid) o.loc
    have hone : Pc.left (l (some tid)) = 1 := if_neg htid
    have hzero : total Pc.rank l = 0 ∧ Pc.rank .done = 0 ∧ Pc.left .done = 0 := ⟨hrank, rfl, rfl⟩
    rw [hdone] at htotal hleft
    refine ⟨_, _, hrun, ⟨⟨_, hs.trans (hrun.mono fun _ _ => Dining.serves)⟩, ?_, ?_⟩, ?_⟩
    · show total Pc.rank (Function.update l (some tid) o.loc) = 0
      rw [hdone]
      omega
    · exact (dining_keeps hrun).1.trans hflag
    · show total Pc.left (Function.update l (some tid) o.loc) < total Pc.left l
      rw [hdone]
      omega
  obtain ⟨h₁, s₁, hrun₁, hrank⟩ := reaches_rest (by omega) hs
  have hs₁ := hs.trans (hrun₁.mono fun _ _ => Dining.serves)
  obtain ⟨h₂, s₂, hrun₂, ⟨⟨h', hs₂⟩, hrank₂, -⟩, hdone⟩ := Machine.reaches_of_descent _ hdescend
    ⟨⟨_, hs₁⟩, hrank, (dining_keeps hrun₁).1.trans hflag⟩
  have hrest := resting (by omega) hs₂ hrank₂
  exact ⟨_, s₂, (hrun₁.trans hrun₂).mono fun _ _ => Dining.serves, hdone, hrest.count,
    hrest.chopsticks⟩

/-- From every reachable state with `exit_flag` unset every philosopher can come to eat, and
from every one with `exit_flag` set all can return, all seats and chopsticks given back. -/
theorem no_dead_end (hn : 5 ≤ n) {h : List (Party n × Event)} {s : Global (Party n) (Mem n) Pc}
    (hs : (table n).Reachable Serves h s) :
  (s.mem.exitFlag = false → ∀ tid : Fin n, ∃ h' t, (table n).Run Serves s h' t ∧
      (some tid, .eating) ∈ h' ∧ t.mem.exitFlag = false) ∧
    (s.mem.exitFlag = true → ∃ h' t, (table n).Run Serves s h' t ∧
      (∀ tid : Fin n, t.loc (some tid) = .done) ∧ t.mem.count = 0 ∧
      ∀ k, t.mem.chopsticks k = true)
  := ⟨reaches_eating (by omega) hs, reaches_done (by omega) hs⟩

instance (s : Global (Party n) (Mem n) Pc) (a : Party n × Choice) : Decidable (Serves s a) :=
  inferInstanceAs (Decidable (_ ∧ (_ → ¬ _)))

/-- At the table of version 3 the philosophers `0` and `2` have their chopsticks, `1` and `3`
have a seat and `4` waits for one: each can come to eat.  When then `exit_flag` is set, all can
return. -/
theorem no_dead_end_seated :
  (∃ h s, Version3.table.Reachable Serves h s ∧ s.mem.count = 4 ∧
      s.mem.chopsticks 0 = false ∧ s.mem.chopsticks 2 = false ∧
      ∀ tid : Fin 5, ∃ h' t, Version3.table.Run Serves s h' t ∧ (some tid, .eating) ∈ h' ∧
        t.mem.exitFlag = false) ∧
    ∃ h s, Version3.table.Reachable Serves h s ∧ s.mem.count = 4 ∧ s.mem.exitFlag = true ∧
      ∃ h' t, Version3.table.Run Serves s h' t ∧ (∀ tid : Fin 5, t.loc (some tid) = .done) ∧
        t.mem.count = 0 ∧ ∀ k, t.mem.chopsticks k = true
  := by
  have hinit : (table 5).Initial ⟨.new 5, fun i => if i = none then .create 0 else .unborn⟩ :=
    ⟨rfl, rfl, fun _ => rfl⟩
  have hseated : ((table 5).exec Serves
      ⟨.new 5, fun i => if i = none then .create 0 else .unborn⟩
      ([(none, 6), (some 0, 14), (some 1, 8), (some 2, 14), (some 3, 8), (some 4, 6)].flatMap
        fun p => List.replicate p.2 (p.1, .go))).map
        (fun r => (r.1.mem.count, r.1.mem.chopsticks 0, r.1.mem.chopsticks 2, r.1.mem.exitFlag))
      = some (4, false, false, false) := by
    decide +kernel
  have hset : ((table 5).exec Serves
      ⟨.new 5, fun i => if i = none then .create 0 else .unborn⟩
      ([(none, 6), (some 0, 14), (some 1, 8), (some 2, 14), (some 3, 8), (some 4, 6)].flatMap
        (fun p => List.replicate p.2 (p.1, .go)) ++ [(none, .quit), (none, .go), (none, .go)])).map
        (fun r => (r.1.mem.count, r.1.mem.exitFlag)) = some (4, true) := by
    decide +kernel
  constructor
  · obtain ⟨⟨s, h⟩, hexec, hmem⟩ := Option.map_eq_some_iff.mp hseated
    obtain ⟨hcount, hzero, htwo, hflag⟩ : s.mem.count = 4 ∧ s.mem.chopsticks 0 = false ∧
        s.mem.chopsticks 2 = false ∧ s.mem.exitFlag = false := by
      simpa only [Prod.mk.injEq] using hmem
    have hs := Machine.exec_reachable _ hinit hexec
    exact ⟨h, s, hs, hcount, hzero, htwo, (no_dead_end le_rfl hs).1 hflag⟩
  · obtain ⟨⟨s, h⟩, hexec, hmem⟩ := Option.map_eq_some_iff.mp hset
    obtain ⟨hcount, hflag⟩ : s.mem.count = 4 ∧ s.mem.exitFlag = true := by
      simpa only [Prod.mk.injEq] using hmem
    have hs := Machine.exec_reachable _ hinit hexec
    exact ⟨h, s, hs, hcount, hflag, (no_dead_end le_rfl hs).2 hflag⟩

end Version4

import ParallelArch.Philosophers.Exclusion

/-!
# Creating, indexing and joining in version 4

`main` creates `n` threads, a philosopher uses the chopsticks `tid` and `(tid + 1) % 5` of a
vector of size `n`, and `main` joins five threads before it destroys the mutexes.  The three
agree exactly when `n` is `5` and every thread can be created (`sound_iff`): at a smaller table
the last philosopher uses a chopstick beyond the vector, at a larger one the philosopher `5` is
still in its loop when the mutexes go, and so are the threads created before one that cannot be.
-/

namespace Version4

variable {n : ℕ}

/-! ### Sound states -/

/-- The index of `chopsticks` the philosopher `tid` uses next. -/
def Pc.uses (tid : ℕ) : Pc → Option ℕ
  | .leftTest | .takeLeft | .giveLeft => some tid
  | .rightTest | .takeRight | .giveRight => some ((tid + 1) % 5)
  | _ => none

/-- The philosopher locks or unlocks `wait_mutex` next. -/
def Pc.touchesWait : Pc → Prop
  | .waitLock | .seatSpin | .seatUnlock | .leaveLock | .leaveUnlock => True
  | _ => False

/-- The philosopher locks or unlocks `mutex` next. -/
def Pc.touchesTable : Pc → Prop
  | .tableLock | .tableSpin | .tableUnlock | .giveLock | .giveUnlock => True
  | _ => False

/-- `main` has reached the point where it destroys the mutexes. -/
def Pc.destroying : Pc → Prop
  | .destroy _ _ | .exited _ => True
  | _ => False

instance : (pc : Pc) → Decidable pc.destroying
  | .destroy .. | .exited .. => isTrue trivial
  | .unborn | .top | .think | .hunger | .waitLock | .seatTest | .seatSpin | .seatTake
  | .seatUnlock | .tableLock | .leftTest | .rightTest | .tableSpin | .takeLeft | .takeRight
  | .tableUnlock | .leaveLock | .leaveCount | .leaveUnlock | .eat | .giveLock | .giveLeft
  | .giveRight | .giveUnlock | .done | .create .. | .read | .exitLock | .exitSet | .exitUnlock
  | .join .. => isFalse id

/-- Every chopstick used is in the vector; `main` joins threads it created, as many as it
created, and destroys the mutexes when all have returned; and while the process runs no
philosopher is about to lock or unlock a destroyed mutex. -/
structure Sound (s : Global (Party n) (Mem n) Pc) : Prop where
  indices : ∀ tid : Fin n, ∀ k ∈ (s.loc (some tid)).uses tid, k < n
  joins : ∀ i, s.loc none = .join i → (i < 5 → i < n) ∧ (¬ i < 5 → i = n)
  joined : (s.loc none).destroying → ∀ tid : Fin n, s.loc (some tid) = .done
  wait : s.mem.exited = false → ∀ tid : Fin n, (s.loc (some tid)).touchesWait →
    s.mem.waitMutex.destroyed = false
  table : s.mem.exited = false → ∀ tid : Fin n, (s.loc (some tid)).touchesTable →
    s.mem.mutex.destroyed = false

/-- The runs in which threads cannot be created only if `mayFail`. -/
def Creates (mayFail : Prop) (_ : Global (Party n) (Mem n) Pc) (a : Party n × Choice) : Prop :=
  a = (none, .fail) → mayFail

/-! ### Five philosophers -/

/-- Who has returned, how far `main` has joined, and that the mutexes live until it is done. -/
structure Joining (m : Mem 5) (l : Party 5 → Pc) : Prop where
  returned : ∀ tid, tid ∈ m.returned ↔ l (some tid) = .done
  inMain : (l none).inMain
  joins : ∀ i, l none = .join i → i ≤ 5 ∧ ∀ tid : Fin 5, tid.val < i → tid ∈ m.returned
  joined : (l none).destroying → ∀ tid, tid ∈ m.returned
  alive : ¬ (l none).destroying → m.waitMutex.destroyed = false ∧ m.mutex.destroyed = false

section Keep

variable {m : Mem 5} {l : Party 5 → Pc}

/-- What a step of a philosopher does to mutexes and `returned`. -/
theorem thinkingAndEating_frame {m : Mem n} {tid : Fin n} {pc : Pc}
    {o : Outcome (Mem n) Pc Event} (ho : thinkingAndEating tid m pc = some o) :
  (o.loc = .done ∧ o.mem.returned = insert tid m.returned ∨
      o.loc ≠ .done ∧ o.mem.returned = m.returned) ∧ pc ≠ .done ∧
    (m.waitMutex.destroyed = false → o.mem.waitMutex.destroyed = false) ∧
    (m.mutex.destroyed = false → o.mem.mutex.destroyed = false)
  := by
  cases thinkingAndEating_moves ho <;> simp [Mutex.init]

/-- Every step of a philosopher keeps the order of joining. -/
theorem Joining.philosopher (h : Joining m l) {tid : Fin 5} {o : Outcome (Mem 5) Pc Event}
    (ho : thinkingAndEating tid m (l (some tid)) = some o) :
  Joining o.mem (Function.update l (some tid) o.loc)
  := by
  obtain ⟨hreturned, hrun, hwait, hmutex⟩ := thinkingAndEating_frame ho
  have hmain : Function.update l (some tid) o.loc none = l none := by
    rw [Function.update_of_ne]
    rintro ⟨⟩
  have hmore : ∀ tid', tid' ∈ m.returned → tid' ∈ o.mem.returned := by
    intro tid' htid'
    rcases hreturned with ⟨-, hreturned⟩ | ⟨-, hreturned⟩ <;> rw [hreturned]
    · apply Finset.mem_insert_of_mem htid'
    · apply htid'
  constructor
  · intro tid'
    rcases eq_or_ne tid' tid with rfl | hne
    · rw [Function.update_self]
      rcases hreturned with ⟨hpc, hreturned⟩ | ⟨hpc, hreturned⟩
      · simp [hpc, hreturned]
      · simp [hpc, hreturned, h.returned, hrun]
    · rw [Function.update_of_ne (by simpa using hne), ← h.returned]
      rcases hreturned with ⟨-, hreturned⟩ | ⟨-, hreturned⟩ <;> simp [hreturned, hne]
  · rw [hmain]
    apply h.inMain
  · rw [hmain]
    intro i hi
    obtain ⟨hle, hjoined⟩ := h.joins i hi
    use hle
    intro tid' hlt
    apply hmore _ (hjoined tid' hlt)
  · rw [hmain]
    intro hdestroying tid'
    apply hmore _ (h.joined hdestroying tid')
  · rw [hmain]
    intro hcalm
    obtain ⟨hw, hm⟩ := h.alive hcalm
    exact ⟨hwait hw, hmutex hm⟩

/-- `main` moves. -/
theorem Joining.main_move (h : Joining m l) {m' : Mem 5} {pc : Pc}
    (hreturned : m'.returned = m.returned) (hmain : pc.inMain)
    (hjoins : ∀ i, pc = .join i → i ≤ 5 ∧ ∀ tid : Fin 5, tid.val < i → tid ∈ m.returned)
    (hjoined : pc.destroying → ∀ tid, tid ∈ m.returned)
    (halive : ¬ pc.destroying → m'.waitMutex.destroyed = false ∧ m'.mutex.destroyed = false) :
  Joining m' (Function.update l none pc)
  := by
  constructor
  · intro tid
    rw [hreturned, h.returned, Function.update_of_ne]
    rintro ⟨⟩
  · rwa [Function.update_self]
  · rwa [Function.update_self, hreturned]
  · rwa [Function.update_self, hreturned]
  · rwa [Function.update_self]

/-- Every step of `main` keeps the order of joining, if no thread fails to be created. -/
theorem Joining.main (h : Joining m l) {choice : Choice} {o : Outcome (Mem 5) Pc Event}
    (hchoice : choice ≠ .fail) (ho : Version4.main m (l none) choice = some o) :
  Joining o.mem (Function.update l none o.loc)
  := by
  have halive := h.alive
  have hjoined := h.joined
  have hjoins := h.joins
  generalize l none = pc at *
  cases pc with
  | create i =>
      simp only [Version4.main] at ho
      split_ifs at ho
      · cases choice with
        | fail => cases hchoice rfl
        | go | quit =>
            cases ho
            exact h.main_move rfl trivial (by rintro _ ⟨⟩) (by rintro ⟨⟩) halive
      · cases ho
        exact h.main_move rfl trivial (by rintro _ ⟨⟩) (by rintro ⟨⟩) halive
  | read =>
      cases choice <;> cases ho <;>
        exact h.main_move rfl trivial (by rintro _ ⟨⟩) (by rintro ⟨⟩) halive
  | exitSet =>
      cases ho
      exact h.main_move rfl trivial (by rintro _ ⟨⟩) (by rintro ⟨⟩) halive
  | exitLock =>
      simp only [Version4.main, Option.map_eq_some_iff] at ho
      obtain ⟨x, -, rfl⟩ := ho
      exact h.main_move rfl trivial (by rintro _ ⟨⟩) (by rintro ⟨⟩) halive
  | exitUnlock =>
      simp only [Version4.main, Option.map_eq_some_iff] at ho
      obtain ⟨x, -, rfl⟩ := ho
      have hnone : ∀ i, Pc.join 0 = .join i → i ≤ 5 ∧
          ∀ tid : Fin 5, tid.val < i → tid ∈ m.returned := by
        rintro _ ⟨⟩
        simp
      exact h.main_move rfl trivial hnone (by rintro ⟨⟩) halive
  | join i =>
      obtain ⟨hle, hbefore⟩ := hjoins i rfl
      simp only [Version4.main] at ho
      split_ifs at ho with hlt hreturned
      · cases ho
        obtain ⟨tid, htid, rfl⟩ := hreturned
        have hnext : ∀ i, Pc.join (tid.val + 1) = .join i → i ≤ 5 ∧
            ∀ tid : Fin 5, tid.val < i → tid ∈ m.returned := by
          rintro _ ⟨⟩
          use tid.isLt
          intro tid' htid'
          rcases Nat.lt_succ_iff_lt_or_eq.mp htid' with hlt' | heq
          · apply hbefore tid' hlt'
          · rwa [Fin.ext heq]
        exact h.main_move rfl trivial hnext (by rintro ⟨⟩) halive
      · cases ho
        have hall : ∀ tid : Fin 5, tid ∈ m.returned := by
          intro tid
          apply hbefore tid (by omega)
        exact h.main_move rfl trivial (by rintro _ ⟨⟩) (fun _ => hall) (absurd trivial)
  | destroy k code =>
      rcases k with _ | _ | _ | k <;> cases ho <;>
        exact h.main_move rfl trivial (by rintro _ ⟨⟩) (fun _ => hjoined trivial) (absurd trivial)
  | _ => cases ho

end Keep

/-- Without a failure the order of joining holds in every reachable state. -/
theorem reachable_joining {h : List (Party 5 × Event)} {s : Global (Party 5) (Mem 5) Pc}
    (hs : (table 5).Reachable (Creates False) h s) :
  Joining s.mem s.loc
  := by
  apply threads_invariant (I := fun m l _ => Joining m l) _ _ hs
  · rintro m l ⟨rfl, hmain, hborn⟩
    constructor
    · simp [Mem.new, hborn]
    · simp [hmain, Pc.inMain]
    · simp [hmain]
    · simp [hmain, Pc.destroying]
    · simp [Mem.new, Mutex.init]
  · intro m l h i choice o hI hG ho
    simp only [step, Option.ite_none_left_eq_some] at ho
    obtain ⟨-, ho⟩ := ho
    cases i with
    | none =>
        apply hI.main _ ho
        rintro rfl
        apply hG rfl
    | some tid => exact hI.philosopher ho

/-- Five philosophers, all created, are sound in every reachable state. -/
theorem sound_five {h : List (Party 5 × Event)} {s : Global (Party 5) (Mem 5) Pc}
    (hs : (table 5).Reachable (Creates False) h s) :
  Sound s
  := by
  have hjoining := reachable_joining hs
  have hdone : (s.loc none).destroying → ∀ tid, s.loc (some tid) = .done := by
    intro hdestroying tid
    apply (hjoining.returned tid).mp (hjoining.joined hdestroying tid)
  constructor
  · intro tid k hk
    have := tid.isLt
    cases hpc : s.loc (some tid) <;> rw [hpc] at hk <;> cases hk <;> omega
  · intro i hi
    obtain ⟨hle, -⟩ := hjoining.joins i hi
    omega
  · exact hdone
  · intro _ tid htouches
    apply (hjoining.alive _).1
    intro hdestroying
    rw [hdone hdestroying tid] at htouches
    cases htouches
  · intro _ tid htouches
    apply (hjoining.alive _).2
    intro hdestroying
    rw [hdone hdestroying tid] at htouches
    cases htouches

/-! ### Other tables -/

theorem creates_go {mayFail : Prop} (i : Party n) (k : ℕ) :
  ∀ c ∈ List.replicate k Choice.go, ∀ s, Creates mayFail s (i, c)
  := by
  rintro c hc s ⟨⟩
  cases List.eq_of_mem_replicate hc

/-- A philosopher runs alone from its birth to the lock of `wait_mutex`. -/
theorem solo_waits {tid : Fin n} {m : Mem n} (hrun : m.exited = false)
    (hcreated : tid.val < m.created) (hflag : m.exitFlag = false) :
  solo (step n) (some tid) (List.replicate 4 .go) m .unborn = some
    { mem := m, loc := .waitLock, events := [.thinking, .hungry] }
  := by
  simp [solo, step, thinkingAndEating, List.replicate, hrun, hcreated, hflag]

/-- A philosopher runs alone from the lock of `wait_mutex` to the test of its right
chopstick. -/
theorem solo_right {tid : Fin n} {m : Mem n} (hrun : m.exited = false)
    (hwait : m.waitMutex = .init) (hmutex : m.mutex = .init) (hseat : m.count ≠ n - 1)
    (hleft : m.chopsticks tid = true) :
  solo (step n) (some tid) (List.replicate 6 .go) m .waitLock = some
    { mem := { m with count := m.count + 1, mutex := ⟨some (some tid), false⟩ },
      loc := .rightTest }
  := by
  simp [solo, step, thinkingAndEating, List.replicate, Mutex.lock, Mutex.unlock, Mutex.init,
    hrun, hwait, hmutex, hseat, hleft]

/-- A philosopher that has not started finds `exit_flag` set and returns. -/
theorem solo_returns {tid : Fin n} {m : Mem n} (hrun : m.exited = false)
    (hcreated : tid.val < m.created) (hflag : m.exitFlag = true) :
  solo (step n) (some tid) (List.replicate 2 .go) m .unborn = some
    { mem := { m with returned := insert tid m.returned }, loc := .done }
  := by
  simp [solo, step, thinkingAndEating, List.replicate, hrun, hcreated, hflag]

/-- `main` has created all threads, reads the line `n` and sets `exit_flag`. -/
theorem solo_quits {m : Mem n} (hrun : m.exited = false) (hexit : m.exitMutex = .init) :
  solo (step n) none [.go, .quit, .go, .go, .go] m (.create n) = some
    { mem := { m with exitFlag := true }, loc := .join 0 }
  := by
  simp [solo, step, main, Mutex.lock, Mutex.unlock, Mutex.init, hrun, hexit]

/-- `main` joins five threads that have returned, and destroys `mutex` and `wait_mutex`. -/
theorem solo_joins {m : Mem n} (hrun : m.exited = false)
    (hreturned : ∀ i < 5, ∃ tid ∈ m.returned, tid.val = i) :
  solo (step n) none (List.replicate 8 .go) m (.join 0) = some
    { mem := { m with mutex := m.mutex.destroy, waitMutex := m.waitMutex.destroy },
      loc := .destroy 2 0 }
  := by
  have h0 := hreturned 0 (by omega)
  have h1 := hreturned 1 (by omega)
  have h2 := hreturned 2 (by omega)
  have h3 := hreturned 3 (by omega)
  have h4 := hreturned 4 (by omega)
  simp [solo, step, main, List.replicate, hrun, h0, h1, h2, h3, h4]

/-- `main` cannot create the next thread, and destroys `mutex` and `wait_mutex`. -/
theorem solo_fails {m : Mem n} {i : ℕ} (hi : i < n) (hrun : m.exited = false) :
  solo (step n) none [.fail, .go, .go] m (.create i) = some
    { mem := { m with mutex := m.mutex.destroy, waitMutex := m.waitMutex.destroy },
      loc := .destroy 2 1 }
  := by
  simp [solo, step, main, hi, hrun]

/-- A run of one thread after a reachable state. -/
theorem reach_solo {mayFail : Prop} {i : Party n} {cs : List Choice} {h : List (Party n × Event)}
    {m : Mem n} {l : Party n → Pc} {pc : Pc} {o : Outcome (Mem n) Pc Event}
    (hs : (table n).Reachable (Creates mayFail) h ⟨m, l⟩) (hpc : l i = pc)
    (hcs : ∀ c ∈ cs, ∀ s : Global (Party n) (Mem n) Pc, Creates mayFail s (i, c))
    (ho : solo (step n) i cs m pc = some o) :
  ∃ h', (table n).Reachable (Creates mayFail) h' ⟨o.mem, Function.update l i o.loc⟩
  := by
  rw [← hpc] at ho
  exact ⟨_, hs.trans (solo_run_guarded hcs ho)⟩

/-- A philosopher in front of the destroyed `wait_mutex`. -/
theorem Sound.not_waiting {s : Global (Party n) (Mem n) Pc} {tid : Fin n}
    (hrun : s.mem.exited = false) (hpc : s.loc (some tid) = .waitLock)
    (hdestroyed : s.mem.waitMutex.destroyed = true) :
  ¬ Sound s
  := by
  intro hsound
  have halive := hsound.wait hrun tid (by rw [hpc]; trivial)
  rw [hdestroyed] at halive
  cases halive

/-- A philosopher in front of a right chopstick beyond the vector. -/
theorem Sound.not_beyond {s : Global (Party n) (Mem n) Pc} {tid : Fin n}
    (hpc : s.loc (some tid) = .rightTest) (hbeyond : n ≤ (tid.val + 1) % 5) :
  ¬ Sound s
  := by
  intro hsound
  have hlt := hsound.indices tid _ (by rw [hpc]; rfl)
  omega

/-- If threads may fail to be created, a philosopher can meet the destroyed `wait_mutex`. -/
theorem reach_failure (hn : 2 ≤ n) :
  ∃ h s, (table n).Reachable (Creates True) h s ∧ s.mem.exited = false ∧
    s.loc (some ⟨0, by omega⟩) = .waitLock ∧ s.mem.waitMutex.destroyed = true
  := by
  have hgo : ∀ s : Global (Party n) (Mem n) Pc, Creates True s (none, .go) := fun _ _ => trivial
  obtain ⟨h, l, hs, hmain, hborn⟩ := reach_created (n := n) hgo (k := 1) (by omega)
  obtain ⟨h₁, hs₁⟩ := reach_solo hs (hborn ⟨0, by omega⟩) (creates_go _ 4)
    (solo_waits rfl Nat.one_pos rfl)
  have hcreate : Function.update l (some ⟨0, by omega⟩) .waitLock none = .create 1 := by
    rw [Function.update_of_ne (by simp), hmain]
  obtain ⟨h₂, hs₂⟩ := reach_solo hs₁ hcreate (fun _ _ _ _ => trivial) (solo_fails (by omega) rfl)
  have hpc : Function.update (Function.update l (some ⟨0, by omega⟩) .waitLock) none
      (.destroy 2 1) (some ⟨0, by omega⟩) = .waitLock := by simp
  exact ⟨h₂, _, hs₂, rfl, hpc, rfl⟩

/-- At a table of less than five the last philosopher tests a chopstick beyond the vector. -/
theorem reach_beyond {mayFail : Prop} (hn : 2 ≤ n) (hn' : n < 5) :
  ∃ h s, (table n).Reachable (Creates mayFail) h s ∧ ¬ Sound s
  := by
  have hgo : ∀ s : Global (Party n) (Mem n) Pc, Creates mayFail s (none, .go) := by
    rintro s ⟨⟩
  obtain ⟨h, l, hs, -, hborn⟩ := reach_created hgo (k := n) le_rfl
  obtain ⟨h₁, hs₁⟩ := reach_solo hs (hborn ⟨n - 1, by omega⟩) (creates_go _ 4)
    (solo_waits rfl (by show n - 1 < n; omega) rfl)
  have hseat : (0 : ℤ) ≠ n - 1 := by omega
  obtain ⟨h₂, hs₂⟩ := reach_solo hs₁ (Function.update_self _ _ _) (creates_go _ 6)
    (solo_right rfl rfl rfl hseat rfl)
  have hbeyond : n ≤ (n - 1 + 1) % 5 := by
    rw [Nat.sub_add_cancel (by omega), Nat.mod_eq_of_lt hn']
  refine ⟨h₂, _, hs₂, Sound.not_beyond (Function.update_self _ _ _) hbeyond⟩

/-- With `exit_flag` set the first philosophers return without having started. -/
theorem reach_returned {mayFail : Prop} {h : List (Party n × Event)} {m : Mem n}
    {l : Party n → Pc} (hs : (table n).Reachable (Creates mayFail) h ⟨m, l⟩)
    (hrun : m.exited = false) (hcreated : m.created = n) (hflag : m.exitFlag = true) {k : ℕ}
    (hk : k ≤ n) (hborn : ∀ tid : Fin n, tid.val < k → l (some tid) = .unborn) :
  ∃ h' l' returned, (table n).Reachable (Creates mayFail) h' ⟨{ m with returned }, l'⟩ ∧
    (∀ i < k, ∃ tid ∈ returned, tid.val = i) ∧
    ∀ i, (∀ tid : Fin n, i = some tid → k ≤ tid.val) → l' i = l i
  := by
  induction k with
  | zero => exact ⟨h, l, m.returned, hs, by simp, fun _ _ => rfl⟩
  | succ k ih =>
      obtain ⟨h', l', returned, hs', hin, hout⟩ := ih (by omega) (by
        intro tid htid
        apply hborn tid (by omega))
      have hpc : l' (some ⟨k, hk⟩) = .unborn := by
        rw [hout, hborn _ (Nat.lt_succ_self k)]
        rintro _ ⟨⟩
        rfl
      obtain ⟨h'', hs''⟩ := reach_solo hs' hpc (creates_go _ 2)
        (solo_returns hrun (Nat.lt_of_lt_of_eq hk hcreated.symm) hflag)
      refine ⟨h'', _, _, hs'', ?_, ?_⟩
      · intro i hi
        rcases Nat.lt_succ_iff_lt_or_eq.mp hi with hlt | rfl
        · obtain ⟨tid, htid, hval⟩ := hin i hlt
          exact ⟨tid, Finset.mem_insert_of_mem htid, hval⟩
        · exact ⟨_, Finset.mem_insert_self _ _, rfl⟩
      · intro i hi
        rw [Function.update_of_ne, hout]
        · intro tid htid
          have := hi tid htid
          omega
        · rintro rfl
          have := hi _ rfl
          simp at this

/-- At a table of more than five the first five philosophers return, `main` joins them and
destroys the mutexes, and the philosopher `5` is about to lock one. -/
theorem reach_destroyed {mayFail : Prop} (hn : 6 ≤ n) :
  ∃ h s, ∃ tid : Fin n, tid.val = 5 ∧ (table n).Reachable (Creates mayFail) h s ∧
    s.mem.exited = false ∧ s.loc (some tid) = .waitLock ∧ s.mem.waitMutex.destroyed = true
  := by
  have hgo : ∀ s : Global (Party n) (Mem n) Pc, Creates mayFail s (none, .go) := by
    rintro s ⟨⟩
  obtain ⟨h, l, hs, hmain, hborn⟩ := reach_created hgo (k := n) le_rfl
  obtain ⟨h₁, hs₁⟩ := reach_solo hs (hborn ⟨5, by omega⟩) (creates_go _ 4)
    (solo_waits rfl (by show 5 < n; omega) rfl)
  have hquits : ∀ c ∈ [Choice.go, .quit, .go, .go, .go], ∀ s : Global (Party n) (Mem n) Pc,
      Creates mayFail s (none, c) := by
    rintro c hc s ⟨⟩
    simp at hc
  have hcreate : Function.update l (some ⟨5, by omega⟩) .waitLock none = .create n := by
    rw [Function.update_of_ne (by simp), hmain]
  obtain ⟨h₂, hs₂⟩ := reach_solo hs₁ hcreate hquits (solo_quits rfl rfl)
  obtain ⟨h₃, l₃, returned, hs₃, hreturned, hsame⟩ := reach_returned hs₂ rfl rfl rfl
    (k := 5) (by omega) (by
      intro tid htid
      rw [Function.update_of_ne (by simp), Function.update_of_ne, hborn]
      rintro ⟨⟩
      simp at htid)
  have hjoin : l₃ none = .join 0 := by
    rw [hsame none (by rintro _ ⟨⟩)]
    apply Function.update_self
  have hfive : l₃ (some ⟨5, by omega⟩) = .waitLock := by
    rw [hsame]
    · simp
    · rintro _ ⟨⟩
      rfl
  obtain ⟨h₄, hs₄⟩ := reach_solo hs₃ hjoin (creates_go _ 8) (solo_joins rfl hreturned)
  have hstay : Function.update l₃ none (.destroy 2 0) (some ⟨5, by omega⟩) = .waitLock := by
    rw [Function.update_of_ne (by simp), hfive]
  exact ⟨h₄, _, _, rfl, hs₄, rfl, hstay, rfl⟩

/-- Sizes, indices and joins agree exactly at a table of five all of whose threads can be
created. -/
theorem sound_iff (hn : 2 ≤ n) (mayFail : Prop) :
  (∀ (h : List (Party n × Event)) (s : Global (Party n) (Mem n) Pc),
      (table n).Reachable (Creates mayFail) h s → Sound s)
    ↔ n = 5 ∧ ¬ mayFail
  := by
  constructor
  · intro hall
    constructor
    · by_contra hne
      rcases Nat.lt_or_gt_of_ne hne with hlt | hgt
      · obtain ⟨h, s, hs, hunsound⟩ := reach_beyond hn hlt
        apply hunsound (hall h s hs)
      · obtain ⟨h, s, tid, -, hs, hrun, hpc, hdestroyed⟩ := reach_destroyed hgt
        apply Sound.not_waiting hrun hpc hdestroyed (hall h s hs)
    · intro hfail
      rw [eq_true hfail] at hall
      obtain ⟨h, s, hs, hrun, hpc, hdestroyed⟩ := reach_failure hn
      apply Sound.not_waiting hrun hpc hdestroyed (hall h s hs)
  · rintro ⟨rfl, hnone⟩ h s hs
    rw [eq_false hnone] at hs
    apply sound_five hs

/-- At a table of five, all created, the philosopher `0` comes to test its right chopstick. -/
theorem sound_five_right :
  ∃ h s, (table 5).Reachable (Creates False) h s ∧ s.loc (some 0) = .rightTest ∧ Sound s
  := by
  have hgo : ∀ s : Global (Party 5) (Mem 5) Pc, Creates False s (none, .go) := by
    rintro s ⟨⟩
  obtain ⟨h, l, hs, -, hborn⟩ := reach_created hgo (k := 5) le_rfl
  obtain ⟨h₁, hs₁⟩ := reach_solo hs (hborn 0) (creates_go _ 4)
    (solo_waits rfl (by show 0 < 5; omega) rfl)
  obtain ⟨h₂, hs₂⟩ := reach_solo hs₁ (Function.update_self _ _ _) (creates_go _ 6)
    (solo_right rfl rfl rfl (by show (0 : ℤ) ≠ 5 - 1; omega) rfl)
  have hpc : Function.update (Function.update l (some 0) .waitLock) (some 0) .rightTest
      (some (0 : Fin 5)) = .rightTest := Function.update_self _ _ _
  exact ⟨h₂, _, hs₂, hpc, (sound_iff (by omega) False).mpr ⟨rfl, id⟩ h₂ _ hs₂⟩

/-- Six philosophers, all created: the philosopher `5` meets the destroyed `wait_mutex`. -/
theorem unsound_six :
  ∃ h s, (table 6).Reachable (Creates False) h s ∧ s.mem.exited = false ∧
    s.loc (some 5) = .waitLock ∧ s.mem.waitMutex.destroyed = true ∧ ¬ Sound s
  := by
  obtain ⟨h, s, tid, htid, hs, hrun, hpc, hdestroyed⟩ := reach_destroyed (n := 6) le_rfl
  obtain rfl : tid = 5 := Fin.ext htid
  exact ⟨h, s, hs, hrun, hpc, hdestroyed, Sound.not_waiting hrun hpc hdestroyed⟩

end Version4

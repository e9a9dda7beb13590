import ParallelArch.Philosophers.Version4

/-!
# Neighbours at the table of version 4

A philosopher holds the chopstick `tid` from the moment it clears that flag to the moment
it sets it again, and the chopstick `(tid + 1) % 5` likewise.  For every number of
philosophers a flag is cleared exactly while a philosopher holds that chopstick, and no two
philosophers hold the same one (`Table`).

At a table of five this keeps neighbours from eating together.  At a larger table the
philosophers `4` and `5` share no chopstick: `4` takes `4` and `0`, and `5` takes `5` and
`1`.
-/

namespace Version4

variable {n : ℕ}

/-! ### The invariant -/

/-- The section under `mutex`. -/
def Pc.insideTable : Pc → Prop
  | .leftTest | .rightTest | .tableSpin | .takeLeft | .takeRight | .tableUnlock => True
  | .giveLeft | .giveRight | .giveUnlock => True
  | _ => False

/-- The philosopher `tid` holds the chopstick `k`. -/
def Pc.holds (tid k : ℕ) : Pc → Prop
  | .takeRight => k = tid
  | .tableUnlock | .leaveLock | .leaveCount | .leaveUnlock | .eat | .giveLock | .giveLeft =>
      k = tid ∨ k = (tid + 1) % 5
  | .giveRight => k = (tid + 1) % 5
  | _ => False

/-- The eating section: the philosopher has taken both chopsticks and given back
neither. -/
def Pc.eating : Pc → Prop
  | .tableUnlock | .leaveLock | .leaveCount | .leaveUnlock | .eat | .giveLock | .giveLeft =>
      True
  | _ => False

/-- What a philosopher under `mutex` knows of its chopsticks. -/
def Pc.knows (chopsticks : ℕ → Bool) (tid : ℕ) : Pc → Prop
  | .rightTest => chopsticks tid = true
  | .takeLeft => chopsticks tid = true ∧ chopsticks ((tid + 1) % 5) = true
  | .takeRight => chopsticks ((tid + 1) % 5) = true
  | _ => True

/-- The state of the table. -/
structure Table (m : Mem n) (l : Party n → Pc) : Prop where
  guards : Guards m.mutex.holder Pc.insideTable l
  flags : ∀ k, m.chopsticks k = false ↔ ∃ tid : Fin n, (l (some tid)).holds tid k
  single : ∀ tid tid' : Fin n, ∀ k, (l (some tid)).holds tid k →
    (l (some tid')).holds tid' k → tid = tid'
  knows : ∀ tid : Fin n, (l (some tid)).knows m.chopsticks tid

theorem Pc.knows_of_outside {chopsticks : ℕ → Bool} {tid : ℕ} {pc : Pc}
    (h : ¬ pc.insideTable) :
  pc.knows chopsticks tid
  := by
  cases pc with
  | rightTest | takeLeft | takeRight => exact absurd trivial h
  | _ => trivial

theorem Pc.holds_of_eating {pc : Pc} (h : pc.eating) (tid k : ℕ) :
  pc.holds tid k ↔ k = tid ∨ k = (tid + 1) % 5
  := by
  cases pc <;> cases h <;> rfl

section Keep

variable {m m' : Mem n} {l : Party n → Pc}

/-- A thread moves without touching the chopsticks. -/
theorem Table.move (h : Table m l) {i : Party n} {pc : Pc}
    (hguards : Guards m'.mutex.holder Pc.insideTable (Function.update l i pc))
    (hsticks : m'.chopsticks = m.chopsticks)
    (hholds : ∀ tid : Fin n, i = some tid → ∀ k, pc.holds tid k ↔ (l i).holds tid k)
    (hknows : ∀ tid : Fin n, i = some tid → pc.knows m.chopsticks tid) :
  Table m' (Function.update l i pc)
  := by
  have same : ∀ (tid : Fin n) k, (Function.update l i pc (some tid)).holds tid k
      ↔ (l (some tid)).holds tid k := by
    intro tid k
    rcases eq_or_ne (some tid) i with rfl | hne
    · rw [Function.update_self, hholds tid rfl]
    · rw [Function.update_of_ne hne]
  use hguards
  · intro k
    simp only [same, hsticks]
    apply h.flags
  · intro tid tid' k
    rw [same, same]
    apply h.single
  · intro tid
    rw [hsticks]
    rcases eq_or_ne (some tid) i with rfl | hne
    · rw [Function.update_self]
      apply hknows tid rfl
    · rw [Function.update_of_ne hne]
      apply h.knows

/-- Another philosopher knows nothing while `tid` is under `mutex`. -/
theorem Table.knows_other (h : Table m l) {tid tid' : Fin n} {pc : Pc}
    (hin : (l (some tid)).insideTable) (hne : tid' ≠ tid) (chopsticks : ℕ → Bool) :
  (Function.update l (some tid) pc (some tid')).knows chopsticks tid'
  := by
  rw [Function.update_of_ne]
  · apply Pc.knows_of_outside
    intro hin'
    apply hne
    apply Option.some.inj (h.guards.exclusive hin' hin)
  · simpa using hne

/-- A philosopher under `mutex` takes the free chopstick `k`. -/
theorem Table.take (h : Table m l) {tid : Fin n} {pc : Pc} {k : ℕ}
    (hguards : Guards m'.mutex.holder Pc.insideTable (Function.update l (some tid) pc))
    (hin : (l (some tid)).insideTable) (hfree : m.chopsticks k = true)
    (hsticks : m'.chopsticks = Function.update m.chopsticks k false)
    (hholds : ∀ k', pc.holds tid k' ↔ (l (some tid)).holds tid k' ∨ k' = k)
    (hknows : pc.knows m'.chopsticks tid) :
  Table m' (Function.update l (some tid) pc)
  := by
  have unheld : ∀ tid' : Fin n, ¬ (l (some tid')).holds tid' k := by
    intro tid' hk
    have hcleared := (h.flags k).mpr ⟨tid', hk⟩
    rw [hfree] at hcleared
    cases hcleared
  have holds : ∀ (tid' : Fin n) k', (Function.update l (some tid) pc (some tid')).holds tid' k'
      ↔ (l (some tid')).holds tid' k' ∨ tid' = tid ∧ k' = k := by
    intro tid' k'
    rcases eq_or_ne tid' tid with rfl | hne
    · simp [hholds]
    · rw [Function.update_of_ne (by simpa using hne)]
      simp [hne]
  use hguards
  · intro k'
    simp only [holds, hsticks]
    rcases eq_or_ne k' k with rfl | hne
    · simp only [Function.update_self, true_iff]
      use tid
      simp
    · rw [Function.update_of_ne hne, h.flags]
      simp [hne]
  · intro i j k'
    rw [holds, holds]
    rintro (hi | ⟨hi, hk⟩) (hj | ⟨hj, hk'⟩)
    · apply h.single i j k' hi hj
    · cases unheld i (hk' ▸ hi)
    · cases unheld j (hk ▸ hj)
    · rw [hi, hj]
  · intro tid'
    rcases eq_or_ne tid' tid with rfl | hne
    · rwa [Function.update_self]
    · apply h.knows_other hin hne

/-- A philosopher under `mutex` gives back the chopstick `k` it holds. -/
theorem Table.give (h : Table m l) {tid : Fin n} {pc : Pc} {k : ℕ}
    (hguards : Guards m'.mutex.holder Pc.insideTable (Function.update l (some tid) pc))
    (hin : (l (some tid)).insideTable) (hheld : (l (some tid)).holds tid k)
    (hsticks : m'.chopsticks = Function.update m.chopsticks k true)
    (hholds : ∀ k', pc.holds tid k' ↔ (l (some tid)).holds tid k' ∧ k' ≠ k)
    (hknows : pc.knows m'.chopsticks tid) :
  Table m' (Function.update l (some tid) pc)
  := by
  have holds : ∀ (tid' : Fin n) k', (Function.update l (some tid) pc (some tid')).holds tid' k'
      ↔ (l (some tid')).holds tid' k' ∧ k' ≠ k := by
    intro tid' k'
    rcases eq_or_ne tid' tid with rfl | hne
    · rw [Function.update_self, hholds]
    · rw [Function.update_of_ne (by simpa using hne), iff_self_and]
      rintro hk' rfl
      apply hne
      apply h.single _ _ _ hk' hheld
  use hguards
  · intro k'
    simp only [holds, hsticks]
    rcases eq_or_ne k' k with rfl | hne
    · simp
    · rw [Function.update_of_ne hne, h.flags]
      simp [hne]
  · intro i j k'
    rw [holds, holds]
    rintro ⟨hi, -⟩ ⟨hj, -⟩
    apply h.single i j k' hi hj
  · intro tid'
    rcases eq_or_ne tid' tid with rfl | hne
    · rwa [Function.update_self]
    · apply h.knows_other hin hne

/-- A philosopher moves within the section under `mutex`, or outside it. -/
theorem Table.quiet (h : Table m l) {tid : Fin n} {pc pc' : Pc} (hpc : l (some tid) = pc)
    (hmutex : m'.mutex.holder = m.mutex.holder) (hsticks : m'.chopsticks = m.chopsticks)
    (hin : pc'.insideTable ↔ pc.insideTable) (hholds : ∀ k, pc'.holds tid k ↔ pc.holds tid k)
    (hknows : pc'.knows m.chopsticks tid) :
  Table m' (Function.update l (some tid) pc')
  := by
  subst hpc
  apply h.move _ hsticks
  · rintro _ ⟨⟩
    apply hholds
  · rintro _ ⟨⟩
    apply hknows
  · rw [hmutex]
    apply h.guards.keep hin

/-- A philosopher locks `mutex`. -/
theorem Table.enter (h : Table m l) {tid : Fin n} {pc pc' : Pc} (hpc : l (some tid) = pc)
    (hfree : m.mutex = .init) (hmutex : m'.mutex.holder = some (some tid))
    (hsticks : m'.chopsticks = m.chopsticks) (hin : pc'.insideTable)
    (hholds : ∀ k, pc'.holds tid k ↔ pc.holds tid k) (hknows : pc'.knows m.chopsticks tid) :
  Table m' (Function.update l (some tid) pc')
  := by
  subst hpc
  apply h.move _ hsticks
  · rintro _ ⟨⟩
    apply hholds
  · rintro _ ⟨⟩
    apply hknows
  · have hguards := h.guards
    rw [hfree] at hguards
    rw [hmutex]
    apply hguards.acquire hin

/-- A philosopher unlocks `mutex`. -/
theorem Table.exit (h : Table m l) {tid : Fin n} {pc pc' : Pc} (hpc : l (some tid) = pc)
    (hin : pc.insideTable) (hmutex : m'.mutex.holder = none)
    (hsticks : m'.chopsticks = m.chopsticks) (hout : ¬ pc'.insideTable)
    (hholds : ∀ k, pc'.holds tid k ↔ pc.holds tid k) :
  Table m' (Function.update l (some tid) pc')
  := by
  subst hpc
  apply h.move _ hsticks
  · rintro _ ⟨⟩
    apply hholds
  · rintro _ ⟨⟩
    apply Pc.knows_of_outside hout
  · rw [hmutex]
    apply h.guards.release hin hout

theorem left_ne_right (tid : ℕ) :
  tid ≠ (tid + 1) % 5
  := by omega

/-- Every step of a philosopher keeps the table in order. -/
theorem Table.philosopher (h : Table m l) {tid : Fin n} {o : Outcome (Mem n) Pc Event}
    (ho : thinkingAndEating tid m (l (some tid)) = some o) :
  Table o.mem (Function.update l (some tid) o.loc)
  := by
  have hknows := h.knows tid
  have hmoves := thinkingAndEating_moves ho
  have inside : ∀ {pc'}, (l (some tid)).insideTable → pc'.insideTable →
      Guards m.mutex.holder Pc.insideTable (Function.update l (some tid) pc') := by
    intro pc' hin hin'
    apply h.guards.keep (iff_of_true hin' hin)
  have hne := left_ne_right tid
  generalize hpc : l (some tid) = pc at hmoves hknows
  cases hmoves with
  | tableLock hfree | giveLock hfree =>
      exact h.enter hpc hfree rfl rfl trivial (fun _ => Iff.rfl) trivial
  | tableSpin | tableUnlock | giveUnlock =>
      exact h.exit hpc trivial rfl rfl id (fun _ => Iff.rfl)
  | leftFree hleft => exact h.quiet hpc rfl rfl Iff.rfl (fun _ => Iff.rfl) hleft
  | rightFree hright =>
      exact h.quiet hpc rfl rfl Iff.rfl (fun _ => Iff.rfl) ⟨hknows, hright⟩
  | takeLeft =>
      have hin : (l (some tid)).insideTable := by
        rw [hpc]
        trivial
      refine h.take (inside hin trivial) hin hknows.1 rfl ?_ ?_
      · simp [hpc, Pc.holds]
      · simp only [Pc.knows]
        rw [Function.update_of_ne hne.symm]
        apply hknows.2
  | takeRight =>
      have hin : (l (some tid)).insideTable := by
        rw [hpc]
        trivial
      refine h.take (inside hin trivial) hin hknows rfl ?_ ?_
      · simp [hpc, Pc.holds]
      · trivial
  | giveLeft =>
      have hin : (l (some tid)).insideTable := by
        rw [hpc]
        trivial
      refine h.give (inside hin trivial) hin ?_ rfl ?_ ?_
      · simp [hpc, Pc.holds]
      · intro k
        simp only [hpc, Pc.holds]
        omega
      · trivial
  | giveRight =>
      have hin : (l (some tid)).insideTable := by
        rw [hpc]
        trivial
      refine h.give (inside hin trivial) hin ?_ rfl ?_ ?_
      · simp [hpc, Pc.holds]
      · simp [hpc, Pc.holds]
      · trivial
  | _ => exact h.quiet hpc rfl rfl Iff.rfl (fun _ => Iff.rfl) trivial

theorem Pc.inMain.away {pc : Pc} (h : pc.inMain) :
  ¬ pc.insideTable ∧ ∀ tid k, ¬ pc.holds tid k
  := by
  cases pc <;> cases h <;> simp [Pc.insideTable, Pc.holds]

/-- Every step of `main` keeps the table in order. -/
theorem Table.main (h : Table m l) {choice : Choice} {o : Outcome (Mem n) Pc Event}
    (ho : Version4.main m (l none) choice = some o) :
  Table o.mem (Function.update l none o.loc)
  := by
  obtain ⟨hin, hin', -, hsticks, hmutex, -⟩ := main_frame ho
  apply h.move _ hsticks
  · rintro _ ⟨⟩
  · rintro _ ⟨⟩
  · rw [hmutex]
    apply h.guards.keep (iff_of_false hin'.away.1 hin.away.1)

end Keep

/-- In every reachable state the table is in order, whatever the number of
philosophers. -/
theorem reachable_table {h : List (Party n × Event)} {s : Global (Party n) (Mem n) Pc}
    (hs : (table n).Reachable Machine.Free h s) :
  Table s.mem s.loc
  := by
  apply threads_invariant (I := fun m l _ => Table m l) _ _ hs
  · rintro m l ⟨rfl, hmain, hborn⟩
    constructor
    · apply Guards.of_outside
      rintro (_ | tid)
      · rw [hmain]
        exact id
      · rw [hborn tid]
        exact id
    · simp [Mem.new, hborn, Pc.holds]
    · intro tid tid' k hk
      rw [hborn tid] at hk
      cases hk
    · intro tid
      rw [hborn tid]
      trivial
  · intro m l h i choice o hI _ ho
    simp only [step, Option.ite_none_left_eq_some] at ho
    obtain ⟨-, ho⟩ := ho
    cases i with
    | none => exact hI.main ho
    | some tid => exact hI.philosopher ho

/-! ### A table of another size -/

/-- A philosopher runs alone from its birth to the eating section when it finds both mutexes
and its chopsticks free and a seat. -/
theorem solo_eats {tid : Fin n} {m : Mem n} (hrun : m.exited = false)
    (hcreated : tid.val < m.created) (hflag : m.exitFlag = false) (hwait : m.waitMutex = .init)
    (hmutex : m.mutex = .init) (hseat : m.count ≠ n - 1) (hleft : m.chopsticks tid = true)
    (hright : m.chopsticks ((tid.val + 1) % 5) = true) :
  solo (step n) (some tid) (List.replicate 14 .go) m .unborn = some
    { mem := { m with
        count := m.count + 1
        chopsticks := Function.update (Function.update m.chopsticks tid.val false)
          ((tid.val + 1) % 5) false },
      loc := .leaveLock,
      events := [.thinking, .hungry] }
  := by
  simp [solo, step, thinkingAndEating, List.replicate, Mutex.lock, Mutex.unlock, Mutex.init,
    hrun, hcreated, hflag, hwait, hmutex, hseat, hleft, hright]

/-- `main` creates `k` more threads. -/
theorem solo_create {k : ℕ} :
  ∀ {i : ℕ}, i + k ≤ n →
    solo (step n) none (List.replicate k .go) { Mem.new n with created := i } (.create i) = some
      { mem := { Mem.new n with created := i + k }, loc := .create (i + k) }
  := by
  induction k with
  | zero =>
      intro i _
      rfl
  | succ k ih =>
      intro i hi
      have hlt : i < n := by omega
      have hrest := ih (i := i + 1) (by omega)
      rw [Nat.add_right_comm, Nat.add_assoc] at hrest
      simp only [Mem.new] at hrest
      simp [solo, step, main, List.replicate, Mem.new, hlt, hrest]

/-- The same from a reachable state. -/
theorem reach_eats (tid : Fin n) {h : List (Party n × Event)} {m : Mem n} {l : Party n → Pc}
    (hs : (table n).Reachable Machine.Free h ⟨m, l⟩) (hborn : l (some tid) = .unborn)
    (hrun : m.exited = false) (hcreated : tid.val < m.created) (hflag : m.exitFlag = false)
    (hwait : m.waitMutex = .init) (hmutex : m.mutex = .init) (hseat : m.count ≠ n - 1)
    (hleft : m.chopsticks tid = true) (hright : m.chopsticks ((tid.val + 1) % 5) = true) :
  ∃ h', (table n).Reachable Machine.Free h'
    ⟨{ m with
        count := m.count + 1
        chopsticks := Function.update (Function.update m.chopsticks tid.val false)
          ((tid.val + 1) % 5) false },
      Function.update l (some tid) .leaveLock⟩
  := by
  have hsolo := solo_eats hrun hcreated hflag hwait hmutex hseat hleft hright
  rw [← hborn] at hsolo
  exact ⟨_, hs.trans (solo_run hsolo)⟩

/-- `main` creates the first `k` philosophers. -/
theorem reach_created {G : Global (Party n) (Mem n) Pc → Party n × Choice → Prop}
    (hG : ∀ s, G s (none, .go)) {k : ℕ} (hk : k ≤ n) :
  ∃ h l, (table n).Reachable G h ⟨{ Mem.new n with created := k }, l⟩ ∧
    l none = .create k ∧ ∀ tid, l (some tid) = .unborn
  := by
  have hinit : (table n).Initial ⟨.new n, fun i => if i = none then .create 0 else .unborn⟩ :=
    ⟨rfl, rfl, fun _ => rfl⟩
  have hcreate := solo_create (n := n) (k := k) (i := 0) (by omega)
  rw [Nat.zero_add] at hcreate
  have hgo : ∀ c ∈ List.replicate k Choice.go, ∀ s, G s (none, c) := by
    intro c hc
    rw [List.eq_of_mem_replicate hc]
    apply hG
  have hmain : (table n).Reachable G _ _ := ⟨_, hinit, solo_run_guarded hgo hcreate⟩
  refine ⟨_, _, hmain, ?_, ?_⟩
  · apply Function.update_self
  · intro tid
    rfl

/-- With six philosophers or more the philosophers `4` and `5` eat together. -/
theorem neighbours_eat (hn : 6 ≤ n) :
  ∃ (h : List (Party n × Event)) (s : Global (Party n) (Mem n) Pc),
    (table n).Reachable Machine.Free h s ∧ (s.loc (some ⟨4, by omega⟩)).eating ∧
      (s.loc (some ⟨5, by omega⟩)).eating
  := by
  have hseat : (0 : ℤ) ≠ n - 1 ∧ (0 + 1 : ℤ) ≠ n - 1 := by omega
  obtain ⟨h, l, hmain, -, hborn⟩ := reach_created (G := Machine.Free) (fun _ => trivial) hn
  obtain ⟨h₄, hs₄⟩ := reach_eats ⟨4, by omega⟩ hmain (hborn _) rfl (Nat.lt_of_sub_eq_succ rfl)
    rfl rfl rfl hseat.1 rfl rfl
  obtain ⟨h₅, hs₅⟩ := reach_eats ⟨5, by omega⟩ hs₄ (by simp [hborn]) rfl
    (Nat.lt_of_sub_eq_succ rfl) rfl rfl rfl hseat.2 (by simp [Mem.new]) (by simp [Mem.new])
  refine ⟨h₅, _, hs₅, ?_⟩
  simp [Pc.eating]

/-! ### The claim of the table -/

/-- Exactly a table of five keeps neighbours from eating together. -/
theorem neighbours_exclusive_iff (hn : 5 ≤ n) :
  (∀ (h : List (Party n × Event)) (s : Global (Party n) (Mem n) Pc),
      (table n).Reachable Machine.Free h s → ∀ i j : Fin n, j.val = (i.val + 1) % n →
        ¬ ((s.loc (some i)).eating ∧ (s.loc (some j)).eating))
    ↔ n = 5
  := by
  constructor
  · intro hall
    by_contra hne
    obtain ⟨h, s, hs, h4, h5⟩ := neighbours_eat (n := n) (by omega)
    apply hall h s hs _ _ _ ⟨h4, h5⟩
    simp only
    rw [Nat.mod_eq_of_lt]
    omega
  · rintro rfl h s hs i j hj ⟨hi, hj'⟩
    have hshared := (reachable_table hs).single i j j.val
    rw [Pc.holds_of_eating hi, Pc.holds_of_eating hj'] at hshared
    have hij := congrArg Fin.val (hshared (.inr hj) (.inl rfl))
    have := left_ne_right i
    omega

/-- At a table of five the philosopher `0` eats, and `1` does not. -/
theorem neighbours_exclusive_five :
  ∃ (h : List (Party 5 × Event)) (s : Global (Party 5) (Mem 5) Pc),
    (table 5).Reachable Machine.Free h s ∧ (s.loc (some 0)).eating ∧ ¬ (s.loc (some 1)).eating
  := by
  obtain ⟨h, l, hmain, -, hborn⟩ :=
    reach_created (n := 5) (G := Machine.Free) (fun _ => trivial) le_rfl
  obtain ⟨h₀, hs₀⟩ := reach_eats 0 hmain (hborn 0) rfl (Nat.lt_of_sub_eq_succ rfl) rfl rfl rfl
    (by simp [Mem.new]) rfl rfl
  have heats : (Function.update l (some (0 : Fin 5)) .leaveLock (some 0)).eating := by
    rw [Function.update_self]
    trivial
  refine ⟨h₀, _, hs₀, heats, ?_⟩
  intro hnext
  apply (neighbours_exclusive_iff le_rfl).mpr rfl h₀ _ hs₀ 0 1 rfl ⟨heats, hnext⟩

/-- Six philosophers: `4` and `5` are neighbours. -/
theorem neighbours_eat_six :
  ∃ (h : List (Party 6 × Event)) (s : Global (Party 6) (Mem 6) Pc),
    (table 6).Reachable Machine.Free h s ∧ (s.loc (some 4)).eating ∧ (s.loc (some 5)).eating
  := neighbours_eat le_rfl

end Version4

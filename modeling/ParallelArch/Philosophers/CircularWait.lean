import ParallelArch.Philosophers.Version1

/-!
# Circular wait in version 1

A philosopher holds its own chopstick from `ownLock` to `ownUnlock` and the next one from
`secondLock` to `secondUnlock`, and it is counted from `count++` to `count--`.  All five are
counted exactly when all five hold their own chopstick and none holds a second one: whoever
holds a second one keeps its neighbour from holding its own, so a counted neighbour must hold
a second one too, and they never all do (`Ring`).

So the alarm is raised in a circular wait only, and in every other state some philosopher can
move (`detector_exact`).
-/

namespace Version1

/-! ### The invariant -/

/-- The philosopher is between `count++` and `count--`. -/
def Pc.counted : Pc → Bool
  | .countTest | .deadLock | .destroy _ | .waitUnlock | .secondLock | .eat | .ownUnlock
  | .leaveLock | .countDown => true
  | _ => false

/-- The section under `wait_mutex`. -/
def Pc.insideWait : Pc → Prop
  | .countUp | .countTest | .deadLock | .destroy _ | .waitUnlock | .countDown | .leaveUnlock =>
      True
  | _ => False

/-- The philosopher executes a branch that prints `DeadLock!`. -/
def Pc.alarming : Pc → Prop
  | .headDeadLock | .headExit | .deadLock | .destroy _ => True
  | _ => False

/-- One for a counted philosopher. -/
def Pc.weight (pc : Pc) : ℕ := if pc.counted then 1 else 0

/-- The philosophers with their places at the table. -/
def seats (l : Fin 5 → Pc) (tid : Fin 5) : Fin 5 × Pc := (tid, l tid)

/-- Chopsticks and `wait_mutex` are held where the code says so, and `count` counts. -/
structure Held (m : Mem) (l : Fin 5 → Pc) : Prop where
  chopsticks : ∀ k, Guards (m.mutex k).holder (holds k) (seats l)
  guards : Guards m.waitMutex.holder Pc.insideWait l
  alive : m.waitMutex.destroyed = false
  count : m.count = total Pc.weight l

theorem seats_update (l : Fin 5 → Pc) (tid : Fin 5) (pc : Pc) :
  seats (Function.update l tid pc) = Function.update (seats l) tid (tid, pc)
  := by
  funext i
  rcases eq_or_ne i tid with rfl | hne
  · simp [seats]
  · simp [seats, Function.update_of_ne hne]

theorem next_ne :
  ∀ tid : Fin 5, tid + 1 ≠ tid
  := by decide

theorem holder_destroy {f : Fin 5 → Mutex (Fin 5)} (i k : Fin 5) :
  (Function.update f i (f i).destroy k).holder = (f k).holder
  := by
  rcases eq_or_ne k i with rfl | hne
  · rw [Function.update_self]
    rfl
  · rw [Function.update_of_ne hne]

section Keep

variable {m m' : Mem} {l : Fin 5 → Pc} {tid : Fin 5} {pc pc' : Pc}

/-- A philosopher moves and leaves the chopsticks where they are. -/
theorem Held.keep_chopsticks (h : Held m l) (hpc : l tid = pc)
    (hmutex : ∀ k, (m'.mutex k).holder = (m.mutex k).holder) (hown : pc'.own ↔ pc.own)
    (hsecond : pc'.second ↔ pc.second) (k : Fin 5) :
  Guards (m'.mutex k).holder (holds k) (seats (Function.update l tid pc'))
  := by
  rw [seats_update, hmutex]
  apply (h.chopsticks k).keep
  simp [holds, seats, hpc, hown, hsecond]

/-- A philosopher takes the free chopstick `k`. -/
theorem Held.take (h : Held m l) (hpc : l tid = pc) {k : Fin 5} (hfree : m.mutex k = .init)
    (hholds : ∀ k', holds k' (tid, pc') ↔ holds k' (tid, pc) ∨ k' = k) (k' : Fin 5) :
  Guards (Function.update m.mutex k ⟨some tid, false⟩ k').holder (holds k')
    (seats (Function.update l tid pc'))
  := by
  rw [seats_update]
  have hguards := h.chopsticks k'
  rcases eq_or_ne k' k with rfl | hne
  · rw [hfree] at hguards
    rw [Function.update_self]
    apply hguards.acquire
    rw [hholds]
    exact .inr rfl
  · rw [Function.update_of_ne hne]
    apply hguards.keep
    simp [hholds, hne, seats, hpc]

/-- A philosopher gives back the chopstick `k`. -/
theorem Held.give (h : Held m l) (hpc : l tid = pc) {k : Fin 5} (hheld : holds k (tid, pc))
    (hholds : ∀ k', holds k' (tid, pc') ↔ holds k' (tid, pc) ∧ k' ≠ k) (k' : Fin 5) :
  Guards (Function.update m.mutex k .init k').holder (holds k')
    (seats (Function.update l tid pc'))
  := by
  rw [seats_update]
  have hguards := h.chopsticks k'
  rcases eq_or_ne k' k with rfl | hne
  · rw [Function.update_self]
    apply hguards.release
    · rwa [seats, hpc]
    · simp [hholds]
  · rw [Function.update_of_ne hne]
    apply hguards.keep
    simp [hholds, hne, seats, hpc]

theorem Held.keep_count (h : Held m l) (hpc : l tid = pc)
    (hcount : m'.count + pc.weight = m.count + pc'.weight) :
  m'.count = total Pc.weight (Function.update l tid pc')
  := by
  have htotal := total_update Pc.weight l tid pc'
  have := h.count
  rw [hpc] at htotal
  omega

/-- A philosopher takes or gives back a chopstick. -/
theorem Held.swap (h : Held m l) (hpc : l tid = pc)
    (hmutex : ∀ k, Guards (m'.mutex k).holder (holds k) (seats (Function.update l tid pc')))
    (hwait : m'.waitMutex = m.waitMutex) (hcount : m'.count = m.count)
    (hin : pc'.insideWait ↔ pc.insideWait) (hweight : pc'.weight = pc.weight) :
  Held m' (Function.update l tid pc')
  := by
  constructor
  · apply hmutex
  · rw [hwait]
    apply h.guards.keep
    rwa [hpc]
  · rw [hwait]
    apply h.alive
  · apply h.keep_count hpc
    rw [hcount, hweight]

/-- A philosopher moves without touching a mutex or `count`. -/
theorem Held.quiet (h : Held m l) (hpc : l tid = pc)
    (hmutex : ∀ k, (m'.mutex k).holder = (m.mutex k).holder) (hwait : m'.waitMutex = m.waitMutex)
    (hcount : m'.count = m.count) (hown : pc'.own ↔ pc.own) (hsecond : pc'.second ↔ pc.second)
    (hin : pc'.insideWait ↔ pc.insideWait) (hweight : pc'.weight = pc.weight) :
  Held m' (Function.update l tid pc')
  := by
  apply h.swap hpc _ hwait hcount hin hweight
  apply h.keep_chopsticks hpc hmutex hown hsecond

/-- A philosopher locks `wait_mutex`. -/
theorem Held.enter (h : Held m l) (hpc : l tid = pc) (hfree : m.waitMutex = .init)
    (hown : pc'.own ↔ pc.own) (hsecond : pc'.second ↔ pc.second) (hin : pc'.insideWait)
    (hweight : pc'.weight = pc.weight) :
  Held { m with waitMutex := ⟨some tid, false⟩ } (Function.update l tid pc')
  := by
  constructor
  · apply h.keep_chopsticks hpc (fun _ => rfl) hown hsecond
  · have hguards := h.guards
    rw [hfree] at hguards
    apply hguards.acquire hin
  · rfl
  · apply h.keep_count hpc
    rw [hweight]

/-- A philosopher unlocks `wait_mutex`. -/
theorem Held.exit (h : Held m l) (hpc : l tid = pc) (hin : pc.insideWait)
    (hown : pc'.own ↔ pc.own) (hsecond : pc'.second ↔ pc.second) (hout : ¬ pc'.insideWait)
    (hweight : pc'.weight = pc.weight) :
  Held { m with waitMutex := .init } (Function.update l tid pc')
  := by
  constructor
  · apply h.keep_chopsticks hpc (fun _ => rfl) hown hsecond
  · apply h.guards.release _ hout
    rwa [hpc]
  · rfl
  · apply h.keep_count hpc
    rw [hweight]

/-- A philosopher under `wait_mutex` changes `count`. -/
theorem Held.recount {c : ℤ} (h : Held m l) (hpc : l tid = pc) (hown : pc'.own ↔ pc.own)
    (hsecond : pc'.second ↔ pc.second) (hin : pc'.insideWait ↔ pc.insideWait)
    (hcount : c + pc.weight = m.count + pc'.weight) :
  Held { m with count := c } (Function.update l tid pc')
  := by
  constructor
  · apply h.keep_chopsticks hpc (fun _ => rfl) hown hsecond
  · apply h.guards.keep
    rwa [hpc]
  · apply h.alive
  · apply h.keep_count hpc hcount

/-- Every step keeps the mutexes and `count` in order. -/
theorem Held.philosopher (h : Held m l) {o : Outcome Mem Pc Event}
    (ho : thinkingAndEating tid m (l tid) = some o) :
  Held o.mem (Function.update l tid o.loc)
  := by
  have hmoves := thinkingAndEating_moves ho
  generalize hpc : l tid = pc at hmoves
  cases hmoves with
  | ownLock hfree =>
      have htake : ∀ k, holds k (tid, .waitLock) ↔ holds k (tid, .ownLock) ∨ k = tid := by
        simp [holds, Pc.own, Pc.second]
      exact h.swap hpc (h.take hpc hfree htake) rfl rfl Iff.rfl rfl
  | secondLock hfree =>
      have htake : ∀ k, holds k (tid, .eat) ↔ holds k (tid, .secondLock) ∨ k = tid + 1 := by
        simp [holds, Pc.own, Pc.second]
      exact h.swap hpc (h.take hpc hfree htake) rfl rfl Iff.rfl rfl
  | ownUnlock =>
      have hgive : ∀ k, holds k (tid, .leaveLock) ↔ holds k (tid, .ownUnlock) ∧ k ≠ tid := by
        intro k
        have hnext := next_ne tid
        simp only [holds, Pc.own, Pc.second]
        grind
      exact h.swap hpc (h.give hpc (.inl ⟨rfl, trivial⟩) hgive) rfl rfl Iff.rfl rfl
  | secondUnlock =>
      have hgive : ∀ k, holds k (tid, .top) ↔ holds k (tid, .secondUnlock) ∧ k ≠ tid + 1 := by
        simp [holds, Pc.own, Pc.second]
      exact h.swap hpc (h.give hpc (.inr ⟨rfl, trivial⟩) hgive) rfl rfl Iff.rfl rfl
  | waitLock hfree | leaveLock hfree => exact h.enter hpc hfree Iff.rfl Iff.rfl trivial rfl
  | waitUnlock | leaveUnlock => exact h.exit hpc trivial Iff.rfl Iff.rfl id rfl
  | countUp =>
      have hcount : m.count + 1 + (Pc.countUp.weight : ℤ)
          = m.count + (Pc.countTest.weight : ℤ) := by
        show m.count + 1 + 0 = m.count + 1
        omega
      exact h.recount hpc Iff.rfl Iff.rfl Iff.rfl hcount
  | countDown =>
      have hcount : m.count - 1 + (Pc.countDown.weight : ℤ)
          = m.count + (Pc.leaveUnlock.weight : ℤ) := by
        show m.count - 1 + 1 = m.count + 0
        omega
      exact h.recount hpc Iff.rfl Iff.rfl Iff.rfl hcount
  | destroy i => exact h.quiet hpc (holder_destroy i) rfl rfl Iff.rfl Iff.rfl Iff.rfl rfl
  | _ => exact h.quiet hpc (fun _ => rfl) rfl rfl Iff.rfl Iff.rfl Iff.rfl rfl

end Keep

/-! ### The ring -/

/-- The philosopher is at the test of `count` under `wait_mutex`, or executes a branch that
prints `DeadLock!`. -/
def Pc.alert : Pc → Prop
  | .countTest => True
  | pc => pc.alarming

/-- Not all philosophers hold a second chopstick, a full `count` is about to be seen, and only
a full `count` raises the alarm. -/
structure Ring (m : Mem) (l : Fin 5 → Pc) : Prop where
  spare : ∃ tid, ¬ (l tid).second
  detected : m.count = 5 → ∃ tid, (l tid).alert
  sure : ∀ tid, (l tid).alarming → m.count = 5
  whole : ∀ k, (m.mutex k).destroyed = true → ∃ tid, (l tid).alarming

section Ring

variable {m m' : Mem} {l : Fin 5 → Pc} {tid : Fin 5} {pc pc' : Pc}

/-- Whoever holds a second chopstick keeps the next philosopher from holding its own. -/
theorem Held.second_own (h : Held m l) (hsecond : (l tid).second) :
  ¬ (l (tid + 1)).own
  := by
  intro hown
  have hfirst : holds (tid + 1) (seats l tid) := .inr ⟨rfl, hsecond⟩
  have hnext : holds (tid + 1) (seats l (tid + 1)) := .inl ⟨rfl, hown⟩
  apply next_ne tid
  apply ((h.chopsticks (tid + 1)).exclusive hfirst hnext).symm

/-- A counted philosopher holds its own chopstick or a second one. -/
theorem Pc.own_or_second {pc : Pc} (h : pc.counted = true) :
  pc.own ∨ pc.second
  := by
  cases pc <;> simp [Pc.counted, Pc.own, Pc.second] at *

/-- A full `count` counts everyone. -/
theorem Held.all_counted (h : Held m l) (hfull : m.count = 5) (tid : Fin 5) :
  (l tid).counted = true
  := by
  have hcard : (Finset.univ.filter fun i : Fin 5 => (l i).counted = true).card
      = (Finset.univ : Finset (Fin 5)).card := by
    have hcount := h.count
    rw [hfull, total] at hcount
    simp only [Pc.weight, ← Finset.card_filter] at hcount
    rw [Finset.card_univ, Fintype.card_fin]
    omega
  rw [Finset.card_filter_eq_iff] at hcard
  apply hcard tid (Finset.mem_univ tid)

theorem Held.count_le (h : Held m l) :
  m.count ≤ 5
  := by
  have hcount := h.count
  have hle := Finset.card_filter_le (Finset.univ : Finset (Fin 5)) fun i => (l i).counted = true
  rw [total] at hcount
  simp only [Pc.weight, ← Finset.card_filter] at hcount
  rw [Finset.card_univ, Fintype.card_fin] at hle
  omega

/-- What is passed on around the table holds everywhere once it holds somewhere. -/
theorem around {p : Fin 5 → Prop} (hnext : ∀ i, p i → p (i + 1)) {i : Fin 5} (hi : p i)
    (j : Fin 5) :
  p j
  := by
  have hplaces : ∀ i j : Fin 5, j = i ∨ j = i + 1 ∨ j = i + 1 + 1 ∨ j = i + 1 + 1 + 1 ∨
      j = i + 1 + 1 + 1 + 1 := by decide
  have hi₁ := hnext i hi
  have hi₂ := hnext _ hi₁
  have hi₃ := hnext _ hi₂
  rcases hplaces i j with rfl | rfl | rfl | rfl | rfl
  · apply hi
  · apply hi₁
  · apply hi₂
  · apply hi₃
  · apply hnext _ hi₃

/-- A full `count` is a circular wait. -/
theorem Ring.circular (h : Ring m l) (hheld : Held m l) (hfull : m.count = 5) (tid : Fin 5) :
  (l tid).own ∧ ¬ (l tid).second
  := by
  have hcounted := hheld.all_counted hfull
  have hnone : ∀ i, ¬ (l i).second := by
    intro i hi
    obtain ⟨j, hj⟩ := h.spare
    apply hj
    apply around (p := fun i => (l i).second) _ hi
    intro i hi
    exact (Pc.own_or_second (hcounted _)).resolve_left (hheld.second_own hi)
  exact ⟨(Pc.own_or_second (hcounted tid)).resolve_right (hnone tid), hnone tid⟩

/-- A philosopher moves. -/
theorem Ring.move (h : Ring m l) (hpc : l tid = pc)
    (hspare : ∃ i, ¬ (Function.update l tid pc' i).second)
    (hdetected : m'.count = 5 → pc'.alert ∨ m.count = 5 ∧ ¬ pc.alert)
    (hsure : pc'.alarming → m'.count = 5) (hothers : m'.count = m.count ∨ ∀ i, ¬ (l i).alarming)
    (hstay : pc.alarming → pc'.alarming)
    (hwhole : ∀ k, (m'.mutex k).destroyed = true → pc'.alarming ∨ (m.mutex k).destroyed = true) :
  Ring m' (Function.update l tid pc')
  := by
  subst hpc
  have moved : ∀ {p : Pc → Prop} {i : Fin 5}, p (l i) → (p (l tid) → p pc') →
      ∃ i, p (Function.update l tid pc' i) := by
    intro p i hi hmove
    rcases eq_or_ne i tid with rfl | hne
    · use i
      rw [Function.update_self]
      apply hmove hi
    · use i
      rwa [Function.update_of_ne hne]
  use hspare
  · intro hfull
    rcases hdetected hfull with halert | ⟨hfull', hcalm⟩
    · use tid
      rwa [Function.update_self]
    · obtain ⟨i, hi⟩ := h.detected hfull'
      apply moved hi
      intro halert
      cases hcalm halert
  · intro i hi
    rcases eq_or_ne i tid with rfl | hne
    · rw [Function.update_self] at hi
      apply hsure hi
    · rw [Function.update_of_ne hne] at hi
      rcases hothers with hsame | hcalm
      · rw [hsame]
        apply h.sure i hi
      · cases hcalm i hi
  · intro k hk
    rcases hwhole k hk with halarm | hk'
    · use tid
      rwa [Function.update_self]
    · obtain ⟨i, hi⟩ := h.whole k hk'
      apply moved hi hstay

/-- A philosopher that is not about to hold a second chopstick moves. -/
theorem Ring.spare_keep (h : Ring m l) (hpc : l tid = pc) (hsecond : pc'.second → pc.second) :
  ∃ i, ¬ (Function.update l tid pc' i).second
  := by
  subst hpc
  obtain ⟨i, hi⟩ := h.spare
  use i
  rcases eq_or_ne i tid with rfl | hne
  · rw [Function.update_self]
    intro hpc'
    apply hi (hsecond hpc')
  · rwa [Function.update_of_ne hne]

/-- A philosopher moves away from every alarm, and `count` stays. -/
theorem Ring.quiet (h : Ring m l) (hpc : l tid = pc) (hsecond : pc'.second → pc.second)
    (hcount : m'.count = m.count) (hcalm : ¬ pc.alert) (hcalm' : ¬ pc'.alarming)
    (hwhole : ∀ k, (m'.mutex k).destroyed = true → (m.mutex k).destroyed = true) :
  Ring m' (Function.update l tid pc')
  := by
  apply h.move hpc (h.spare_keep hpc hsecond) _ _ (.inl hcount)
  · intro halarm
    apply absurd _ hcalm
    cases pc with
    | headDeadLock | headExit | deadLock | destroy => trivial
    | _ => cases halarm
  · intro k hk
    exact .inr (hwhole k hk)
  · intro hfull
    rw [hcount] at hfull
    exact .inr ⟨hfull, hcalm⟩
  · intro halarm
    cases hcalm' halarm

/-- An alarm goes on. -/
theorem Ring.alarm (h : Ring m l) (hpc : l tid = pc) (hsecond : pc'.second → pc.second)
    (hcount : m'.count = m.count) (hfull : m.count = 5) (halarm : pc'.alarming)
    (halert : pc'.alert) :
  Ring m' (Function.update l tid pc')
  := by
  apply h.move hpc (h.spare_keep hpc hsecond) _ _ (.inl hcount)
  · intro _
    apply halarm
  · intro k _
    exact .inl halarm
  · intro _
    exact .inl halert
  · intro _
    rwa [hcount]

theorem destroyed_update {f : Fin 5 → Mutex (Fin 5)} {i : Fin 5} {x : Mutex (Fin 5)}
    (hx : x.destroyed = false) (k : Fin 5) (hk : (Function.update f i x k).destroyed = true) :
  (f k).destroyed = true
  := by
  rcases eq_or_ne k i with rfl | hne
  · rw [Function.update_self, hx] at hk
    cases hk
  · rwa [Function.update_of_ne hne] at hk

/-- While a philosopher changes `count`, no other raises the alarm. -/
theorem Ring.calm (h : Ring m l) (hheld : Held m l) (hin : (l tid).insideWait)
    (hcalm : ¬ (l tid).alarming) (i : Fin 5) :
  ¬ (l i).alarming
  := by
  intro hi
  have hcounted := hheld.all_counted (h.sure i hi) i
  have hin' : (l i).insideWait := by
    cases hpc : l i <;> rw [hpc] at hi hcounted <;> trivial
  obtain rfl := hheld.guards.exclusive hin hin'
  apply hcalm hi

/-- A philosopher that takes its second chopstick has a neighbour without a second one. -/
theorem Held.spare_second (hheld : Held m l) (hown : (l tid).own) :
  ∃ i, ¬ (Function.update l tid pc' i).second
  := by
  have hprev : ∀ i : Fin 5, i + 4 ≠ i ∧ i + 4 + 1 = i := by decide
  obtain ⟨hne, hnext⟩ := hprev tid
  use tid + 4
  rw [Function.update_of_ne hne]
  intro hsecond
  apply hheld.second_own hsecond
  rwa [hnext]

/-- Every step keeps the ring in order. -/
theorem Ring.philosopher (h : Ring m l) (hheld : Held m l) {o : Outcome Mem Pc Event}
    (ho : thinkingAndEating tid m (l tid) = some o) :
  Ring o.mem (Function.update l tid o.loc)
  := by
  have hmoves := thinkingAndEating_moves ho
  generalize hpc : l tid = pc at hmoves
  cases hmoves with
  | headFull hfull | full hfull => exact h.alarm hpc id rfl hfull trivial trivial
  | headDeadLock | headExit | deadLock | destroy | exit =>
      have hfull := h.sure tid (by rw [hpc]; trivial)
      exact h.alarm hpc id rfl hfull trivial trivial
  | countUp =>
      have hin : (l tid).insideWait := by
        rw [hpc]
        trivial
      have hcalm := h.calm hheld hin (by rw [hpc]; exact id)
      have hspare : ∃ i, ¬ (Function.update l tid .countTest i).second := h.spare_keep hpc id
      exact h.move hpc hspare (fun _ => .inl trivial) (by rintro ⟨⟩) (.inr hcalm) (by rintro ⟨⟩)
        fun _ => .inr
  | countDown =>
      have hin : (l tid).insideWait := by
        rw [hpc]
        trivial
      have hcalm := h.calm hheld hin (by rw [hpc]; exact id)
      have hspare : ∃ i, ¬ (Function.update l tid .leaveUnlock i).second := h.spare_keep hpc id
      have hle := hheld.count_le
      have hfull : ¬ m.count - 1 = 5 := by omega
      exact h.move hpc hspare (fun h => absurd h hfull) (by rintro ⟨⟩) (.inr hcalm) (by rintro ⟨⟩)
        fun _ => .inr
  | secondLock hfree =>
      have hspare : ∃ i, ¬ (Function.update l tid .eat i).second := by
        apply hheld.spare_second
        rw [hpc]
        trivial
      exact h.move hpc hspare (fun hfull => .inr ⟨hfull, id⟩) (by rintro ⟨⟩) (.inl rfl)
        (by rintro ⟨⟩) fun k hk => .inr (destroyed_update rfl k hk)
  | notFull hfull =>
      have hspare : ∃ i, ¬ (Function.update l tid .waitUnlock i).second := h.spare_keep hpc id
      exact h.move hpc hspare (fun hfull' => absurd hfull' hfull) (by rintro ⟨⟩) (.inl rfl)
        (by rintro ⟨⟩) fun _ => .inr
  | ownLock | ownUnlock => exact h.quiet hpc id rfl id id (destroyed_update rfl)
  | secondUnlock => exact h.quiet hpc (fun _ => trivial) rfl id id (destroyed_update rfl)
  | _ => exact h.quiet hpc id rfl id id fun _ => id

end Ring

/-- In every reachable state mutexes, `count` and the ring are in order. -/
theorem reachable_ring {h : List (Fin 5 × Event)} {s : Global (Fin 5) Mem Pc}
    (hs : table.Reachable Machine.Free h s) :
  Held s.mem s.loc ∧ Ring s.mem s.loc
  := by
  apply threads_invariant (I := fun m l _ => Held m l ∧ Ring m l) _ _ hs
  · rintro m l ⟨rfl, htop⟩
    constructor
    · constructor
      · intro k
        apply Guards.of_outside
        intro tid
        simp [holds, seats, htop, Pc.own, Pc.second]
      · apply Guards.of_outside
        intro tid
        simp [htop, Pc.insideWait]
      · rfl
      · rw [total_eq_zero]
        · rfl
        · intro tid
          simp [htop, Pc.weight, Pc.counted]
    · constructor
      · use 0
        simp [htop, Pc.second]
      · rintro ⟨⟩
      · intro tid
        simp [htop, Pc.alarming]
      · rintro k ⟨⟩
  · rintro m l h tid c o ⟨hheld, hring⟩ _ ho
    simp only [step, Option.ite_none_left_eq_some] at ho
    obtain ⟨-, ho⟩ := ho
    exact ⟨hheld.philosopher ho, hring.philosopher hheld ho⟩

/-! ### No silent deadlock -/

section Progress

variable {m : Mem} {l : Fin 5 → Pc}

/-- Some philosopher can move. -/
def Moving (m : Mem) (l : Fin 5 → Pc) : Prop :=
  ∃ tid, (thinkingAndEating tid m (l tid)).isSome = true

/-- The philosopher under `wait_mutex` can move. -/
theorem Held.moving_inside (h : Held m l) {tid : Fin 5} (hin : (l tid).insideWait) :
  Moving m l
  := by
  use tid
  have halive := h.alive
  generalize l tid = pc at hin
  cases pc with
  | countTest | destroy =>
      simp only [thinkingAndEating]
      split_ifs <;> rfl
  | waitUnlock | leaveUnlock => simp [thinkingAndEating, Mutex.unlock, halive]
  | countUp | deadLock | countDown => rfl
  | _ => cases hin

/-- With `wait_mutex` free nobody raises the alarm. -/
theorem Ring.calm_outside (h : Ring m l) (hheld : Held m l) (hfree : m.waitMutex.holder = none)
    (tid : Fin 5) :
  ¬ (l tid).alarming
  := by
  intro halarm
  have hcounted := hheld.all_counted (h.sure tid halarm) tid
  have hguards := hheld.guards
  rw [hfree] at hguards
  apply hguards.outside tid
  cases hpc : l tid <;> rw [hpc] at halarm hcounted <;> trivial

/-- With no chopstick destroyed a chopstick nobody holds is free. -/
theorem Held.free (h : Held m l) {k : Fin 5} (hwhole : (m.mutex k).destroyed = false)
    (hnone : ∀ tid, ¬ holds k (tid, l tid)) :
  m.mutex k = .init
  := by
  apply Mutex.eq_init _ hwhole
  by_contra hholder
  obtain ⟨tid, htid⟩ := Option.ne_none_iff_exists'.mp hholder
  apply hnone tid ((h.chopsticks k tid).mpr htid)

/-- With `wait_mutex` free only a philosopher in front of a chopstick may be unable to
move. -/
theorem moving_outside {tid : Fin 5} (hwait : m.waitMutex = .init)
    (hwhole : ∀ k, (m.mutex k).destroyed = false) (hown : l tid ≠ .ownLock)
    (hsecond : l tid ≠ .secondLock) :
  Moving m l
  := by
  use tid
  generalize l tid = pc at *
  cases pc with
  | ownLock => cases hown rfl
  | secondLock => cases hsecond rfl
  | headTest | countTest | destroy =>
      simp only [thinkingAndEating]
      split_ifs <;> rfl
  | waitLock | leaveLock => simp [thinkingAndEating, Mutex.lock, Mutex.init, hwait]
  | waitUnlock | leaveUnlock => simp [thinkingAndEating, Mutex.unlock, Mutex.init, hwait]
  | ownUnlock | secondUnlock => simp [thinkingAndEating, Mutex.unlock, hwhole]
  | _ => rfl

/-- As long as the process runs some philosopher can move. -/
theorem Ring.moving (h : Ring m l) (hheld : Held m l) :
  Moving m l
  := by
  cases hholder : m.waitMutex.holder with
  | some tid =>
      apply hheld.moving_inside
      apply (hheld.guards tid).mpr hholder
  | none =>
      have hcalm := h.calm_outside hheld hholder
      have hwhole : ∀ k, (m.mutex k).destroyed = false := by
        intro k
        by_contra hk
        obtain ⟨tid, halarm⟩ := h.whole k (by simpa using hk)
        apply hcalm tid halarm
      have hwait := Mutex.eq_init hholder hheld.alive
      by_contra hstuck
      have hwaiting : ∀ tid, l tid = .ownLock ∨ l tid = .secondLock := by
        intro tid
        by_contra hpc
        rw [not_or] at hpc
        apply hstuck (moving_outside hwait hwhole hpc.1 hpc.2)
      by_cases hown : ∃ tid, l tid = .ownLock
      · obtain ⟨tid, hpc⟩ := hown
        apply hstuck
        use tid
        have hfree : m.mutex tid = .init := by
          apply hheld.free (hwhole tid)
          rintro i (⟨rfl, hi⟩ | ⟨-, hi⟩)
          · rw [hpc] at hi
            cases hi
          · rcases hwaiting i with hi' | hi' <;> rw [hi'] at hi <;> cases hi
        simp [hpc, thinkingAndEating, hfree, Mutex.lock, Mutex.init]
      · have hsecond : ∀ tid, l tid = .secondLock := by
          intro tid
          apply (hwaiting tid).resolve_left
          intro hpc
          apply hown ⟨tid, hpc⟩
        have hfull : m.count = 5 := by
          rw [hheld.count, total]
          simp [hsecond, Pc.weight, Pc.counted]
        obtain ⟨tid, halert⟩ := h.detected hfull
        rw [hsecond tid] at halert
        cases halert

end Progress

/-! ### The detector -/

/-- The eating section: the philosopher has acquired its second chopstick and not released its
first. -/
def Pc.eating : Pc → Prop
  | .eat | .ownUnlock => True
  | _ => False

theorem Pc.eating_iff (pc : Pc) :
  pc.eating ↔ pc.own ∧ pc.second
  := by
  cases pc <;> simp [Pc.eating, Pc.own, Pc.second]

/-- A branch that prints `DeadLock!` is executed only when all five philosophers hold their own
chopstick and none a second one; as long as the process runs some philosopher can move; and
neighbours do not eat together. -/
theorem detector_exact {h : List (Fin 5 × Event)} {s : Global (Fin 5) Mem Pc}
    (hs : table.Reachable Machine.Free h s) :
  (∀ tid, (s.loc tid).alarming → ∀ i, (s.mem.mutex i).holder = some i ∧
      (s.mem.mutex (i + 1)).holder ≠ some i) ∧
    (s.mem.exited = false → ∃ a, (table.next s a).isSome = true) ∧
    ∀ tid, ¬ ((s.loc tid).eating ∧ (s.loc (tid + 1)).eating)
  := by
  obtain ⟨hheld, hring⟩ := reachable_ring hs
  use ?alarm, ?move, ?apart
  case alarm =>
    intro tid halarm i
    have hcircular := hring.circular hheld (hring.sure tid halarm)
    constructor
    · apply (hheld.chopsticks i).holds
      exact .inl ⟨rfl, (hcircular i).1⟩
    · intro hholder
      rcases (hheld.chopsticks (i + 1) i).mpr hholder with ⟨hi, -⟩ | ⟨-, hi⟩
      · apply next_ne i hi
      · apply (hcircular i).2 hi
  case move =>
    intro hrun
    obtain ⟨tid, hmove⟩ := hring.moving hheld
    use (tid, ())
    simp [table, threads, step, hrun, hmove]
  case apart =>
    simp only [Pc.eating_iff]
    rintro tid ⟨⟨-, hsecond⟩, hown, -⟩
    apply hheld.second_own hsecond hown

/-- All five philosophers take their own chopstick, and the last one counted raises the
alarm. -/
theorem reach_alarm :
  ∃ h s, table.Reachable Machine.Free h s ∧ s.loc 4 = .deadLock ∧ s.mem.exited = false
  := by
  have hinit : table.Initial ⟨.new, fun _ => .top⟩ := ⟨rfl, fun _ => rfl⟩
  have hrun := Machine.exec_reachable (G := Machine.Free)
    (List.replicate 8 (0, ()) ++ List.replicate 8 (1, ()) ++ List.replicate 8 (2, ()) ++
      List.replicate 8 (3, ()) ++ List.replicate 7 (4, ())) hinit rfl
  exact ⟨_, _, hrun, rfl, rfl⟩

/-- In that state all hold their own chopstick, and the process can go on. -/
theorem detector_alarm :
  ∃ h s, table.Reachable Machine.Free h s ∧ s.loc 4 = .deadLock ∧
    (∀ i, (s.mem.mutex i).holder = some i) ∧ ∃ a, (table.next s a).isSome = true
  := by
  obtain ⟨h, s, hs, hpc, hrun⟩ := reach_alarm
  obtain ⟨halarm, hmove, -⟩ := detector_exact hs
  refine ⟨h, s, hs, hpc, ?_, hmove hrun⟩
  intro i
  apply (halarm 4 _ i).1
  rw [hpc]
  trivial

end Version1

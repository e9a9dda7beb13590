import Mathlib.Data.Fintype.BigOperators
import ParallelArch.Philosophers.Exclusion

/-!
# Seats and chopsticks of version 4

`count` is the number of philosophers that have taken a seat and not given it back, and at
most `n - 1` have (`Seats`).  Together with the order of the table this is the exact account
of seats and chopsticks (`Accounted`).
-/

namespace Version4

variable {n : ℕ}

/-! ### The invariant -/

/-- The section under `wait_mutex`. -/
def Pc.insideSeats : Pc → Prop
  | .seatTest | .seatSpin | .seatTake | .seatUnlock | .leaveCount | .leaveUnlock => True
  | _ => False

/-- The philosopher is between `count++` and `count--`. -/
def Pc.seated : Pc → Bool
  | .seatUnlock | .tableLock | .leftTest | .rightTest | .tableSpin | .takeLeft | .takeRight
  | .tableUnlock | .leaveLock | .leaveCount => true
  | _ => false

/-- One for a philosopher with a seat. -/
def Pc.seat (pc : Pc) : ℕ := if pc.seated then 1 else 0

/-- The state of the seats. -/
structure Seats (m : Mem n) (l : Party n → Pc) : Prop where
  guards : Guards m.waitMutex.holder Pc.insideSeats l
  count : m.count = total Pc.seat l
  room : m.count ≤ n - 1
  knows : ∀ i, l i = .seatTake → m.count ≠ n - 1
  inMain : (l none).inMain

theorem Pc.inMain.outsideSeats {pc : Pc} (h : pc.inMain) :
  ¬ pc.insideSeats ∧ pc.seated = false
  := by
  cases pc <;> cases h <;> simp [Pc.insideSeats, Pc.seated]

section Keep

variable {m m' : Mem n} {l : Party n → Pc}

/-- A thread moves and `count` follows. -/
theorem Seats.move (h : Seats m l) {i : Party n} {pc : Pc}
    (hguards : Guards m'.waitMutex.holder Pc.insideSeats (Function.update l i pc))
    (hcount : m'.count + (l i).seat = m.count + pc.seat) (hroom : m'.count ≤ n - 1)
    (hknows : pc = .seatTake → m'.count ≠ n - 1)
    (hothers : m'.count = m.count ∨ (l i).insideSeats) (hmain : i = none → pc.inMain) :
  Seats m' (Function.update l i pc)
  := by
  constructor
  · apply hguards
  · have htotal := total_update Pc.seat l i pc
    have := h.count
    omega
  · apply hroom
  · intro j hj
    rcases eq_or_ne j i with rfl | hne
    · rw [Function.update_self] at hj
      apply hknows hj
    · rw [Function.update_of_ne hne] at hj
      rcases hothers with hsame | hin
      · rw [hsame]
        apply h.knows j hj
      · have hin' : (l j).insideSeats := by
          rw [hj]
          trivial
        cases hne (h.guards.exclusive hin' hin)
  · rcases eq_or_ne none i with rfl | hne
    · rw [Function.update_self]
      apply hmain rfl
    · rw [Function.update_of_ne hne]
      apply h.inMain

/-- A philosopher moves within the section under `wait_mutex`, or outside it. -/
theorem Seats.quiet (h : Seats m l) {tid : Fin n} {pc pc' : Pc} (hpc : l (some tid) = pc)
    (hmutex : m'.waitMutex.holder = m.waitMutex.holder) (hcount : m'.count = m.count)
    (hin : pc'.insideSeats ↔ pc.insideSeats) (hseat : pc'.seat = pc.seat)
    (hknows : pc' = .seatTake → m.count ≠ n - 1) :
  Seats m' (Function.update l (some tid) pc')
  := by
  subst hpc
  apply h.move _ _ _ _ (.inl hcount)
  · rintro ⟨⟩
  · rw [hmutex]
    apply h.guards.keep hin
  · rw [hcount, hseat]
  · rw [hcount]
    apply h.room
  · rwa [hcount]

/-- A philosopher locks `wait_mutex`. -/
theorem Seats.enter (h : Seats m l) {tid : Fin n} {pc pc' : Pc} (hpc : l (some tid) = pc)
    (hfree : m.waitMutex = .init) (hmutex : m'.waitMutex.holder = some (some tid))
    (hcount : m'.count = m.count) (hin : pc'.insideSeats) (hseat : pc'.seat = pc.seat)
    (hknows : pc' ≠ .seatTake) :
  Seats m' (Function.update l (some tid) pc')
  := by
  subst hpc
  apply h.move _ _ _ _ (.inl hcount)
  · rintro ⟨⟩
  · have hguards := h.guards
    rw [hfree] at hguards
    rw [hmutex]
    apply hguards.acquire hin
  · rw [hcount, hseat]
  · rw [hcount]
    apply h.room
  · intro htake
    cases hknows htake

/-- A philosopher unlocks `wait_mutex`. -/
theorem Seats.exit (h : Seats m l) {tid : Fin n} {pc pc' : Pc} (hpc : l (some tid) = pc)
    (hin : pc.insideSeats) (hmutex : m'.waitMutex.holder = none)
    (hcount : m'.count = m.count) (hout : ¬ pc'.insideSeats) (hseat : pc'.seat = pc.seat) :
  Seats m' (Function.update l (some tid) pc')
  := by
  subst hpc
  apply h.move _ _ _ _ (.inl hcount)
  · rintro ⟨⟩
  · rw [hmutex]
    apply h.guards.release hin hout
  · rw [hcount, hseat]
  · rw [hcount]
    apply h.room
  · rintro rfl
    cases hout trivial

/-- Every step of a philosopher keeps the seats in order. -/
theorem Seats.philosopher (h : Seats m l) {tid : Fin n} {o : Outcome (Mem n) Pc Event}
    (ho : thinkingAndEating tid m (l (some tid)) = some o) :
  Seats o.mem (Function.update l (some tid) o.loc)
  := by
  have hmoves := thinkingAndEating_moves ho
  generalize hpc : l (some tid) = pc at hmoves
  have hcount := h.count
  have hroom := h.room
  cases hmoves with
  | waitLock hfree | leaveLock hfree =>
      exact h.enter hpc hfree rfl rfl trivial rfl (by rintro ⟨⟩)
  | seatSpin | seatUnlock | leaveUnlock => exact h.exit hpc trivial rfl rfl id rfl
  | seatRoom hroom => exact h.quiet hpc rfl rfl Iff.rfl rfl (fun _ => hroom)
  | seatTake =>
      have hne := h.knows _ hpc
      have hin : (l (some tid)).insideSeats := by
        rw [hpc]
        trivial
      apply h.move _ _ _ _ (.inr hin)
      · rintro ⟨⟩
      · apply h.guards.keep (iff_of_true _ hin)
        trivial
      · rw [hpc]
        show m.count + 1 + 0 = m.count + 1
        omega
      · show m.count + 1 ≤ n - 1
        omega
      · rintro ⟨⟩
  | leaveCount =>
      have hin : (l (some tid)).insideSeats := by
        rw [hpc]
        trivial
      apply h.move _ _ _ _ (.inr hin)
      · rintro ⟨⟩
      · apply h.guards.keep (iff_of_true _ hin)
        trivial
      · rw [hpc]
        show m.count - 1 + 1 = m.count + 0
        omega
      · show m.count - 1 ≤ n - 1
        omega
      · rintro ⟨⟩
  | _ => exact h.quiet hpc rfl rfl Iff.rfl rfl (by rintro ⟨⟩)

/-- Every step of `main` keeps the seats in order. -/
theorem Seats.main (h : Seats m l) {choice : Choice} {o : Outcome (Mem n) Pc Event}
    (ho : Version4.main m (l none) choice = some o) :
  Seats o.mem (Function.update l none o.loc)
  := by
  obtain ⟨hin, hin', hcount, -, -, hmutex⟩ := main_frame ho
  obtain ⟨hout, hseat⟩ := hin.outsideSeats
  obtain ⟨hout', hseat'⟩ := hin'.outsideSeats
  apply h.move _ _ _ _ (.inl hcount)
  · intro _
    apply hin'
  · rw [hmutex]
    apply h.guards.keep (iff_of_false hout' hout)
  · rw [hcount, Pc.seat, Pc.seat, hseat, hseat']
  · rw [hcount]
    apply h.room
  · rintro htake
    rw [htake] at hout'
    cases hout' trivial

end Keep

/-- In every reachable state the seats are in order. -/
theorem reachable_seats (hn : 1 ≤ n) {h : List (Party n × Event)}
    {s : Global (Party n) (Mem n) Pc} (hs : (table n).Reachable Machine.Free h s) :
  Seats s.mem s.loc
  := by
  apply threads_invariant (I := fun m l _ => Seats m l) _ _ hs
  · rintro m l ⟨rfl, hmain, hborn⟩
    have hpcs : ∀ i, ¬ (l i).insideSeats ∧ (l i).seat = 0 ∧ l i ≠ .seatTake := by
      rintro (_ | tid)
      · simp [hmain, Pc.insideSeats, Pc.seat, Pc.seated]
      · simp [hborn tid, Pc.insideSeats, Pc.seat, Pc.seated]
    constructor
    · apply Guards.of_outside
      intro i
      exact (hpcs i).1
    · rw [total_eq_zero fun i => (hpcs i).2.1]
      rfl
    · show (0 : ℤ) ≤ n - 1
      omega
    · intro i hi
      cases (hpcs i).2.2 hi
    · rw [hmain]
      trivial
  · intro m l h i choice o hI _ ho
    simp only [step, Option.ite_none_left_eq_some] at ho
    obtain ⟨-, ho⟩ := ho
    cases i with
    | none => exact hI.main ho
    | some tid => exact hI.philosopher ho

/-! ### The account -/

/-- `count` is the number of philosophers with a seat, and a chopstick is taken exactly when one
philosopher has it, as one of its two. -/
structure Accounted (s : Global (Party n) (Mem n) Pc) : Prop where
  count : s.mem.count = (Finset.univ.filter fun tid : Fin n => (s.loc (some tid)).seated).card
  atLeast : 0 ≤ s.mem.count
  atMost : s.mem.count ≤ n - 1
  taken : s.mem.mutex.holder = none → ∀ k, s.mem.chopsticks k = false
    ↔ ∃! tid : Fin n, (s.loc (some tid)).eating ∧ (k = tid ∨ k = (tid.val + 1) % 5)
  apart : ∀ tid tid' : Fin n, (s.loc (some tid)).eating → (s.loc (some tid')).eating →
    ∀ k, k = tid.val ∨ k = (tid.val + 1) % 5 → k = tid'.val ∨ k = (tid'.val + 1) % 5 → tid = tid'

/-- With `mutex` free a philosopher holds both chopsticks or none. -/
theorem Table.holds_iff {m : Mem n} {l : Party n → Pc} (h : Table m l)
    (hfree : m.mutex.holder = none) (tid : Fin n) (k : ℕ) :
  (l (some tid)).holds tid k ↔ (l (some tid)).eating ∧ (k = tid ∨ k = (tid.val + 1) % 5)
  := by
  have hout : ¬ (l (some tid)).insideTable := by
    have hguards := h.guards
    rw [hfree] at hguards
    apply hguards.outside
  generalize l (some tid) = pc at *
  cases pc with
  | takeRight | giveRight => cases hout trivial
  | _ => simp [Pc.holds, Pc.eating]

/-- With `mutex` free a chopstick is taken exactly when one philosopher has it. -/
theorem Table.taken {m : Mem n} {l : Party n → Pc} (h : Table m l)
    (hfree : m.mutex.holder = none) (k : ℕ) :
  m.chopsticks k = false
    ↔ ∃! tid : Fin n, (l (some tid)).eating ∧ (k = tid ∨ k = (tid.val + 1) % 5)
  := by
  rw [h.flags]
  simp only [← h.holds_iff hfree]
  constructor
  · rintro ⟨tid, htid⟩
    use tid, htid
    intro tid' htid'
    apply h.single tid' tid k htid' htid
  · apply ExistsUnique.exists

/-- No two philosophers in the eating section share a chopstick. -/
theorem Table.apart {m : Mem n} {l : Party n → Pc} (h : Table m l) (tid tid' : Fin n)
    (hi : (l (some tid)).eating) (hj : (l (some tid')).eating) (k : ℕ)
    (hk : k = tid.val ∨ k = (tid.val + 1) % 5) (hk' : k = tid'.val ∨ k = (tid'.val + 1) % 5) :
  tid = tid'
  := by
  apply h.single tid tid' k
  · rwa [Pc.holds_of_eating hi]
  · rwa [Pc.holds_of_eating hj]

/-- In every reachable state seats and chopsticks are accounted for. -/
theorem accounted (hn : 1 ≤ n) {h : List (Party n × Event)} {s : Global (Party n) (Mem n) Pc}
    (hs : (table n).Reachable Machine.Free h s) :
  Accounted s
  := by
  have hseats := reachable_seats hn hs
  have htable := reachable_table hs
  have hcount := hseats.count
  constructor
  · have hmain := hseats.inMain.outsideSeats.2
    rw [hcount, total, Fintype.sum_option, Pc.seat, hmain, Finset.card_filter]
    simp [Pc.seat]
  · omega
  · exact hseats.room
  · exact htable.taken
  · exact htable.apart

end Version4

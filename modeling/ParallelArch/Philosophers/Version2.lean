import ParallelArch.Philosophers.Seats

/-!
# The dining philosophers, version 2

Five philosophers take both chopsticks under `mutex` and give them back under `mutex`.  There
are no seats: a philosopher that has waited for more than a second prints that it is starving
and ends the process.  The clock is a choice of the environment.

At the table every step is one of version 4 with `n = 5`, so the order of that table carries
over (`Pc.lift`).
-/

namespace Version2

/-- The threads: `none` is `main`, `some tid` a philosopher. -/
abbrev Party := Option (Fin 5)

/-- The global variables, with how many threads `main` has created and whether the process
has ended. -/
structure Mem where
  mutex : Mutex Party
  chopsticks : ℕ → Bool
  created : ℕ
  exited : Bool

/-- Where a thread is: a philosopher in `thinking_and_eating`, from `unborn` to `giveUnlock`,
or `main`, from `create` on. -/
inductive Pc where
  | unborn
  | think
  | hunger
  | tableLock
  | leftTest
  | rightTest
  | tableSpin
  | clockTest
  | starving
  | takeLeft
  | takeRight
  | tableUnlock
  | eat
  | giveLock
  | giveLeft
  | giveRight
  | giveUnlock
  | create (i : ℕ)
  | join
  | destroy
  | failed
deriving DecidableEq

/-- The lines a philosopher prints. -/
inductive Event where
  | thinking
  | hungry
  | starving
  | eating
deriving DecidableEq

/-- What the environment decides: a thread cannot be created, or a philosopher has waited for
more than a second. -/
inductive Choice where
  | go
  | fail
  | late

/-- One step of the philosopher `tid` in `thinking_and_eating`. -/
def thinkingAndEating (tid : Fin 5) (m : Mem) (pc : Pc) (choice : Choice) :
    Option (Outcome Mem Pc Event) :=
  match pc with
  | .unborn => if tid.val < m.created then some { mem := m, loc := .think } else none
  | .think => some { mem := m, loc := .hunger, events := [.thinking] }
  | .hunger => some { mem := m, loc := .tableLock, events := [.hungry] }
  | .tableLock =>
      (m.mutex.lock (some tid)).map fun x => { mem := { m with mutex := x }, loc := .leftTest }
  | .leftTest =>
      if m.chopsticks tid.val then some { mem := m, loc := .rightTest }
      else some { mem := m, loc := .tableSpin }
  | .rightTest =>
      if m.chopsticks ((tid.val + 1) % 5) then some { mem := m, loc := .takeLeft }
      else some { mem := m, loc := .tableSpin }
  | .tableSpin =>
      m.mutex.unlock.map fun x => { mem := { m with mutex := x }, loc := .clockTest }
  | .clockTest =>
      match choice with
      | .late => some { mem := m, loc := .starving, events := [.starving] }
      | _ => some { mem := m, loc := .tableLock }
  | .starving => some { mem := { m with exited := true }, loc := .starving }
  | .takeLeft =>
      some { mem := { m with chopsticks := Function.update m.chopsticks tid.val false },
             loc := .takeRight }
  | .takeRight =>
      some { mem := { m with chopsticks := Function.update m.chopsticks ((tid.val + 1) % 5) false },
             loc := .tableUnlock }
  | .tableUnlock =>
      m.mutex.unlock.map fun x => { mem := { m with mutex := x }, loc := .eat }
  | .eat => some { mem := m, loc := .giveLock, events := [.eating] }
  | .giveLock =>
      (m.mutex.lock (some tid)).map fun x => { mem := { m with mutex := x }, loc := .giveLeft }
  | .giveLeft =>
      some { mem := { m with chopsticks := Function.update m.chopsticks tid.val true },
             loc := .giveRight }
  | .giveRight =>
      some { mem := { m with chopsticks := Function.update m.chopsticks ((tid.val + 1) % 5) true },
             loc := .giveUnlock }
  | .giveUnlock =>
      m.mutex.unlock.map fun x => { mem := { m with mutex := x }, loc := .think }
  | _ => none

/-- One step of `main`, from the loop that creates the threads on.  No philosopher returns, so
`join` has no step. -/
def main (m : Mem) (pc : Pc) (choice : Choice) : Option (Outcome Mem Pc Event) :=
  match pc with
  | .create i =>
      if i < 5 then
        match choice with
        | .fail => some { mem := m, loc := .destroy }
        | _ => some { mem := { m with created := i + 1 }, loc := .create (i + 1) }
      else some { mem := m, loc := .join }
  | .destroy => some { mem := { m with mutex := m.mutex.destroy }, loc := .failed }
  | .failed => some { mem := { m with exited := true }, loc := .failed }
  | _ => none

/-- One step of a thread, as long as the process runs. -/
def step (i : Party) (m : Mem) (pc : Pc) (choice : Choice) : Option (Outcome Mem Pc Event) :=
  if m.exited then none
  else
    match i with
    | none => main m pc choice
    | some tid => thinkingAndEating tid m pc choice

/-- The variables when `main` has initialised the mutex. -/
def Mem.new : Mem where
  mutex := .init
  chopsticks _ := true
  created := 0
  exited := false

/-- The program. -/
def table : Machine (Global Party Mem Pc) (Party × Choice) (Party × Event) :=
  threads (fun m l => m = .new ∧ l none = .create 0 ∧ ∀ tid, l (some tid) = .unborn) step

/-! ### The same table as in version 4 -/

/-- Where the thread would be in version 4. -/
def Pc.lift : Pc → Version4.Pc
  | .unborn => .unborn
  | .think => .think
  | .hunger => .hunger
  | .tableLock | .clockTest => .tableLock
  | .leftTest => .leftTest
  | .rightTest => .rightTest
  | .tableSpin => .tableSpin
  | .starving => .done
  | .takeLeft => .takeLeft
  | .takeRight => .takeRight
  | .tableUnlock => .tableUnlock
  | .eat => .eat
  | .giveLock => .giveLock
  | .giveLeft => .giveLeft
  | .giveRight => .giveRight
  | .giveUnlock => .giveUnlock
  | .create _ | .join | .destroy | .failed => .read

/-- The table as version 4 has it. -/
def Mem.lift (m : Mem) : Version4.Mem 5 :=
  { Version4.Mem.new 5 with mutex := m.mutex, chopsticks := m.chopsticks }

/-- The eating section: the philosopher has taken both chopsticks and given back neither. -/
def Pc.eating : Pc → Prop
  | .tableUnlock | .eat | .giveLock | .giveLeft => True
  | _ => False

theorem Pc.lift_eating (pc : Pc) :
  pc.lift.eating ↔ pc.eating
  := by
  cases pc <;> rfl

section Keep

variable {m : Mem} {l : Party → Pc}

/-- A step of version 2 that is none at the table of version 4. -/
theorem quiet (h : Version4.Table m.lift (Pc.lift ∘ l)) {tid : Fin 5} {pc pc' : Pc} {m' : Mem}
    (hpc : l (some tid) = pc) (hmem : m'.lift = m.lift)
    (hin : pc'.lift.insideTable ↔ pc.lift.insideTable)
    (hholds : ∀ k, pc'.lift.holds tid k ↔ pc.lift.holds tid k)
    (hknows : pc'.lift.knows m.chopsticks tid) :
  Version4.Table m'.lift (Pc.lift ∘ Function.update l (some tid) pc')
  := by
  rw [Function.comp_update, hmem]
  apply h.quiet _ rfl rfl hin hholds hknows
  rw [Function.comp_apply, hpc]

/-- A step of version 2 that is the same step of version 4. -/
theorem same (h : Version4.Table m.lift (Pc.lift ∘ l)) {tid : Fin 5} {pc' : Pc} {m' : Mem}
    (hstep : Version4.thinkingAndEating tid m.lift (l (some tid)).lift
      = some { mem := m'.lift, loc := pc'.lift }) :
  Version4.Table m'.lift (Pc.lift ∘ Function.update l (some tid) pc')
  := by
  rw [Function.comp_update]
  apply h.philosopher hstep

/-- Every step of a philosopher keeps the table in order. -/
theorem philosopher (h : Version4.Table m.lift (Pc.lift ∘ l)) {tid : Fin 5} {choice : Choice}
    {o : Outcome Mem Pc Event} (ho : thinkingAndEating tid m (l (some tid)) choice = some o) :
  Version4.Table o.mem.lift (Pc.lift ∘ Function.update l (some tid) o.loc)
  := by
  generalize hpc : l (some tid) = pc at ho
  cases pc with
  | unborn =>
      simp only [thinkingAndEating, Option.ite_none_right_eq_some, Option.some.injEq] at ho
      obtain ⟨-, rfl⟩ := ho
      exact quiet h hpc rfl Iff.rfl (fun _ => Iff.rfl) trivial
  | think | hunger | eat | starving =>
      cases ho
      exact quiet h hpc rfl Iff.rfl (fun _ => Iff.rfl) trivial
  | clockTest =>
      cases choice <;> cases ho <;> exact quiet h hpc rfl Iff.rfl (fun _ => Iff.rfl) trivial
  | leftTest | rightTest =>
      simp only [thinkingAndEating] at ho
      split_ifs at ho with hfree <;> cases ho <;> apply same h <;> rw [hpc]
      · exact if_pos hfree
      · exact if_neg hfree
  | takeLeft | takeRight | giveLeft | giveRight =>
      cases ho
      apply same h
      rw [hpc]
      rfl
  | tableLock | giveLock =>
      simp only [thinkingAndEating, Option.map_eq_some_iff] at ho
      obtain ⟨x, hx, rfl⟩ := ho
      apply same h
      rw [hpc]
      apply Option.map_eq_some_iff.mpr
      exact ⟨x, hx, rfl⟩
  | tableSpin | tableUnlock | giveUnlock =>
      simp only [thinkingAndEating, Option.map_eq_some_iff, Mutex.unlock_eq_some] at ho
      obtain ⟨x, ⟨-, rfl⟩, rfl⟩ := ho
      have hlift : (Pc.lift ∘ l) (some tid) = _ := congrArg Pc.lift hpc
      rw [Function.comp_update]
      exact h.exit hlift trivial rfl rfl id (fun _ => Iff.rfl)
  | create | join | destroy | failed => cases ho

/-- `main` leaves the table alone. -/
theorem main_frame {pc : Pc} {choice : Choice} {o : Outcome Mem Pc Event}
    (ho : main m pc choice = some o) :
  pc.lift = .read ∧ o.loc.lift = .read ∧ o.mem.chopsticks = m.chopsticks ∧
    o.mem.mutex.holder = m.mutex.holder
  := by
  cases pc with
  | create i =>
      simp only [main] at ho
      split_ifs at ho
      · cases choice <;> cases ho <;> simp [Pc.lift]
      · cases ho
        simp [Pc.lift]
  | destroy | failed =>
      cases ho
      simp [Pc.lift, Mutex.destroy]
  | _ => cases ho

/-- Every step of `main` keeps the table in order. -/
theorem keep_main (h : Version4.Table m.lift (Pc.lift ∘ l)) {choice : Choice}
    {o : Outcome Mem Pc Event} (ho : main m (l none) choice = some o) :
  Version4.Table o.mem.lift (Pc.lift ∘ Function.update l none o.loc)
  := by
  obtain ⟨hin, hin', hsticks, hmutex⟩ := main_frame ho
  rw [Function.comp_update, hin']
  apply h.move _ hsticks
  · rintro _ ⟨⟩
  · rintro _ ⟨⟩
  · show Guards o.mem.mutex.holder _ _
    rw [hmutex]
    apply h.guards.keep
    rw [Function.comp_apply, hin]

end Keep

/-- In every reachable state the table is in order. -/
theorem reachable_table {h : List (Party × Event)} {s : Global Party Mem Pc}
    (hs : table.Reachable Machine.Free h s) :
  Version4.Table s.mem.lift (Pc.lift ∘ s.loc)
  := by
  apply threads_invariant (I := fun m l _ => Version4.Table m.lift (Pc.lift ∘ l)) _ _ hs
  · rintro m l ⟨rfl, hmain, hborn⟩
    have hpcs : ∀ i, ¬ (l i).lift.insideTable ∧ ∀ tid k, ¬ (l i).lift.holds tid k := by
      rintro (_ | tid)
      · simp [hmain, Pc.lift, Version4.Pc.insideTable, Version4.Pc.holds]
      · simp [hborn tid, Pc.lift, Version4.Pc.insideTable, Version4.Pc.holds]
    constructor
    · apply Guards.of_outside
      intro i
      exact (hpcs i).1
    · intro k
      simp [Mem.lift, Mem.new, hpcs]
    · intro tid tid' k hk
      cases (hpcs _).2 _ _ hk
    · intro tid
      apply Version4.Pc.knows_of_outside
      exact (hpcs _).1
  · intro m l h i choice o hI _ ho
    simp only [step, Option.ite_none_left_eq_some] at ho
    obtain ⟨-, ho⟩ := ho
    cases i with
    | none => exact keep_main hI ho
    | some tid => exact philosopher hI ho

/-! ### The account -/

/-- A chopstick is taken exactly when one philosopher has it, as one of its two. -/
structure Accounted (s : Global Party Mem Pc) : Prop where
  taken : s.mem.mutex.holder = none → ∀ k, s.mem.chopsticks k = false
    ↔ ∃! tid : Fin 5, (s.loc (some tid)).eating ∧ (k = tid ∨ k = (tid.val + 1) % 5)
  apart : ∀ tid tid' : Fin 5, (s.loc (some tid)).eating → (s.loc (some tid')).eating →
    ∀ k, k = tid.val ∨ k = (tid.val + 1) % 5 → k = tid'.val ∨ k = (tid'.val + 1) % 5 → tid = tid'

theorem accounted {h : List (Party × Event)} {s : Global Party Mem Pc}
    (hs : table.Reachable Machine.Free h s) :
  Accounted s
  := by
  have htable := reachable_table hs
  constructor
  · intro hfree k
    have htaken := htable.taken hfree k
    simp only [Function.comp_apply, Pc.lift_eating] at htaken
    exact htaken
  · have hapart := htable.apart
    simp only [Function.comp_apply, Pc.lift_eating] at hapart
    exact hapart

/-- At every table of five or more in version 4, of which the one of five is version 3, seats
and chopsticks are accounted for, and in version 2 the chopsticks are. -/
theorem accounts :
  (∀ n, 5 ≤ n → ∀ (h : List (Version4.Party n × Version4.Event))
      (s : Global (Version4.Party n) (Version4.Mem n) Version4.Pc),
      (Version4.table n).Reachable Machine.Free h s → Version4.Accounted s) ∧
    ∀ (h : List (Party × Event)) (s : Global Party Mem Pc),
      table.Reachable Machine.Free h s → Accounted s
  := by
  constructor
  · intro n hn h s hs
    apply Version4.accounted (by omega) hs
  · intro h s hs
    apply accounted hs

/-- Philosopher `0` runs alone to its meal. -/
theorem reach_eating :
  ∃ h s, table.Reachable Machine.Free h s ∧ (s.loc (some 0)).eating
  := by
  have hinit : table.Initial ⟨.new, fun i => if i = none then .create 0 else .unborn⟩ :=
    ⟨rfl, rfl, fun _ => rfl⟩
  have hrun := Machine.exec_reachable (G := Machine.Free)
    ((none, .go) :: List.replicate 9 (some 0, .go)) hinit rfl
  exact ⟨_, _, hrun, trivial⟩

/-- The philosopher `0` eats, at a table of five in version 4 and in version 2. -/
theorem accounts_eating :
  (∃ h s, (Version4.table 5).Reachable Machine.Free h s ∧ (s.loc (some 0)).eating ∧
      Version4.Accounted s) ∧
    ∃ h s, table.Reachable Machine.Free h s ∧ (s.loc (some 0)).eating ∧ Accounted s
  := by
  constructor
  · obtain ⟨h, l, hmain, -, hborn⟩ :=
      Version4.reach_created (n := 5) (G := Machine.Free) (fun _ => trivial) le_rfl
    obtain ⟨h₀, hs₀⟩ := Version4.reach_eats 0 hmain (hborn 0) rfl (Nat.lt_of_sub_eq_succ rfl)
      rfl rfl rfl (by simp [Version4.Mem.new]) rfl rfl
    have heats : (Function.update l (some (0 : Fin 5)) .leaveLock (some 0)).eating := by
      rw [Function.update_self]
      trivial
    exact ⟨h₀, _, hs₀, heats, accounts.1 5 le_rfl h₀ _ hs₀⟩
  · obtain ⟨h, s, hs, heats⟩ := reach_eating
    exact ⟨h, s, hs, heats, accounts.2 h s hs⟩

end Version2

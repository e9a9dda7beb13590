import ParallelArch.Benchmark.Run

/-!
# Failures of a benchmark run

A failed run should end with the exit code `2`: no exception leaves a worker, and if the main
flow gives up, the workers it joins return (`Reported`).  This holds if and only if nothing
can fail: a worker that catches an exception always throws it again, and after the deadline
the workers wait for ever for `start_flag` or `fatal_error` (`reported_iff`).
-/

namespace Benchmark

variable {n : ℕ}

/-- What may fail in a run: what the points of the bodies may throw, and whether the
deadline may pass. -/
structure Plan (n : ℕ) where
  throws : Fin n → Point → Thrown → Prop
  late : Prop

/-- The plan allows the choice of the environment. -/
def Plan.Allows (plan : Plan n) (s : Global (Party n) (Mem n) Pc) :
    Party n × Choice → Prop
  | (_, .go) => True
  | (_, .late) => plan.late
  | (i, .throws thrown) =>
      ∃ tid point, i = some tid ∧ s.loc i = .body point ∧ plan.throws tid point thrown

/-- A worker gets to the point. -/
def Point.InBody (n : ℕ) : Point → Prop
  | .op i => i < opsPerThread n
  | _ => True

/-- Nothing fails. -/
def Plan.Calm (plan : Plan n) : Prop :=
  (∀ tid point thrown, point.InBody n → ¬ plan.throws tid point thrown) ∧ ¬ plan.late

/-- No exception has left a worker, and if the main flow has left the ready loop early, every
worker can still return and the run can end with the exit code `2`. -/
def Reported (plan : Plan n) (s : Global (Party n) (Mem n) Pc) : Prop :=
  s.mem.terminated = false ∧
    ∀ failure t, s.loc none = .leave failure t →
      (∀ tid, ∃ h s', (benchmark n).Run plan.Allows s h s' ∧ s'.loc (some tid) = .done) ∧
      ∃ h s', (benchmark n).Run plan.Allows s h s' ∧ s'.loc none = .exited 2

variable {plan : Plan n}

/-! ### Runs without failures -/

/-- Where a thread may be when nothing fails. -/
def Pc.Calm (n : ℕ) : Pc → Prop
  | .body point => point.InBody n
  | .caught _ | .rethrow _ | .threwOut | .leave _ _ | .threw _ | .exited _ => False
  | _ => True

theorem Plan.Calm.go (hcalm : plan.Calm) {s : Global (Party n) (Mem n) Pc} {i : Party n}
    {choice : Choice} (hpc : (s.loc i).Calm n) (hG : plan.Allows s (i, choice)) :
  choice = .go
  := by
  cases choice with
  | go => rfl
  | late => cases hcalm.2 hG
  | throws thrown =>
      obtain ⟨tid, point, rfl, hbody, hthrows⟩ := hG
      rw [hbody] at hpc
      cases hcalm.1 tid point thrown hpc hthrows

theorem worker_calm {tid : Fin n} {m : Mem n} {pc : Pc} {o : Outcome (Mem n) Pc Event}
    (hpc : pc.Calm n) (hmoves : Moves m tid pc .go o) :
  o.mem.fatalError = m.fatalError ∧ o.mem.terminated = m.terminated ∧ o.loc.Calm n
  := by
  cases hmoves with
  | next hi => exact ⟨rfl, rfl, hi⟩
  | caught | rethrow => cases hpc
  | _ => exact ⟨rfl, rfl, trivial⟩

theorem main_calm {m : Mem n} {pc : Pc} {o : Outcome (Mem n) Pc Event} (hpc : pc.Calm n)
    (hfine : m.fatalError = false) (hmoves : MainMoves m pc .go o) :
  o.mem.fatalError = m.fatalError ∧ o.mem.terminated = m.terminated ∧ o.loc.Calm n
  := by
  cases hmoves with
  | fatal hfatal | checkFatal hfatal =>
      rw [hfine] at hfatal
      cases hfatal
  | leaveJoin | leaveThrow | threw => cases hpc
  | _ => exact ⟨rfl, rfl, trivial⟩

/-- In a run in which nothing fails, nobody comes to a handler. -/
theorem reachable_calm (hcalm : plan.Calm) {h : List (Party n × Event)}
    {s : Global (Party n) (Mem n) Pc} (hs : (benchmark n).Reachable plan.Allows h s) :
  s.mem.fatalError = false ∧ s.mem.terminated = false ∧ ∀ i, (s.loc i).Calm n
  := by
  apply threads_invariant (I := fun m l _ =>
    m.fatalError = false ∧ m.terminated = false ∧ ∀ i, (l i).Calm n) _ _ hs
  · rintro m l ⟨rfl, hmain, hworkers⟩
    refine ⟨rfl, rfl, ?_⟩
    rintro (_ | tid)
    · rw [hmain]
      trivial
    · rw [hworkers tid]
      trivial
  · rintro m l h i choice o ⟨hfatal, hrun, hpc⟩ hG ho
    obtain rfl := hcalm.go (hpc i) hG
    obtain ⟨-, hmoves⟩ := step_running ho
    have hkeep : o.mem.fatalError = m.fatalError ∧ o.mem.terminated = m.terminated ∧
        o.loc.Calm n := by
      cases i with
      | none => exact main_calm (hpc none) hfatal hmoves
      | some tid => exact worker_calm (hpc (some tid)) hmoves
    refine ⟨hkeep.1.trans hfatal, hkeep.2.1.trans hrun, ?_⟩
    apply (Function.forall_update_iff l (fun _ pc => pc.Calm n)).mpr
    exact ⟨hkeep.2.2, fun j _ => hpc j⟩

/-! ### Runs to a point -/

/-- The main flow creates the last `k` workers. -/
theorem solo_create {k : ℕ} :
  ∀ {t : ℕ}, t + k = n →
    solo step none (List.replicate (k + 1) .go) { Mem.new n with created := t } (.create t) = some
      { mem := { Mem.new n with created := n }, loc := .readyTest }
  := by
  induction k with
  | zero =>
      rintro t rfl
      simp [solo, step, main, Mem.new]
  | succ k ih =>
      intro t ht
      have hlt : t < n := by omega
      have hrest := ih (t := t + 1) (by omega)
      simp only [Mem.new] at hrest
      rw [List.replicate_succ]
      simp [solo, step, main, Mem.new, hlt, hrest]

/-- The steps of a thread that makes no use of the failures are a run of every plan. -/
theorem go_run {i : Party n} {k : ℕ} {m : Mem n} {l : Party n → Pc}
    {o : Outcome (Mem n) Pc Event} (ho : solo step i (List.replicate k .go) m (l i) = some o) :
  (benchmark n).Run plan.Allows ⟨m, l⟩ (o.events.map (Prod.mk i))
    ⟨o.mem, Function.update l i o.loc⟩
  := by
  apply solo_run_guarded _ ho
  intro c hc s
  obtain rfl := List.eq_of_mem_replicate hc
  trivial

/-- All workers have been created, and none has taken a step. -/
theorem reach_created (plan : Plan n) :
  ∃ h l, (benchmark n).Reachable plan.Allows h ⟨{ Mem.new n with created := n }, l⟩ ∧
    l none = .readyTest ∧ ∀ tid, l (some tid) = .unborn
  := by
  have hinit : (benchmark n).Initial ⟨.new n, fun i => if i = none then .create 0 else .unborn⟩ :=
    ⟨rfl, rfl, fun _ => rfl⟩
  have hcreate : (benchmark n).Run plan.Allows
      ⟨.new n, fun i => if i = none then .create 0 else .unborn⟩ _ _ :=
    go_run (i := none) (solo_create (Nat.zero_add n))
  refine ⟨_, _, ⟨_, hinit, hcreate⟩, rfl, ?_⟩
  intro tid
  rfl

/-- The first `k` workers have signalled. -/
theorem reach_signalled (plan : Plan n) {k : ℕ} (hk : k ≤ n) :
  ∃ h l, (benchmark n).Reachable plan.Allows h
      ⟨{ Mem.new n with created := n, readyCount := k }, l⟩ ∧ l none = .readyTest ∧
    ∀ tid, l (some tid) = if tid.val < k then .body .startTest else .unborn
  := by
  induction k with
  | zero => exact reach_created plan
  | succ k ih =>
      obtain ⟨h, l, hs, hmain, hworkers⟩ := ih (Nat.le_of_succ_le hk)
      have hpc : l (some ⟨k, hk⟩) = .unborn := by
        rw [hworkers]
        apply if_neg
        apply lt_irrefl
      have hsolo : solo step (some ⟨k, hk⟩) (List.replicate 2 .go)
          { Mem.new n with created := n, readyCount := k } .unborn
          = some { mem := { Mem.new n with created := n, readyCount := k + 1 },
                   loc := .body .startTest } := by
        have hlt : k < n := hk
        simp [solo, step, worker, Mem.new, hlt]
      rw [← hpc] at hsolo
      refine ⟨_, _, hs.trans (go_run hsolo), hmain, ?_⟩
      intro tid
      rcases eq_or_ne tid ⟨k, hk⟩ with rfl | hne
      · simp
      · have hval : tid.val ≠ k := fun heq => hne (Fin.ext heq)
        have hlt : tid.val < k ↔ tid.val < k + 1 := by omega
        rw [Function.update_of_ne (by simpa using hne), hworkers]
        simp only [hlt]

/-- The workers have been let go. -/
theorem reach_started (plan : Plan n) :
  ∃ h l, (benchmark n).Reachable plan.Allows h
      ⟨{ Mem.new n with created := n, readyCount := n, startFlag := true }, l⟩ ∧
    ∀ tid, l (some tid) = .body .startTest
  := by
  obtain ⟨h, l, hs, hmain, hworkers⟩ := reach_signalled plan (le_refl n)
  have hsolo : solo step none (List.replicate 2 .go)
      { Mem.new n with created := n, readyCount := n } .readyTest
      = some { mem := { Mem.new n with created := n, readyCount := n, startFlag := true },
               loc := .join 0 } := by
    simp [solo, step, main, Mem.new]
  rw [← hmain] at hsolo
  refine ⟨_, _, hs.trans (go_run hsolo), ?_⟩
  intro tid
  rw [Function.update_of_ne (by simp), hworkers]
  exact if_pos tid.isLt

/-- A worker comes to each of its operations. -/
theorem solo_loop (tid : Fin n) {m : Mem n} (hrun : m.terminated = false) {d : ℕ} :
  ∀ {i : ℕ}, i + d < opsPerThread n →
    solo step (some tid) (List.replicate (2 * d + 1) .go) m (.loop i)
      = some { mem := m, loc := .body (.op (i + d)) }
  := by
  induction d with
  | zero =>
      intro i hi
      have hlt : i < opsPerThread n := hi
      simp [solo, step, worker, hrun, hlt]
  | succ d ih =>
      intro i hi
      have hlt : i < opsPerThread n := by omega
      have hrest := ih (i := i + 1) (by omega)
      rw [Nat.add_right_comm, Nat.add_assoc] at hrest
      rw [show 2 * (d + 1) + 1 = 2 * d + 1 + 1 + 1 by omega, List.replicate_succ,
        List.replicate_succ]
      simp [solo, step, worker, hrun, hlt, hrest]

theorem solo_started (tid : Fin n) {m : Mem n} (hrun : m.terminated = false)
    (hstart : m.startFlag = true) {i : ℕ} (hi : i < opsPerThread n) :
  solo step (some tid) (List.replicate (2 * i + 1 + 1) .go) m (.body .startTest)
    = some { mem := m, loc := .body (.op i) }
  := by
  have hi' : 0 + i < opsPerThread n := by
    rw [Nat.zero_add]
    apply hi
  have hloop := solo_loop tid hrun hi'
  rw [Nat.zero_add] at hloop
  rw [List.replicate_succ]
  simp [solo, step, worker, hrun, hstart, hloop]

/-- A worker comes to every point of its body in some run. -/
theorem reach_point (plan : Plan n) (tid : Fin n) {point : Point} (hpoint : point.InBody n) :
  ∃ h m l, (benchmark n).Reachable plan.Allows h ⟨m, l⟩ ∧ m.terminated = false ∧
    l (some tid) = .body point
  := by
  obtain ⟨h, l, hs, -, hborn⟩ := reach_created plan
  have early : ∀ {k m}, m.terminated = false →
      solo step (some tid) (List.replicate k .go) { Mem.new n with created := n } .unborn
        = some { mem := m, loc := .body point } →
      ∃ h m l, (benchmark n).Reachable plan.Allows h ⟨m, l⟩ ∧ m.terminated = false ∧
        l (some tid) = .body point := by
    intro k m hrun hsolo
    rw [← hborn tid] at hsolo
    refine ⟨_, _, _, hs.trans (go_run hsolo), hrun, ?_⟩
    apply Function.update_self
  cases point with
  | signal =>
      apply early (k := 1) (m := { Mem.new n with created := n }) rfl
      simp [solo, step, worker, Mem.new]
  | startTest =>
      apply early (k := 2) (m := { Mem.new n with created := n, readyCount := 1 }) rfl
      simp [solo, step, worker, Mem.new]
  | fatalTest =>
      apply early (k := 3) (m := { Mem.new n with created := n, readyCount := 1 }) rfl
      simp [solo, step, worker, Mem.new]
  | sleep =>
      apply early (k := 4) (m := { Mem.new n with created := n, readyCount := 1 }) rfl
      simp [solo, step, worker, Mem.new]
  | op i =>
      obtain ⟨h, l, hs, hstarted⟩ := reach_started plan
      have hsolo := solo_started tid
        (m := { Mem.new n with created := n, readyCount := n, startFlag := true }) rfl rfl hpoint
      rw [← hstarted tid] at hsolo
      refine ⟨_, _, _, hs.trans (go_run hsolo), rfl, ?_⟩
      apply Function.update_self

/-! ### Runs with failures -/

/-- An exception thrown in a body ends the process. -/
theorem terminates {tid : Fin n} {point : Point} {thrown : Thrown} (hpoint : point.InBody n)
    (hthrows : plan.throws tid point thrown) :
  ∃ h s, (benchmark n).Reachable plan.Allows h s ∧ s.mem.terminated = true
  := by
  obtain ⟨h, m, l, hs, hrun, hpc⟩ := reach_point plan tid hpoint
  have hthrow : step (some tid) m (l (some tid)) (.throws thrown)
      = some { mem := m, loc := .caught thrown } := by
    rw [hpc]
    simp [step, worker, hrun]
  have hallowed : plan.Allows ⟨m, l⟩ (some tid, .throws thrown) :=
    ⟨tid, point, rfl, hpc, hthrows⟩
  have hcaught : (benchmark n).Run plan.Allows ⟨m, l⟩ _ _ := threads_run_single hallowed hthrow
  have hsolo : solo step (some tid) (List.replicate 2 .go) m (.caught thrown)
      = some { mem := { m with fatalError := true, terminated := true }, loc := .threwOut,
               events := [.caught thrown] } := by
    simp [solo, step, worker, hrun]
  rw [← Function.update_self (some tid) (Pc.caught thrown) l] at hsolo
  exact ⟨_, _, (hs.trans hcaught).trans (go_run hsolo), rfl⟩

variable {m : Mem n} {l : Party n → Pc}

/-- The main flow has given up after the deadline, and the workers wait. -/
structure Stuck (m : Mem n) (l : Party n → Pc) : Prop where
  startFlag : m.startFlag = false
  fatalError : m.fatalError = false
  returned : m.returned = ∅
  main : l none = .leave .timeout 0
  workers : ∀ tid, l (some tid) = .unborn ∨
    ∃ point, l (some tid) = .body point ∧ ∀ i, point ≠ .op i

theorem Stuck.worker (h : Stuck m l) (hthrows : ∀ tid point thrown, point.InBody n →
    ¬ plan.throws tid point thrown) {tid : Fin n} {choice : Choice}
    {o : Outcome (Mem n) Pc Event} (hG : plan.Allows ⟨m, l⟩ (some tid, choice))
    (hmoves : Moves m tid (l (some tid)) choice o) :
  o.mem.startFlag = false ∧ o.mem.fatalError = false ∧ o.mem.returned = ∅ ∧
    (o.loc = .unborn ∨ ∃ point, o.loc = .body point ∧ ∀ i, point ≠ .op i)
  := by
  obtain ⟨hstart, hfatal, hreturned, -, hworkers⟩ := h
  have still : ∀ {point : Point}, (∀ i, point ≠ .op i) →
      ∃ point', Pc.body point = .body point' ∧ ∀ i, point' ≠ .op i := by
    intro point hpoint
    exact ⟨point, rfl, hpoint⟩
  rcases hworkers tid with hpc | ⟨point, hpc, hpoint⟩
  · rw [hpc] at hmoves
    cases hmoves
    refine ⟨hstart, hfatal, hreturned, .inr (still ?_)⟩
    rintro i ⟨⟩
  · rw [hpc] at hmoves
    cases hmoves with
    | @throws _ thrown =>
        obtain ⟨tid', point', htid, hpc', hthrow⟩ := hG
        cases htid
        obtain rfl : point = point' := Pc.body.inj (hpc.symm.trans hpc')
        have hin : point.InBody n := by
          cases point with
          | op i => cases hpoint i rfl
          | _ => trivial
        cases hthrows tid point thrown hin hthrow
    | started hstart' =>
        rw [hstart] at hstart'
        cases hstart'
    | givesUp hfatal' =>
        rw [hfatal] at hfatal'
        cases hfatal'
    | op => cases hpoint _ rfl
    | signal | notStarted | notFatal | sleep =>
        refine ⟨hstart, hfatal, hreturned, .inr (still ?_)⟩
        rintro i ⟨⟩

/-- If nothing throws, it stays so. -/
theorem Stuck.step (h : Stuck m l) (hn : 0 < n) (hthrows : ∀ tid point thrown,
    point.InBody n → ¬ plan.throws tid point thrown) {i : Party n} {choice : Choice}
    {o : Outcome (Mem n) Pc Event} (hG : plan.Allows ⟨m, l⟩ (i, choice))
    (ho : Benchmark.step i m (l i) choice = some o) :
  Stuck o.mem (Function.update l i o.loc)
  := by
  obtain ⟨-, hmoves⟩ := step_running ho
  cases i with
  | none =>
      simp only [h.main] at hmoves
      cases hmoves with
      | leaveJoin _ hreturned =>
          rw [h.returned] at hreturned
          obtain ⟨tid, hin, -⟩ := hreturned
          cases Finset.notMem_empty tid hin
      | leaveThrow ht => cases ht hn
  | some tid =>
      obtain ⟨hstart, hfatal, hreturned, hloc⟩ := h.worker hthrows hG hmoves
      refine ⟨hstart, hfatal, hreturned, ?_, ?_⟩
      · rw [Function.update_of_ne (Option.some_ne_none tid).symm]
        apply h.main
      · intro tid'
        rcases eq_or_ne tid' tid with rfl | hne
        · rw [Function.update_self]
          apply hloc
        · rw [Function.update_of_ne (by simpa using hne)]
          apply h.workers tid'

/-- If nothing throws and the deadline may pass, the main flow may wait for workers none of
which can return. -/
theorem hangs (plan : Plan n) (hn : 0 < n) (hthrows : ∀ tid point thrown, point.InBody n →
    ¬ plan.throws tid point thrown) (hlate : plan.late) :
  ∃ h m l, (benchmark n).Reachable plan.Allows h ⟨m, l⟩ ∧ l none = .leave .timeout 0 ∧
    ∀ tid h' s', (benchmark n).Run plan.Allows ⟨m, l⟩ h' s' → s'.loc (some tid) ≠ .done
  := by
  obtain ⟨h, l, hs, hmain, hborn⟩ := reach_created plan
  have hsolo : solo Benchmark.step none (List.replicate 2 .go) { Mem.new n with created := n }
      .readyTest = some { mem := { Mem.new n with created := n }, loc := .deadlineTest } := by
    simp [solo, Benchmark.step, main, Mem.new, hn.ne]
  rw [← hmain] at hsolo
  have hgiveUp : Benchmark.step none { Mem.new n with created := n } .deadlineTest .late
      = some { mem := { Mem.new n with created := n }, loc := .leave .timeout 0,
               events := [.timeout 0 n] } := rfl
  rw [← Function.update_self none Pc.deadlineTest l] at hgiveUp
  have hallowed : plan.Allows
      ⟨{ Mem.new n with created := n }, Function.update l none .deadlineTest⟩ (none, .late) := hlate
  have hleave : (benchmark n).Run plan.Allows _ _ _ := threads_run_single hallowed hgiveUp
  refine ⟨_, _, _, (hs.trans (go_run hsolo)).trans hleave, Function.update_self .., ?_⟩
  intro tid h' s' hrun hdone
  have hstuck : Stuck s'.mem s'.loc := by
    apply hrun.invariant (I := fun s _ => Stuck s.mem s.loc)
    · constructor
      · rfl
      · rfl
      · rfl
      · rfl
      · intro tid
        left
        apply hborn
    · rintro ⟨m, l⟩ h ⟨i, choice⟩ t e hI hG ht
      obtain ⟨o, ho, rfl, rfl⟩ := threads_next.mp ht
      apply hI.step hn hthrows hG ho
  rcases hstuck.workers tid with hpc | ⟨point, hpc, -⟩
  · rw [hdone] at hpc
    cases hpc
  · rw [hdone] at hpc
    cases hpc

/-! ### The claim of the benchmark -/

/-- Failures are reported if and only if nothing can fail. -/
theorem reported_iff (hn : 0 < n) (plan : Plan n) :
  (∀ h s, (benchmark n).Reachable plan.Allows h s → Reported plan s) ↔ plan.Calm
  := by
  constructor
  · intro hreported
    have hthrows : ∀ tid point thrown, point.InBody n → ¬ plan.throws tid point thrown := by
      intro tid point thrown hpoint hthrows
      obtain ⟨h, s, hs, hterminated⟩ := terminates hpoint hthrows
      have hrun := (hreported h s hs).1
      rw [hterminated] at hrun
      cases hrun
    use hthrows
    intro hlate
    obtain ⟨h, m, l, hs, hleave, hnever⟩ := hangs plan hn hthrows hlate
    obtain ⟨hreturn, -⟩ := (hreported h _ hs).2 _ _ hleave
    obtain ⟨h', s', hrun, hdone⟩ := hreturn ⟨0, hn⟩
    apply hnever _ _ _ hrun hdone
  · intro hcalm h s hs
    obtain ⟨-, hrun, hpc⟩ := reachable_calm hcalm hs
    use hrun
    intro failure t hleave
    have hmain := hpc none
    rw [hleave] at hmain
    cases hmain

/-- Nothing fails. -/
def Plan.fine (n : ℕ) : Plan n := ⟨fun _ _ _ => False, False⟩

/-- The first operation of each worker may throw. -/
def Plan.opThrows (n : ℕ) : Plan n :=
  ⟨fun _ point thrown => point = .op 0 ∧ thrown = .exception, False⟩

/-- Nothing throws, but the deadline may pass. -/
def Plan.delayed (n : ℕ) : Plan n := ⟨fun _ _ _ => False, True⟩

/-- Four workers are let go, and nothing fails. -/
theorem reported_four :
  ∃ h s, (benchmark 4).Reachable (Plan.fine 4).Allows h s ∧ s.mem.startFlag = true ∧
    Reported (Plan.fine 4) s
  := by
  obtain ⟨h, l, hs, -⟩ := reach_started (Plan.fine 4)
  have hcalm : (Plan.fine 4).Calm := ⟨fun _ _ _ _ => id, id⟩
  refine ⟨h, _, hs, rfl, ?_⟩
  apply (reported_iff (Nat.succ_pos 3) (Plan.fine 4)).mpr hcalm h _ hs

/-- One worker: an exception in its first operation ends the process, and after the deadline
the main flow waits for a worker that cannot return. -/
theorem not_reported_one :
  (∃ h s, (benchmark 1).Reachable (Plan.opThrows 1).Allows h s ∧ s.mem.terminated = true ∧
      ¬ Reported (Plan.opThrows 1) s) ∧
    ∃ h s, (benchmark 1).Reachable (Plan.delayed 1).Allows h s ∧
      s.loc none = .leave .timeout 0 ∧ ¬ Reported (Plan.delayed 1) s
  := by
  constructor
  · have hthrows : (Plan.opThrows 1).throws 0 (.op 0) .exception := ⟨rfl, rfl⟩
    have hpoint : (Point.op 0).InBody 1 := by
      simp [Point.InBody, opsPerThread, totalOperations]
    obtain ⟨h, s, hs, hterminated⟩ := terminates hpoint hthrows
    refine ⟨h, s, hs, hterminated, ?_⟩
    rintro ⟨hrun, -⟩
    rw [hterminated] at hrun
    cases hrun
  · obtain ⟨h, m, l, hs, hleave, hnever⟩ := hangs (Plan.delayed 1) Nat.one_pos
      (fun _ _ _ _ => id) trivial
    refine ⟨h, _, hs, hleave, ?_⟩
    rintro ⟨-, hreturn⟩
    obtain ⟨h', s', hrun, hdone⟩ := (hreturn _ _ hleave).1 0
    apply hnever _ _ _ hrun hdone

end Benchmark

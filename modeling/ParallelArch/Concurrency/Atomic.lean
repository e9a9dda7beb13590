import ParallelArch.Concurrency.CallHistory

/-!
# Atomic objects

A `SeqObject` says what each operation does to a state and what it answers.  `atomic` is the
machine in which threads share the object: a call is invoked, takes effect at one moment, and
returns, the moments of other calls falling in between.  A history of invocations and returns
is `Linearizable` if it is one of `atomic`; by `Run.ordered` there is then one legal sequence
of the operations in which the calls of every thread stand as the thread saw them and a call
that returned before another was invoked stands before it (`Ordered.before`), and which only
grows while the run goes on.

A machine whose histories are to be compared is `watch`ed: its own events are replaced by
those an observer is shown.  `Reachable.simulates` is the rule for forward simulations.
-/

universe u v w x

namespace Machine

variable {σ σ' α α' ε β : Type*} {M : Machine σ α ε} {G : σ → α → Prop}

/-! ### Watched machines -/

/-- The machine whose steps show what `see` makes of them. -/
def watch (M : Machine σ α ε) (see : σ → α → List ε → List β) : Machine σ α β where
  Initial := M.Initial
  next s a := (M.next s a).map fun r => (r.1, see s a r.2)

variable {see : σ → α → List ε → List β}

theorem watch_next {s t : σ} {a : α} {b : List β} :
  (M.watch see).next s a = some (t, b) ↔ ∃ e, M.next s a = some (t, e) ∧ b = see s a e
  := by
  simp only [watch, Option.map_eq_some_iff, Prod.exists, Prod.mk.injEq]
  constructor
  · rintro ⟨_, e, hstep, rfl, rfl⟩
    use e, hstep
  · rintro ⟨e, hstep, rfl⟩
    use t, e, hstep

/-- Watching a machine does not change where it goes. -/
theorem Run.unwatch {s t : σ} {b : List β} (hr : (M.watch see).Run G s b t) :
  ∃ h, M.Run G s h t
  := by
  induction hr with
  | nil => exact ⟨[], .nil⟩
  | snoc _ hG hstep ih =>
      obtain ⟨h, hrun⟩ := ih
      obtain ⟨e, hstep, -⟩ := watch_next.mp hstep
      use h ++ e, hrun.snoc hG hstep

theorem Reachable.unwatch {s : σ} {b : List β} (hs : (M.watch see).Reachable G b s) :
  ∃ h, M.Reachable G h s
  := by
  obtain ⟨s₀, hinit, hrun⟩ := hs
  obtain ⟨h, hrun'⟩ := hrun.unwatch
  use h, s₀, hinit

/-! ### Forward simulation -/

/-- If every step of a machine from a state that stands for `r` leads to a state that stands
for some `r'`, and another machine has a run from `r` to `r'` with the same events, then every
history of the first machine is one of the second. -/
theorem Reachable.simulates {N : Machine σ' α' ε} {R : σ → σ' → Prop}
    (start : ∀ s, M.Initial s → ∃ r, N.Initial r ∧ R s r)
    (step : ∀ s r a t e, R s r → G s a → M.next s a = some (t, e) →
      ∃ r', N.Run Free r e r' ∧ R t r')
    {s : σ} {h : List ε} (hs : M.Reachable G h s) :
  ∃ r, N.Reachable Free h r ∧ R s r
  := by
  obtain ⟨s₀, hinit, hrun⟩ := hs
  obtain ⟨r₀, hinit', hR⟩ := start s₀ hinit
  suffices key : ∃ r, N.Run Free r₀ h r ∧ R s r by
    obtain ⟨r, hrun', hR'⟩ := key
    use r, ⟨r₀, hinit', hrun'⟩
  induction hrun with
  | nil => exact ⟨r₀, .nil, hR⟩
  | snoc _ hG hstep ih =>
      obtain ⟨r, hrun', hR'⟩ := ih
      obtain ⟨r', hstep', hR''⟩ := step _ _ _ _ _ hR' hG hstep
      use r', hrun'.trans hstep'

end Machine

/-! ### Sequential objects -/

/-- What an operation `ω` does to a state `σ` and what it answers, unless it has to wait. -/
structure SeqObject (σ : Type u) (ω : Type v) (ρ : Type w) where
  start : σ
  apply : σ → ω → Option (σ × ρ)

/-- What a client sees of a call. -/
inductive ClientEvent (ω : Type v) (ρ : Type w) where
  | invoked (op : ω)
  | returned (res : ρ)
deriving DecidableEq

/-- The event begins a call. -/
def ClientEvent.isInvoked {ω : Type v} {ρ : Type w} : ClientEvent ω ρ → Bool
  | .invoked _ => true
  | .returned _ => false

/-- The event ends a call. -/
def ClientEvent.isReturned {ω : Type v} {ρ : Type w} : ClientEvent ω ρ → Bool
  | .invoked _ => false
  | .returned _ => true

namespace SeqObject

/-- Where a thread is in a call: before it, before the moment it takes effect, or after. -/
inductive Pc (ω : Type v) (ρ : Type w) where
  | idle
  | pending (op : ω)
  | done (res : ρ)

/-- The steps of a thread. -/
inductive Action (ω : Type v) where
  | invoke (op : ω)
  | take
  | reply

variable {σ : Type u} {ω : Type v} {ρ : Type w} {ι : Type x}

/-- One step of a thread using the object. -/
def step (O : SeqObject σ ω ρ) (_ : ι) (s : σ) :
    Pc ω ρ → Action ω → Option (Outcome σ (Pc ω ρ) (ClientEvent ω ρ))
  | .idle, .invoke op => some { mem := s, loc := .pending op, events := [.invoked op] }
  | .pending op, .take => (O.apply s op).map fun r => { mem := r.1, loc := .done r.2 }
  | .done res, .reply => some { mem := s, loc := .idle, events := [.returned res] }
  | _, _ => none

/-- The object shared by the threads `ι`, each making any calls. -/
def atomic (O : SeqObject σ ω ρ) (ι : Type x) [DecidableEq ι] :
    Machine (Global ι σ (Pc ω ρ)) (ι × Action ω) (ι × ClientEvent ω ρ) :=
  threads (fun s l => s = O.start ∧ ∀ i, l i = .idle) O.step

/-- The histories of the shared object. -/
def Linearizable [DecidableEq ι] (O : SeqObject σ ω ρ) (h : List (ι × ClientEvent ω ρ)) : Prop :=
  ∃ s, (O.atomic ι).Reachable Machine.Free h s

variable {O : SeqObject σ ω ρ} [DecidableEq ι] {s s' : σ} {l : ι → Pc ω ρ} {i : ι} {op : ω}
  {res : ρ}

theorem run_invoke (hl : l i = .idle) :
  (O.atomic ι).Run Machine.Free ⟨s, l⟩ [(i, .invoked op)]
    ⟨s, Function.update l i (.pending op)⟩
  := by
  have hstep : O.step i s (l i) (.invoke op)
      = some { mem := s, loc := .pending op, events := [.invoked op] } := by
    rw [hl]
    rfl
  apply threads_run_single (o := ⟨_, _, _⟩) trivial hstep

theorem run_take (hl : l i = .pending op) (ho : O.apply s op = some (s', res)) :
  (O.atomic ι).Run Machine.Free ⟨s, l⟩ [] ⟨s', Function.update l i (.done res)⟩
  := by
  have hstep : O.step i s (l i) .take = some { mem := s', loc := .done res } := by
    rw [hl]
    simp [step, ho]
  apply threads_run_single (o := ⟨_, _, _⟩) trivial hstep

theorem run_reply (hl : l i = .done res) :
  (O.atomic ι).Run Machine.Free ⟨s, l⟩ [(i, .returned res)] ⟨s, Function.update l i .idle⟩
  := by
  have hstep : O.step i s (l i) .reply
      = some { mem := s, loc := .idle, events := [.returned res] } := by
    rw [hl]
    rfl
  apply threads_run_single (o := ⟨_, _, _⟩) trivial hstep

/-! ### The order of the operations -/

/-- `O.Legal s ops s'`: the operations, one after another, lead from `s` to `s'` with these
answers. -/
inductive Legal (O : SeqObject σ ω ρ) (s : σ) : List (ω × ρ) → σ → Prop where
  | nil : Legal O s [] s
  | snoc {ops : List (ω × ρ)} {t t' : σ} {op : ω} {res : ρ} (legal : Legal O s ops t)
      (apply : O.apply t op = some (t', res)) : Legal O s (ops ++ [(op, res)]) t'

/-- What a thread has seen of its calls when the operations of its calls, in their order, are
`ops`: the last of them may not have returned, and another may have been invoked. -/
def Pc.seen (pc : Pc ω ρ) (ops : List (ω × ρ)) (seen : List (ClientEvent ω ρ)) : Prop :=
  let calls := ops.flatMap fun c => [.invoked c.1, .returned c.2]
  match pc with
  | .idle => seen = calls
  | .pending op => seen = calls ++ [.invoked op]
  | .done res => seen ++ [.returned res] = calls

/-- How many calls the thread `i` has invoked. -/
def invoked (i : ι) (h : List (ι × ClientEvent ω ρ)) : ℕ :=
  (ofThread i h).countP ClientEvent.isInvoked

/-- How many calls of the thread `i` have returned. -/
def returned (i : ι) (h : List (ι × ClientEvent ω ρ)) : ℕ :=
  (ofThread i h).countP ClientEvent.isReturned

/-- `order` is an order of the operations of the history `h` that explains it: the object
answers so, the calls of every thread stand as the thread saw them, and wherever the history
is cut, the order can be cut so that all the calls that have returned stand before the cut and
none that has not been invoked. -/
structure Ordered (O : SeqObject σ ω ρ) (h : List (ι × ClientEvent ω ρ)) (s : σ)
    (l : ι → Pc ω ρ) (order : List (ι × ω × ρ)) : Prop where
  legal : O.Legal O.start (order.map Prod.snd) s
  thread : ∀ i, (l i).seen (ofThread i order) (ofThread i h)
  realTime : ∀ h₁ h₂, h = h₁ ++ h₂ → ∃ o₁ o₂, order = o₁ ++ o₂ ∧
    ∀ i, returned i h₁ ≤ (ofThread i o₁).length ∧ (ofThread i o₁).length ≤ invoked i h₁

/-- Calls that have returned have taken effect, and calls that have taken effect have been
invoked. -/
theorem Pc.seen.between {pc : Pc ω ρ} {ops : List (ω × ρ)} {seen : List (ClientEvent ω ρ)}
    (h : pc.seen ops seen) :
  seen.countP ClientEvent.isReturned ≤ ops.length ∧
    ops.length ≤ seen.countP ClientEvent.isInvoked
  := by
  have hcalls : ∀ ops : List (ω × ρ),
      (ops.flatMap fun c => [ClientEvent.invoked c.1, .returned c.2]).countP
        ClientEvent.isReturned = ops.length ∧
      (ops.flatMap fun c => [ClientEvent.invoked c.1, .returned c.2]).countP
        ClientEvent.isInvoked = ops.length := by
    intro ops
    induction ops with
    | nil => exact ⟨rfl, rfl⟩
    | cons c ops ih =>
        simp [ClientEvent.isReturned, ClientEvent.isInvoked, List.countP_cons, ih.1, ih.2]
  obtain ⟨hreturned, hinvoked⟩ := hcalls ops
  cases pc with
  | idle =>
      rw [show seen = _ from h]
      exact ⟨hreturned.le, hinvoked.ge⟩
  | pending op =>
      rw [show seen = _ from h, List.countP_append, List.countP_append, hreturned, hinvoked]
      exact ⟨le_rfl, Nat.le_add_right _ _⟩
  | done res =>
      rw [← show seen ++ _ = _ from h, List.countP_append] at hreturned hinvoked
      exact ⟨hreturned ▸ Nat.le_add_right _ _, hinvoked.ge⟩

theorem Ordered.start (hl : ∀ i, l i = .idle) :
  O.Ordered [] O.start l []
  := by
  constructor
  · apply Legal.nil
  · intro i
    rw [hl i]
    rfl
  · intro h₁ h₂ hh
    obtain ⟨rfl, rfl⟩ := List.append_eq_nil_iff.mp hh.symm
    exact ⟨[], [], rfl, fun _ => ⟨le_rfl, le_rfl⟩⟩

/-- A call that has returned before another is invoked does not stand after it. -/
theorem Ordered.before {h₁ h₂ : List (ι × ClientEvent ω ρ)} {o₁ o₂ : List (ι × ω × ρ)}
    {x y : ι × ω × ρ} {order : List (ι × ω × ρ)} (hO : O.Ordered (h₁ ++ h₂) s l order)
    (hx : order = o₁ ++ x :: o₂) (hfresh : invoked x.1 h₁ ≤ (ofThread x.1 o₁).length) :
  returned y.1 h₁ ≤ (ofThread y.1 o₁).length
  := by
  obtain ⟨p, q, hpq, hcut⟩ := hO.realTime h₁ h₂ rfl
  obtain ⟨r, rfl, -⟩ | ⟨_ | ⟨z, r⟩, rfl, hr⟩ := List.append_eq_append_iff.mp (hpq.symm.trans hx)
  · apply (hcut y.1).1.trans
    simp [ofThread_append]
  · simpa using (hcut y.1).1
  · obtain ⟨rfl, -⟩ := List.cons.inj hr
    have htake := (hcut x.1).2
    rw [ofThread_append, List.length_append] at htake
    have hown : 0 < (ofThread x.1 (x :: r)).length := by simp [ofThread]
    omega

/-- A change for one thread that explains what this thread sees. -/
theorem Ordered.extend {h : List (ι × ClientEvent ω ρ)} {order : List (ι × ω × ρ)}
    {es : List (ClientEvent ω ρ)} {pc : Pc ω ρ} (hO : O.Ordered h s l order) (ops : List (ω × ρ))
    (hone : es.length ≤ 1) (hlegal : O.Legal O.start (order.map Prod.snd ++ ops) s')
    (hpc : pc.seen (ofThread i order ++ ops) (ofThread i h ++ es)) :
  O.Ordered (h ++ es.map (Prod.mk i)) s' (Function.update l i pc) (order ++ ops.map (Prod.mk i))
  := by
  have hthread : ∀ j, (Function.update l i pc j).seen (ofThread j (order ++ ops.map (Prod.mk i)))
      (ofThread j (h ++ es.map (Prod.mk i))) := by
    intro j
    rw [ofThread_append, ofThread_append]
    by_cases hj : j = i
    · subst hj
      rw [Function.update_self, ofThread_own, ofThread_own]
      apply hpc
    · rw [Function.update_of_ne hj, ofThread_other hj, ofThread_other hj, List.append_nil,
        List.append_nil]
      apply hO.thread j
  refine ⟨?_, hthread, ?_⟩
  · simpa using hlegal
  · intro h₁ h₂ hh
    obtain ⟨r, rfl, hr⟩ | ⟨r, rfl, hr⟩ := List.append_eq_append_iff.mp hh
    · cases r with
      | nil =>
          obtain ⟨o₁, o₂, rfl, hcut⟩ := hO.realTime h [] (List.append_nil h).symm
          use o₁, o₂ ++ ops.map (Prod.mk i), List.append_assoc ..
          simpa using hcut
      | cons e r =>
          have hlen := congrArg List.length hr
          simp only [List.length_map, List.length_append, List.length_cons] at hlen
          obtain rfl := List.length_eq_zero_iff.mp (show h₂.length = 0 by omega)
          rw [List.append_nil] at hr
          use order ++ ops.map (Prod.mk i), [], (List.append_nil _).symm
          rw [← hr]
          intro j
          apply (hthread j).between
    · obtain ⟨o₁, o₂, rfl, hcut⟩ := hO.realTime h₁ r rfl
      use o₁, o₂ ++ ops.map (Prod.mk i), List.append_assoc ..

/-- A step adds at most one operation at the end of the order. -/
theorem Ordered.step {h : List (ι × ClientEvent ω ρ)} {order : List (ι × ω × ρ)}
    (hO : O.Ordered h s l order) {a : Action ω} {o : Outcome σ (Pc ω ρ) (ClientEvent ω ρ)}
    (ho : O.step i s (l i) a = some o) :
  ∃ order', O.Ordered (h ++ o.events.map (Prod.mk i)) o.mem (Function.update l i o.loc)
    (order ++ order')
  := by
  have hi := hO.thread i
  cases hl : l i with
  | idle =>
      rw [hl] at ho hi
      cases a with
      | invoke op =>
          obtain rfl := Option.some.inj ho
          use []
          apply hO.extend [] le_rfl
          · simpa using hO.legal
          · simpa [Pc.seen] using hi
      | take | reply => cases ho
  | pending op =>
      rw [hl] at ho hi
      cases a with
      | take =>
          simp only [SeqObject.step, Option.map_eq_some_iff, Prod.exists] at ho
          obtain ⟨s', res, happly, rfl⟩ := ho
          use [(i, op, res)]
          apply hO.extend [(op, res)]
          · apply Nat.zero_le
          · apply hO.legal.snoc happly
          · rw [Pc.seen] at hi
            simp [Pc.seen, hi]
      | invoke | reply => cases ho
  | done res =>
      rw [hl] at ho hi
      cases a with
      | reply =>
          obtain rfl := Option.some.inj ho
          use []
          apply hO.extend [] le_rfl
          · simpa using hO.legal
          · simpa [Pc.seen] using hi
      | invoke | take => cases ho

/-- There is one legal order of the operations for the whole of a run: an order of the history
so far is continued by the operations that take effect later. -/
theorem Run.ordered {r t : Global ι σ (Pc ω ρ)} {h h' : List (ι × ClientEvent ω ρ)}
    {order : List (ι × ω × ρ)} (hO : O.Ordered h r.mem r.loc order)
    (hr : (O.atomic ι).Run Machine.Free r h' t) :
  ∃ order', O.Ordered (h ++ h') t.mem t.loc (order ++ order')
  := by
  induction hr with
  | nil =>
      use []
      simpa using hO
  | snoc _ _ hstep ih =>
      obtain ⟨order', hO'⟩ := ih
      obtain ⟨o, ho, rfl, rfl⟩ := threads_next.mp hstep
      obtain ⟨order'', hO''⟩ := hO'.step ho
      use order' ++ order''
      simpa using hO''

theorem Reachable.ordered {r : Global ι σ (Pc ω ρ)} {h : List (ι × ClientEvent ω ρ)}
    (hr : (O.atomic ι).Reachable Machine.Free h r) :
  ∃ order, O.Ordered h r.mem r.loc order
  := by
  obtain ⟨⟨_, l⟩, ⟨rfl, hl⟩, hrun⟩ := hr
  apply Run.ordered (Ordered.start hl) hrun

end SeqObject

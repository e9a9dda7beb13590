import Mathlib.Data.List.Basic
import Mathlib.Data.Set.Defs
import Mathlib.Logic.Relation

/-!
# Machines

A `Machine` has states, actions and events.  An action is either not enabled in a state
or leads to one state and emits a list of events; all freedom of the environment (which
thread moves, whether a weak operation fails) is in the choice of the action.  A run is
a sequence of steps, its history the events emitted on the way.  `Run G` are the runs
all of whose steps satisfy the guard `G`, a condition on the state before the step and
the action taken.  `Traces f s` are the histories of the runs from `s` as `f` shows them.
-/

universe u v w

/-- States `σ`, actions `α` and events `ε`, with the states a run may start from and the
effect of an action, if it is enabled. -/
structure Machine (σ : Type u) (α : Type v) (ε : Type w) where
  Initial : σ → Prop
  next : σ → α → Option (σ × List ε)

namespace Machine

variable {σ : Type u} {α : Type v} {ε : Type w}

/-- The guard every step satisfies. -/
def Free : σ → α → Prop := fun _ _ => True

instance (s : σ) (a : α) : Decidable (Free s a) := inferInstanceAs (Decidable True)

/-- `M.Run G s h t`: a run from `s` to `t` with history `h`, all of whose steps satisfy
`G`. -/
inductive Run (M : Machine σ α ε) (G : σ → α → Prop) (s : σ) : List ε → σ → Prop where
  | nil : Run M G s [] s
  | snoc {h : List ε} {t : σ} {a : α} {t' : σ} {e : List ε} (run : Run M G s h t)
      (guard : G t a) (step : M.next t a = some (t', e)) : Run M G s (h ++ e) t'

/-- `M.Reachable G h t`: a run from an initial state to `t` with history `h`, all of whose
steps satisfy `G`. -/
def Reachable (M : Machine σ α ε) (G : σ → α → Prop) (h : List ε) (t : σ) : Prop :=
  ∃ s, M.Initial s ∧ M.Run G s h t

variable {M : Machine σ α ε} {G G' : σ → α → Prop}

/-! ### Runs -/

theorem Run.single {s t : σ} {a : α} {e : List ε} (hG : G s a) (h : M.next s a = some (t, e)) :
  M.Run G s e t
  := .snoc (h := []) .nil hG h

theorem Run.trans {s t r : σ} {h h' : List ε} (hst : M.Run G s h t) (htr : M.Run G t h' r) :
  M.Run G s (h ++ h') r
  := by
  induction htr with
  | nil =>
      rw [List.append_nil]
      apply hst
  | snoc _ hG hstep ih =>
      rw [← List.append_assoc]
      apply Run.snoc ih hG hstep

/-- A run of a stronger guard is a run of a weaker one. -/
theorem Run.mono (hG : ∀ s a, G s a → G' s a) {s t : σ} {h : List ε} (hr : M.Run G s h t) :
  M.Run G' s h t
  := by
  induction hr with
  | nil => apply Run.nil
  | snoc _ hg hstep ih => apply Run.snoc ih (hG _ _ hg) hstep

theorem Run.free {s t : σ} {h : List ε} (hr : M.Run G s h t) :
  M.Run Free s h t
  := hr.mono (fun _ _ _ => trivial)

theorem Reachable.trans {s t : σ} {h h' : List ε} (hs : M.Reachable G h s)
    (hr : M.Run G s h' t) :
  M.Reachable G (h ++ h') t
  := by
  obtain ⟨s₀, hi, hs⟩ := hs
  use s₀, hi
  apply hs.trans hr

theorem Reachable.free {s : σ} {h : List ε} (hs : M.Reachable G h s) :
  M.Reachable Free h s
  := by
  obtain ⟨s₀, hi, hs⟩ := hs
  use s₀, hi
  apply hs.free

/-! ### Invariants -/

/-- What holds of the first state of a run and is kept by every step holds of its last
state. -/
theorem Run.invariant {I : σ → List ε → Prop} {s : σ} (start : I s [])
    (step : ∀ t h a t' e, I t h → G t a → M.next t a = some (t', e) → I t' (h ++ e))
    {h : List ε} {t : σ} (hr : M.Run G s h t) :
  I t h
  := by
  induction hr with
  | nil => apply start
  | snoc _ hg hstep ih => apply step _ _ _ _ _ ih hg hstep

/-- What holds of the initial states and is kept by every step holds of every reachable
state. -/
theorem Reachable.invariant {I : σ → List ε → Prop} (start : ∀ s, M.Initial s → I s [])
    (step : ∀ t h a t' e, I t h → G t a → M.next t a = some (t', e) → I t' (h ++ e))
    {h : List ε} {t : σ} (hr : M.Reachable G h t) :
  I t h
  := by
  obtain ⟨s, hs, hr⟩ := hr
  apply hr.invariant (start s hs) step

/-! ### Descent -/

/-- If from every state with `P` either `Q` holds or a run leads to a state with `P` of smaller
rank, then a run leads from every state with `P` to one with `P` and `Q`. -/
theorem reaches_of_descent {P Q : σ → Prop} (rank : σ → ℕ)
    (descend : ∀ s, P s → Q s ∨ ∃ h t, M.Run G s h t ∧ P t ∧ rank t < rank s) {s : σ}
    (hs : P s) :
  ∃ h t, M.Run G s h t ∧ P t ∧ Q t
  := by
  generalize hk : rank s = k
  induction k using Nat.strongRecOn generalizing s with
  | _ k ih =>
      subst hk
      rcases descend s hs with hQ | ⟨h, t, hrun, ht, hlt⟩
      · exact ⟨[], s, .nil, hs, hQ⟩
      · obtain ⟨h', t', hrun', ht', hQ⟩ := ih (rank t) hlt ht rfl
        exact ⟨h ++ h', t', hrun.trans hrun', ht', hQ⟩

/-! ### Executions -/

/-- The run taking the given actions, if they are enabled and satisfy the guard. -/
def exec (M : Machine σ α ε) (G : σ → α → Prop) [∀ s a, Decidable (G s a)] :
    σ → List α → Option (σ × List ε)
  | s, [] => some (s, [])
  | s, a :: as =>
      if G s a then
        match M.next s a with
        | none => none
        | some (t, e) => (exec M G t as).map fun r => (r.1, e ++ r.2)
      else none

theorem exec_run [∀ s a, Decidable (G s a)] {as : List α} :
  ∀ {s t : σ} {h : List ε}, M.exec G s as = some (t, h) → M.Run G s h t
  := by
  induction as with
  | nil =>
      intro s t h hx
      simp only [exec, Option.some.injEq, Prod.mk.injEq] at hx
      obtain ⟨rfl, rfl⟩ := hx
      apply Run.nil
  | cons a as ih =>
      intro s t h hx
      simp only [exec] at hx
      split at hx
      · rename_i hg
        cases hn : M.next s a with
        | none => simp [hn] at hx
        | some r =>
            obtain ⟨s', e⟩ := r
            simp only [hn, Option.map_eq_some_iff, Prod.mk.injEq, Prod.exists] at hx
            obtain ⟨t', h', hx, rfl, rfl⟩ := hx
            apply Run.trans (Run.single hg hn) (ih hx)
      · simp at hx

theorem exec_reachable [∀ s a, Decidable (G s a)] (as : List α) {s t : σ} {h : List ε}
    (hs : M.Initial s) (hx : M.exec G s as = some (t, h)) :
  M.Reachable G h t
  := ⟨s, hs, exec_run hx⟩

/-! ### Deterministic machines -/

/-- In a machine with one action, every run from `s` passes along the run from `s` that
ends in a state without a step. -/
theorem Run.prefix_of_final [Subsingleton α] {s t r : σ} {h h' : List ε}
    (hr : M.Run G' s h' r) (ht : M.Run G s h t) (final : ∀ a, M.next t a = none) :
  ∃ h₁, M.Run G r h₁ t ∧ h = h' ++ h₁
  := by
  induction hr with
  | nil => exact ⟨h, ht, rfl⟩
  | @snoc h₀ r a r' e _ hg hstep ih =>
      obtain ⟨h₁, hrun, rfl⟩ := ih
      have key : ∀ {g q}, M.Run G r g q → q = r ∧ g = [] ∨ ∃ g', M.Run G r' g' q ∧ g = e ++ g' := by
        intro g q hq
        induction hq with
        | nil =>
            left
            exact ⟨rfl, rfl⟩
        | @snoc g₀ q b q' e' hrun hg' hstep' ih =>
            right
            obtain rfl := Subsingleton.elim a b
            obtain ⟨rfl, rfl⟩ | ⟨g', hg₁, rfl⟩ := ih
            · rw [hstep] at hstep'
              obtain ⟨rfl, rfl⟩ := Prod.mk.inj (Option.some.inj hstep')
              use [], .nil
              simp
            · use g' ++ e', .snoc hg₁ hg' hstep'
              simp
      obtain ⟨rfl, -⟩ | ⟨g', hg₁, rfl⟩ := key hrun
      · rw [final a] at hstep
        cases hstep
      · use g', hg₁
        simp

/-- A run that goes on from its first state has a step there. -/
theorem Run.first {s t : σ} {h : List ε} (hr : M.Run G s h t) :
  t = s ∨ ∃ a, G s a ∧ M.next s a ≠ none
  := by
  induction hr with
  | nil =>
      left
      rfl
  | @snoc _ t a _ _ _ hg hstep ih =>
      right
      rcases ih with rfl | hfirst
      · use a, hg
        rw [hstep]
        rintro ⟨⟩
      · apply hfirst

/-- A run from a state without a step stays there. -/
theorem Run.eq_of_final {s t : σ} {h : List ε} (hr : M.Run G s h t)
    (final : ∀ a, M.next s a = none) :
  t = s
  := by
  apply hr.first.resolve_right
  rintro ⟨a, -, hstep⟩
  apply hstep (final a)

/-- In a machine with one action, every run from `s` but the longest ends where the guard of
the longest holds. -/
theorem Run.guard_of_final [Subsingleton α] {s t r : σ} {h h' : List ε}
    (hr : M.Run G' s h' r) (ht : M.Run G s h t) (final : ∀ a, M.next t a = none) :
  r = t ∨ ∃ a, G r a
  := by
  obtain ⟨h₁, hrest, -⟩ := hr.prefix_of_final ht final
  apply hrest.first.imp
  · apply Eq.symm
  · rintro ⟨a, hG, -⟩
    use a

/-! ### Traces -/

section Traces

variable {β : Type*} {f : ε → Option β}

/-- What `f` shows of the histories of the runs from `s`. -/
def Traces (M : Machine σ α ε) (f : ε → Option β) (s : σ) : Set (List β) :=
  {bs | ∃ h t, M.Run Free s h t ∧ h.filterMap f = bs}

/-- Let `J t bs` say that `bs` is left to be shown from `t` on.  If every step shows the
next part of it, only prefixes are shown. -/
theorem prefix_of_mem_traces {J : σ → List β → Prop}
    (step : ∀ t bs a t' e, J t bs → M.next t a = some (t', e) →
      ∃ bs', J t' bs' ∧ bs = e.filterMap f ++ bs')
    {s : σ} {as bs : List β} (start : J s bs) (has : as ∈ M.Traces f s) :
  as <+: bs
  := by
  obtain ⟨h, t, hrun, rfl⟩ := has
  have key : ∃ bs', J t bs' ∧ bs = h.filterMap f ++ bs' := by
    induction hrun with
    | nil => exact ⟨bs, start, rfl⟩
    | snoc _ _ hstep ih =>
        obtain ⟨bs', hleft, rfl⟩ := ih
        obtain ⟨bs'', hleft', rfl⟩ := step _ _ _ _ _ hleft hstep
        use bs'', hleft'
        rw [List.filterMap_append, List.append_assoc]
  obtain ⟨bs', -, rfl⟩ := key
  apply List.prefix_append

/-- If the next part of what is left can always be shown, every prefix is shown. -/
theorem mem_traces_of_prefix {J : σ → List β → Prop}
    (progress : ∀ t b bs, J t (b :: bs) →
      ∃ h t', M.Run Free t h t' ∧ h.filterMap f = [b] ∧ J t' bs)
    {as : List β} :
  ∀ {s : σ} {bs : List β}, J s bs → as <+: bs → as ∈ M.Traces f s
  := by
  induction as with
  | nil =>
      intro s bs _ _
      exact ⟨[], s, .nil, rfl⟩
  | cons a as ih =>
      rintro s _ hJ ⟨bs, rfl⟩
      obtain ⟨h, t, hrun, hshow, hJ⟩ := progress s a (as ++ bs) hJ
      obtain ⟨h', t', hrun', rfl⟩ := ih hJ (List.prefix_append as bs)
      use h ++ h', t', hrun.trans hrun'
      rw [List.filterMap_append, hshow]
      rfl

end Traces

/-! ### Lockstep -/

section Lockstep

variable {σ' ε' β : Type*} {N : Machine σ' α ε'} {I : σ → Prop} {f : σ → σ'} {g : ε → ε'}

/-- From the image under `f` of a state with `I`, the machine `N` moves as `M` moves from the
state, and `M` keeps `I`. -/
structure Lockstep (M : Machine σ α ε) (N : Machine σ' α ε') (I : σ → Prop) (f : σ → σ')
    (g : ε → ε') : Prop where
  next : ∀ s a, I s → N.next (f s) a = (M.next s a).map fun r => (f r.1, r.2.map g)
  keep : ∀ s a t e, I s → M.next s a = some (t, e) → I t

theorem Lockstep.run (hl : Lockstep M N I f g) {s t : σ} {h : List ε} (hs : I s)
    (hr : M.Run Free s h t) :
  I t ∧ N.Run Free (f s) (h.map g) (f t)
  := by
  induction hr with
  | nil => exact ⟨hs, .nil⟩
  | snoc _ _ hstep ih =>
      obtain ⟨ht, hrun⟩ := ih
      use hl.keep _ _ _ _ ht hstep
      rw [List.map_append]
      apply Run.snoc hrun trivial
      rw [hl.next _ _ ht, hstep]
      rfl

theorem Lockstep.run_iff (hl : Lockstep M N I f g) {s : σ} (hs : I s) {h' : List ε'} {t' : σ'} :
  N.Run Free (f s) h' t' ↔ ∃ h t, M.Run Free s h t ∧ h' = h.map g ∧ t' = f t
  := by
  constructor
  · intro hr
    induction hr with
    | nil => exact ⟨[], s, .nil, rfl, rfl⟩
    | snoc _ _ hstep ih =>
        obtain ⟨h, t, hrun, rfl, rfl⟩ := ih
        obtain ⟨ht, -⟩ := hl.run hs hrun
        rw [hl.next _ _ ht, Option.map_eq_some_iff] at hstep
        obtain ⟨⟨t₁, e⟩, hnext, hr⟩ := hstep
        obtain ⟨rfl, rfl⟩ := Prod.mk.inj hr
        exact ⟨h ++ e, t₁, hrun.snoc trivial hnext, (List.map_append ..).symm, rfl⟩
  · rintro ⟨h, t, hrun, rfl, rfl⟩
    apply (hl.run hs hrun).2

/-- Machines in lockstep show the same. -/
theorem Lockstep.traces (hl : Lockstep M N I f g) {s : σ} (hs : I s) (v : ε' → Option β) :
  N.Traces v (f s) = M.Traces (fun e => v (g e)) s
  := by
  ext bs
  constructor
  · rintro ⟨h', t', hrun', rfl⟩
    obtain ⟨h, t, hrun, rfl, rfl⟩ := (hl.run_iff hs).mp hrun'
    use h, t, hrun
    rw [List.filterMap_map]
    rfl
  · rintro ⟨h, t, hrun, rfl⟩
    use h.map g, f t, (hl.run hs hrun).2
    rw [List.filterMap_map]
    rfl

end Lockstep

end Machine

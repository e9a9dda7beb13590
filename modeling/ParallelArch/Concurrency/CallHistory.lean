import ParallelArch.Concurrency.Threads

/-!
# The calls of a thread

`ofThread i h` is the part of a history that the thread `i` emitted; a thread at a time, it is
determined by the steps of this thread (`run_own`).  When every thread works off a list of
calls, and `shows call es` says which events a call emits from its beginning to its return,
the events of a thread are those of the calls it has begun, one after another, the last of
them perhaps cut short: `Showing`.
-/

variable {ι κ μ τ γ ε : Type*} [DecidableEq ι]

/-! ### The events of one thread -/

/-- What belongs to the thread `i`. -/
def ofThread (i : ι) (es : List (ι × ε)) : List ε :=
  es.filterMap fun e => if e.1 = i then some e.2 else none

@[simp]
theorem ofThread_nil (i : ι) :
  ofThread i ([] : List (ι × ε)) = []
  := rfl

theorem ofThread_append (i : ι) (es es' : List (ι × ε)) :
  ofThread i (es ++ es') = ofThread i es ++ ofThread i es'
  := List.filterMap_append

theorem ofThread_own (i : ι) (es : List ε) :
  ofThread i (es.map (Prod.mk i)) = es
  := by simp [ofThread, List.filterMap_map]

theorem ofThread_other {i j : ι} (hj : j ≠ i) (es : List ε) :
  ofThread j (es.map (Prod.mk i)) = []
  := by simp [ofThread, List.filterMap_map, Ne.symm hj]

/-- What holds of every thread at the start, and what each step of a thread keeps of itself,
holds of every thread and its own events in the course of a run. -/
theorem run_own {Initial : μ → (ι → τ) → Prop}
    {step : ι → μ → τ → γ → Option (Outcome μ τ ε)} {G : Global ι μ τ → ι × γ → Prop}
    {I : ι → List ε → τ → Prop} {s t : Global ι μ τ} {h : List (ι × ε)}
    (start : ∀ i, I i [] (s.loc i))
    (keep : ∀ i m l es c o, I i es l → step i m l c = some o → I i (es ++ o.events) o.loc)
    (hr : (threads Initial step).Run G s h t) :
  ∀ i, I i (ofThread i h) (t.loc i)
  := by
  induction hr with
  | nil => exact start
  | @snoc _ _ a _ _ _ _ hstep ih =>
      obtain ⟨o, ho, rfl, rfl⟩ := threads_next.mp hstep
      intro j
      rw [ofThread_append]
      by_cases hj : j = a.1
      · subst hj
        simp only [ofThread_own, Function.update_self]
        apply keep _ _ _ _ _ _ (ih a.1) ho
      · simp only [ofThread_other hj, List.append_nil, Function.update_of_ne hj]
        apply ih j

/-! ### Calls and their events -/

section Shown

variable {shows : κ → List ε → Prop}

/-- The events show the calls, one after another. -/
inductive Shown (shows : κ → List ε → Prop) : List κ → List ε → Prop where
  | nil : Shown shows [] []
  | snoc {calls : List κ} {es : List ε} {call : κ} {e : List ε} (shown : Shown shows calls es)
      (last : shows call e) : Shown shows (calls ++ [call]) (es ++ e)

/-- The events show the calls, the last of them as far as it has come. -/
def Showing (shows : κ → List ε → Prop) (calls : List κ) (es : List ε) : Prop :=
  Shown shows calls es ∨ ∃ done call ds e e', calls = done ++ [call] ∧ es = ds ++ e ∧
    Shown shows done ds ∧ shows call (e ++ e')

variable {todo : τ → List κ} {now : τ → List κ → List ε → Prop}

/-- A thread that had `calls` to make and has emitted `es`: it has shown some of the calls and
is in the midst of another one or of none, as `now` says. -/
def Follows (shows : κ → List ε → Prop) (todo : τ → List κ) (now : τ → List κ → List ε → Prop)
    (calls : List κ) (es : List ε) (t : τ) : Prop :=
  ∃ done ds call e, Shown shows done ds ∧ now t call e ∧ calls = done ++ (call ++ todo t) ∧
    es = ds ++ e

/-- A thread goes on with its call, or begins one. -/
theorem Follows.go {calls : List κ} {es e' : List ε} {t t' : τ}
    (hf : Follows shows todo now calls es t)
    (hgo : ∀ call e, now t call e → ∃ call', now t' call' (e ++ e') ∧
      call ++ todo t = call' ++ todo t') :
  Follows shows todo now calls (es ++ e') t'
  := by
  obtain ⟨done, ds, call, e, hshown, hnow, rfl, rfl⟩ := hf
  obtain ⟨call', hnow', htodo⟩ := hgo call e hnow
  use done, ds, call', e ++ e', hshown, hnow'
  rw [htodo, List.append_assoc]
  exact ⟨rfl, rfl⟩

/-- A call returns. -/
theorem Follows.done {calls : List κ} {es e' : List ε} {t t' : τ}
    (hf : Follows shows todo now calls es t)
    (hend : ∀ call e, now t call e → ∃ c, call = [c] ∧ shows c (e ++ e')) (htodo : todo t' = todo t)
    (hnow' : now t' [] []) :
  Follows shows todo now calls (es ++ e') t'
  := by
  obtain ⟨done, ds, call, e, hshown, hnow, rfl, rfl⟩ := hf
  obtain ⟨c, rfl, hc⟩ := hend call e hnow
  use done ++ [c], ds ++ (e ++ e'), [], [], hshown.snoc hc, hnow'
  rw [htodo, List.append_assoc, List.append_assoc, List.append_nil]
  exact ⟨rfl, rfl⟩

/-- What a thread has emitted shows the calls it has begun; outside a call it shows them
whole. -/
theorem Follows.showing {calls : List κ} {es : List ε} {t : τ} {idle : Prop}
    (hf : Follows shows todo now calls es t)
    (hidle : ∀ call e, idle → now t call e → call = [] ∧ e = [])
    (hnow : ∀ call e, now t call e →
      call = [] ∧ e = [] ∨ ∃ c e', call = [c] ∧ shows c (e ++ e')) :
  ∃ begun, calls = begun ++ todo t ∧ Showing shows begun es ∧ (idle → Shown shows begun es)
  := by
  obtain ⟨done, ds, call, e, hshown, hcall, rfl, rfl⟩ := hf
  use done ++ call, (List.append_assoc ..).symm
  constructor
  · rcases hnow call e hcall with ⟨rfl, rfl⟩ | ⟨c, e', rfl, hc⟩
    · left
      simpa using hshown
    · right
      use done, c, ds, e, e'
  · intro ht
    obtain ⟨rfl, rfl⟩ := hidle call e ht hcall
    simpa using hshown

end Shown

import Mathlib.Algebra.BigOperators.Group.Finset.Basic
import Mathlib.Algebra.Order.BigOperators.Group.Finset
import Mathlib.Logic.Function.Basic
import ParallelArch.Concurrency.Machine

/-!
# Threads over a shared memory

A family of threads indexed by `ι` shares a memory `μ`; each thread has a state `τ` of its
own.  `threads` is the machine in which one thread at a time takes one step: an action
names the thread and the choice `γ` its step makes, and every event carries the thread
that emitted it.

A quantity summed over all threads is `total`.
-/

universe u v w x

/-- The effect of one step of a thread: the memory and the state of the thread after it,
and the events it emits. -/
structure Outcome (μ : Type u) (τ : Type v) (ε : Type w) where
  mem : μ
  loc : τ
  events : List ε := []

/-- A shared memory with the states of all threads. -/
structure Global (ι : Type u) (μ : Type v) (τ : Type w) where
  mem : μ
  loc : ι → τ

variable {ι μ τ γ ε : Type*} [DecidableEq ι]

/-- The machine in which one thread at a time takes a step. -/
def threads (Initial : μ → (ι → τ) → Prop) (step : ι → μ → τ → γ → Option (Outcome μ τ ε)) :
    Machine (Global ι μ τ) (ι × γ) (ι × ε) where
  Initial s := Initial s.mem s.loc
  next s a := (step a.1 s.mem (s.loc a.1) a.2).map fun o =>
    (⟨o.mem, Function.update s.loc a.1 o.loc⟩, o.events.map (Prod.mk a.1))

variable {Initial : μ → (ι → τ) → Prop} {step : ι → μ → τ → γ → Option (Outcome μ τ ε)}
  {G : Global ι μ τ → ι × γ → Prop}

theorem threads_next {s s' : Global ι μ τ} {a : ι × γ} {e : List (ι × ε)} :
  (threads Initial step).next s a = some (s', e)
    ↔ ∃ o, step a.1 s.mem (s.loc a.1) a.2 = some o ∧
        s' = ⟨o.mem, Function.update s.loc a.1 o.loc⟩ ∧ e = o.events.map (Prod.mk a.1)
  := by
  simp only [threads, Option.map_eq_some_iff, Prod.mk.injEq]
  constructor
  · rintro ⟨o, ho, rfl, rfl⟩
    exact ⟨o, ho, rfl, rfl⟩
  · rintro ⟨o, ho, rfl, rfl⟩
    exact ⟨o, ho, rfl, rfl⟩

/-- The step of a thread as a run. -/
theorem threads_run_single {m : μ} {l : ι → τ} {i : ι} {c : γ} {o : Outcome μ τ ε}
    (hG : G ⟨m, l⟩ (i, c)) (h : step i m (l i) c = some o) :
  (threads Initial step).Run G ⟨m, l⟩ (o.events.map (Prod.mk i))
    ⟨o.mem, Function.update l i o.loc⟩
  := by
  apply Machine.Run.single hG
  apply threads_next.mpr
  exact ⟨o, h, rfl, rfl⟩

/-- What holds initially and is kept by every step of every thread holds of every
reachable state. -/
theorem threads_invariant {I : μ → (ι → τ) → List (ι × ε) → Prop}
    (start : ∀ m l, Initial m l → I m l [])
    (keep : ∀ m l h i c o, I m l h → G ⟨m, l⟩ (i, c) → step i m (l i) c = some o →
      I o.mem (Function.update l i o.loc) (h ++ o.events.map (Prod.mk i)))
    {h : List (ι × ε)} {s : Global ι μ τ} (hs : (threads Initial step).Reachable G h s) :
  I s.mem s.loc h
  := by
  apply hs.invariant (I := fun s h => I s.mem s.loc h)
  · intro s
    apply start
  · rintro ⟨m, l⟩ h ⟨i, c⟩ t e hI hG ht
    obtain ⟨o, ho, rfl, rfl⟩ := threads_next.mp ht
    apply keep _ _ _ _ _ _ hI hG ho

/-! ### One thread running alone -/

/-- The steps of the thread `i` alone, making the given choices. -/
def solo (step : ι → μ → τ → γ → Option (Outcome μ τ ε)) (i : ι) :
    List γ → μ → τ → Option (Outcome μ τ ε)
  | [], m, t => some { mem := m, loc := t }
  | c :: cs, m, t =>
      match step i m t c with
      | none => none
      | some o =>
          (solo step i cs o.mem o.loc).map fun o' => { o' with events := o.events ++ o'.events }

/-- A thread running alone is a run, if the guard allows its choices. -/
theorem solo_run_guarded {i : ι} {cs : List γ} :
  ∀ {m : μ} {l : ι → τ} {o : Outcome μ τ ε}, (∀ c ∈ cs, ∀ s, G s (i, c)) →
    solo step i cs m (l i) = some o →
    (threads Initial step).Run G ⟨m, l⟩ (o.events.map (Prod.mk i))
      ⟨o.mem, Function.update l i o.loc⟩
  := by
  induction cs with
  | nil =>
      rintro m l o _ ho
      obtain rfl := Option.some.inj ho
      rw [Function.update_eq_self]
      apply Machine.Run.nil
  | cons c cs ih =>
      intro m l o hG ho
      simp only [solo] at ho
      cases hstep : step i m (l i) c with
      | none => simp [hstep] at ho
      | some o₁ =>
          simp only [hstep, Option.map_eq_some_iff] at ho
          obtain ⟨o₂, ho₂, rfl⟩ := ho
          have hfirst : (threads Initial step).Run G _ _ _ :=
            threads_run_single (hG c List.mem_cons_self _) hstep
          have hrest := ih (l := Function.update l i o₁.loc) (m := o₁.mem) (o := o₂)
            (fun c' hc' => hG c' (List.mem_cons_of_mem c hc'))
          rw [Function.update_self, Function.update_idem] at hrest
          rw [List.map_append]
          apply hfirst.trans (hrest ho₂)

theorem solo_run {i : ι} {cs : List γ} {m : μ} {l : ι → τ} {o : Outcome μ τ ε}
    (ho : solo step i cs m (l i) = some o) :
  (threads Initial step).Run Machine.Free ⟨m, l⟩ (o.events.map (Prod.mk i))
    ⟨o.mem, Function.update l i o.loc⟩
  := solo_run_guarded (fun _ _ _ => trivial) ho

omit [DecidableEq ι] in
/-- What every step of a thread keeps, its steps alone keep. -/
theorem solo_keeps {i : ι} {I : μ → τ → List ε → Prop}
    (keep : ∀ m t h c o, I m t h → step i m t c = some o → I o.mem o.loc (h ++ o.events))
    {cs : List γ} :
  ∀ {m : μ} {t : τ} {h : List ε} {o : Outcome μ τ ε}, I m t h → solo step i cs m t = some o →
    I o.mem o.loc (h ++ o.events)
  := by
  induction cs with
  | nil =>
      rintro m t h o hI ho
      obtain rfl := Option.some.inj ho
      rw [List.append_nil]
      apply hI
  | cons c cs ih =>
      intro m t h o hI ho
      simp only [solo] at ho
      cases hstep : step i m t c with
      | none => simp [hstep] at ho
      | some o₁ =>
          simp only [hstep, Option.map_eq_some_iff] at ho
          obtain ⟨o₂, ho₂, rfl⟩ := ho
          have hI₂ := ih (keep m t h c o₁ hI hstep) ho₂
          rw [List.append_assoc] at hI₂
          apply hI₂

omit [DecidableEq ι] in
/-- The steps of a thread alone, in two parts. -/
theorem solo_append {i : ι} {cs cs' : List γ} :
  ∀ {m : μ} {t : τ} {o o' : Outcome μ τ ε}, solo step i cs m t = some o →
    solo step i cs' o.mem o.loc = some o' →
    solo step i (cs ++ cs') m t = some { o' with events := o.events ++ o'.events }
  := by
  induction cs with
  | nil =>
      rintro m t o o' ho ho'
      obtain rfl := Option.some.inj ho
      apply ho'
  | cons c cs ih =>
      intro m t o o' ho ho'
      simp only [solo] at ho
      cases hstep : step i m t c with
      | none => simp [hstep] at ho
      | some o₁ =>
          simp only [hstep, Option.map_eq_some_iff] at ho
          obtain ⟨o₂, ho₂, rfl⟩ := ho
          rw [List.cons_append]
          simp only [solo, hstep, ih ho₂ ho', Option.map_some, List.append_assoc]

/-! ### One thread only -/

section Alone

variable {β : Type*} {f : Unit × ε → Option β} {Initial : μ → (Unit → τ) → Prop}
  {step : Unit → μ → τ → γ → Option (Outcome μ τ ε)} {m : μ} {t : τ}

theorem update_unit (t t' : τ) :
  Function.update (fun _ => t) () t' = fun _ => t'
  := by
  funext i
  apply Function.update_self

theorem alone_run {cs : List γ} {o : Outcome μ τ ε} (ho : solo step () cs m t = some o) :
  (threads Initial step).Run Machine.Free ⟨m, fun _ => t⟩ (o.events.map (Prod.mk ()))
    ⟨o.mem, fun _ => o.loc⟩
  := by
  rw [← update_unit t o.loc]
  apply solo_run ho

/-- If `J m t bs` says that `bs` is left to be shown, and every step shows the next part of
it, only prefixes are shown. -/
theorem alone_prefix {J : μ → τ → List β → Prop}
    (keep : ∀ m t bs c o, J m t bs → step () m t c = some o →
      ∃ bs', J o.mem o.loc bs' ∧ bs = (o.events.map (Prod.mk ())).filterMap f ++ bs')
    {as bs : List β} (start : J m t bs)
    (has : as ∈ (threads Initial step).Traces f ⟨m, fun _ => t⟩) :
  as <+: bs
  := by
  apply Machine.prefix_of_mem_traces (J := fun s bs => ∃ m t, s = ⟨m, fun _ => t⟩ ∧ J m t bs)
    _ _ has
  · rintro _ bs ⟨⟨⟩, c⟩ s' e ⟨m, t, rfl, hJ⟩ hnext
    obtain ⟨o, ho, rfl, rfl⟩ := threads_next.mp hnext
    obtain ⟨bs', hJ', hbs⟩ := keep m t bs c o hJ ho
    refine ⟨bs', ⟨o.mem, o.loc, ?_, hJ'⟩, hbs⟩
    exact congrArg _ (update_unit t o.loc)
  · exact ⟨m, t, rfl, start⟩

/-- If the next part of what is left can always be shown, every prefix is shown. -/
theorem prefix_alone {J : μ → τ → List β → Prop}
    (progress : ∀ m t b bs, J m t (b :: bs) → ∃ cs o, solo step () cs m t = some o ∧
      (o.events.map (Prod.mk ())).filterMap f = [b] ∧ J o.mem o.loc bs)
    {as bs : List β} (start : J m t bs) (has : as <+: bs) :
  as ∈ (threads Initial step).Traces f ⟨m, fun _ => t⟩
  := by
  apply Machine.mem_traces_of_prefix (J := fun s bs => ∃ m t, s = ⟨m, fun _ => t⟩ ∧ J m t bs)
    _ _ has
  · rintro _ b bs ⟨m, t, rfl, hJ⟩
    obtain ⟨cs, o, ho, hshow, hJ'⟩ := progress m t b bs hJ
    exact ⟨_, _, alone_run ho, hshow, o.mem, o.loc, rfl, hJ'⟩
  · exact ⟨m, t, rfl, start⟩

end Alone

/-! ### Sums over all threads -/

section Total

variable [Fintype ι]

/-- The sum of `w` over all threads. -/
def total (w : τ → ℕ) (l : ι → τ) : ℕ := ∑ i, w (l i)

/-- A step of one thread moves a sum over all threads by what it moves its own summand. -/
theorem sum_update (w : ι → τ → ℕ) (l : ι → τ) (i : ι) (v : τ) :
  ∑ j, w j (Function.update l i v j) + w i (l i) = ∑ j, w j (l j) + w i v
  := by
  have h := Finset.add_sum_erase Finset.univ (fun j => w j (l j)) (Finset.mem_univ i)
  have h' := Finset.add_sum_erase Finset.univ (fun j => w j (Function.update l i v j))
    (Finset.mem_univ i)
  have hrest : ∑ j ∈ Finset.univ.erase i, w j (Function.update l i v j)
      = ∑ j ∈ Finset.univ.erase i, w j (l j) := by
    apply Finset.sum_congr rfl
    intro j hj
    rw [Function.update_of_ne (Finset.ne_of_mem_erase hj)]
  simp only [Function.update_self, hrest] at h'
  simp only [← h, ← h']
  omega

theorem total_update (w : τ → ℕ) (l : ι → τ) (i : ι) (v : τ) :
  total w (Function.update l i v) + w (l i) = total w l + w v
  := sum_update (fun _ => w) l i v

omit [DecidableEq ι] in
theorem summand_le_total (w : τ → ℕ) (l : ι → τ) (i : ι) :
  w (l i) ≤ total w l
  := Finset.single_le_sum (f := fun j => w (l j)) (fun _ _ => Nat.zero_le _) (Finset.mem_univ i)

omit [DecidableEq ι] in
theorem total_eq_zero {w : τ → ℕ} {l : ι → τ} (h : ∀ i, w (l i) = 0) :
  total w l = 0
  := Finset.sum_eq_zero (fun i _ => h i)

end Total

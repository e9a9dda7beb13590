import ParallelArch.ModelChecker.Execution

/-!
# Happens before

In every execution and at any time the clock vectors tell what happens before what, by the
synchronizations found so far (`happens_before_exact`).  An access happens before an event of
another thread if and only if the latter knows of a later action of its thread
(`Timed.access_iff`).
-/

namespace Execution

section Clocks

open Relation

variable {e : Execution} {h : List Event} {f : Event} {heads : List ℕ} {acquire : ℕ}

/-- An action of `u` with a number of at least `c` happens before the event `i`, or is it. -/
def Knows (h : List Event) (i u c : ℕ) : Prop :=
  ∃ (k s : ℕ) (created : Option ℕ), h[k]? = some (.action s u created) ∧ c ≤ s ∧
    ReflTransGen (Edge h) k i

/-- What is known stays known. -/
theorem Knows.append {i u c : ℕ} (hknows : Knows h i u c) (es : List Event) :
  Knows (h ++ es) i u c
  := by
  obtain ⟨k, s, created, hk, hs, hki⟩ := hknows
  refine ⟨k, s, created, ?_, hs, path_append hki es⟩
  rw [List.getElem?_append_left (List.getElem?_eq_some_iff.mp hk).1]
  apply hk

/-- What is known is known along each path. -/
theorem Knows.trans {i j u c : ℕ} (hknows : Knows h i u c) (hij : ReflTransGen (Edge h) i j) :
  Knows h j u c
  := by
  obtain ⟨k, s, created, hk, hs, hki⟩ := hknows
  exact ⟨k, s, created, hk, hs, hki.trans hij⟩

/-- What holds of the clocks in every execution. -/
structure Timed (e : Execution) (h : List Event) : Prop where
  numbered : ∀ (i : ℕ) s t created, h[i]? = some (.action s t created) →
    1 ≤ s ∧ s ≤ e.usedSequenceNumbers ∧ e.tid s = t
  recorded : ∀ s, 1 ≤ s → s ≤ e.usedSequenceNumbers →
    ∃ (i : ℕ) (created : Option ℕ), h[i]? = some (.action s (e.tid s) created)
  increasing : ∀ (i j : ℕ) s t created s' t' created', i < j →
    h[i]? = some (.action s t created) → h[j]? = some (.action s' t' created') → s < s'
  synchronized : ∀ heads acquire, Event.synchronize heads acquire ∈ h →
    acquire ≤ e.usedSequenceNumbers
  unborn : ∀ t, e.getParentAction t = none → ∀ f, f ∈ h → f.thread ≠ some t ∧ f.created ≠ some t
  acted : ∀ t p, e.lastAction t = some p → e.tid p = t
  parent : ∀ t p, e.getParentAction t = some p → 1 ≤ p ∧ p ≤ e.usedSequenceNumbers ∧
    ∃ f, f ∈ h ∧ f.lastAction = some p ∧ (f.thread = some t ∨ f.created = some t)
  latest : ∀ t p, e.getParentAction t = some p → ∀ f, f ∈ h →
    f.thread = some t ∨ f.created = some t →
      ∀ a, f.lastAction = some a → a ≤ p ∧ ∀ u, e.clock a u ≤ e.clock p u
  accesses : ∀ (i : ℕ) t isWrite address a cv, h[i]? = some (.access t isWrite address a cv) →
    1 ≤ a ∧ a ≤ e.usedSequenceNumbers ∧ e.tid a = t ∧ cv.getClock t = a ∧
      (∀ u, cv.getClock u ≤ e.clock a u) ∧
      ∀ (k : ℕ) s created, h[k]? = some (.action s t created) → (s ≤ a ↔ k < i)
  known : ∀ (i : ℕ) f a u c, h[i]? = some f → f.lastAction = some a → 0 < c →
    (c ≤ e.clock a u ↔ Knows h i u c)

/-- At the start there are no events to time. -/
theorem timed_new :
  new.Timed []
  := by
  constructor
  · rintro i s t created ⟨⟩
  · intro s hpos hle
    change s ≤ 0 at hle
    omega
  · rintro i j s t created s' t' created' - ⟨⟩
  · rintro heads acquire ⟨⟩
  · rintro t - f ⟨⟩
  · rintro t p ⟨⟩
  · rintro t p ⟨⟩
  · rintro t p ⟨⟩
  · rintro i t isWrite address a cv ⟨⟩
  · rintro i f a u c ⟨⟩

/-- Only an event with a last action leads to another one. -/
theorem Event.Leads.lastAction {f g : Event} (hleads : f.Leads g) :
  ∃ a, f.lastAction = some a
  := by
  cases f with
  | action seq tid created => exact ⟨seq, rfl⟩
  | synchronize heads acquire =>
      obtain ⟨tid, -, hown⟩ := hleads
      simp [thread, created] at hown
  | access tid isWrite address action cv => exact ⟨action, rfl⟩

theorem seq_eq_some {s : ℕ} (hs : f.seq = some s) :
  ∃ t created, f = .action s t created
  := by
  cases f with
  | action seq tid created =>
      cases hs
      exact ⟨tid, created, rfl⟩
  | synchronize heads acquire => cases hs
  | access tid isWrite address action cv => cases hs

/-- The last action of the thread of an event. -/
theorem Timed.lastAction_le (ht : e.Timed h) {i a : ℕ} (hi : h[i]? = some f)
    (ha : f.lastAction = some a) :
  1 ≤ a ∧ a ≤ e.usedSequenceNumbers ∧ ∀ t, f.thread = some t → e.tid a = t
  := by
  cases f with
  | action seq tid created =>
      cases ha
      obtain ⟨hpos, hle, htid⟩ := ht.numbered i a tid created hi
      refine ⟨hpos, hle, ?_⟩
      rintro t ⟨⟩
      apply htid
  | synchronize heads acquire => cases ha
  | access tid isWrite address action cv =>
      cases ha
      obtain ⟨hpos, hle, htid, -⟩ := ht.accesses i tid isWrite address a cv hi
      refine ⟨hpos, hle, ?_⟩
      rintro t ⟨⟩
      apply htid

/-- Sequence numbers grow along the history. -/
theorem Timed.seq_le (ht : e.Timed h) {i j s t s' t' : ℕ} {created created' : Option ℕ}
    (hi : h[i]? = some (.action s t created)) (hj : h[j]? = some (.action s' t' created'))
    (hij : i ≤ j) :
  s ≤ s'
  := by
  rcases hij.lt_or_eq with hlt | rfl
  · apply (ht.increasing i j s t created s' t' created' hlt hi hj).le
  · rw [hi] at hj
    cases hj
    apply le_rfl

/-- No action knows of a later one. -/
theorem Timed.clock_le (ht : e.Timed h) {a : ℕ} (hpos : 1 ≤ a) (hle : a ≤ e.usedSequenceNumbers)
    (u : ℕ) :
  e.clock a u ≤ a
  := by
  rcases Nat.eq_zero_or_pos (e.clock a u) with hzero | hclock
  · rw [hzero]
    apply Nat.zero_le
  · obtain ⟨i, created, hi⟩ := ht.recorded a hpos hle
    obtain ⟨k, s, created', hk, hs, hki⟩ := (ht.known i _ a u _ hi rfl hclock).mp le_rfl
    apply hs.trans (ht.seq_le hk hi (le_of_path hki))

/-- An action knows of itself. -/
theorem Timed.clock_own (ht : e.Timed h) {a : ℕ} (hpos : 1 ≤ a)
    (hle : a ≤ e.usedSequenceNumbers) :
  e.clock a (e.tid a) = a
  := by
  apply le_antisymm (ht.clock_le hpos hle _)
  obtain ⟨i, created, hi⟩ := ht.recorded a hpos hle
  apply (ht.known i _ a _ a hi rfl hpos).mpr
  exact ⟨i, a, created, hi, le_rfl, ReflTransGen.refl⟩

/-- An event knows the actions that happen before it. -/
theorem Timed.path_iff (ht : e.Timed h) {i j s t a : ℕ} {created : Option ℕ}
    (hi : h[i]? = some (.action s t created)) (hj : h[j]? = some f) (ha : f.lastAction = some a) :
  s ≤ e.clock a t ↔ ReflTransGen (Edge h) i j
  := by
  have hpos := (ht.numbered i s t created hi).1
  rw [ht.known j f a t s hj ha hpos]
  constructor
  · rintro ⟨k, s', created', hk, hle, hkj⟩
    rcases Nat.lt_trichotomy i k with hlt | rfl | hgt
    · apply ReflTransGen.head (edge_of_thread hlt hi hk rfl rfl) hkj
    · apply hkj
    · have := ht.increasing k i s' t created' s t created hgt hk hi
      omega
  · intro hij
    exact ⟨i, s, created, hi, le_rfl, hij⟩

/-- A thread with an event, or created by one, has a parent action. -/
theorem Timed.born (ht : e.Timed h) {t : ℕ} (hf : f ∈ h)
    (hown : f.thread = some t ∨ f.created = some t) :
  ∃ p, e.getParentAction t = some p
  := by
  cases hp : e.getParentAction t with
  | some p => exact ⟨p, rfl⟩
  | none =>
      obtain ⟨hthread, hcreated⟩ := ht.unborn t hp f hf
      rcases hown with heq | heq
      · cases hthread heq
      · cases hcreated heq

/-- What leads to the next event of a thread. -/
theorem Timed.leads_iff (ht : e.Timed h) (f : Event) {t p u c : ℕ} (hf : f.thread = some t)
    (hp : e.getParentAction t = some p) :
  (∃ g, g ∈ h ∧ g.Leads f ∧ ∃ b, g.lastAction = some b ∧ c ≤ e.clock b u) ↔ c ≤ e.clock p u
  := by
  constructor
  · rintro ⟨g, hg, ⟨t', hf', hown⟩, b, hb, hc⟩
    rw [hf] at hf'
    cases hf'
    apply hc.trans ((ht.latest t p hp g hg hown b hb).2 u)
  · intro hc
    obtain ⟨-, -, g, hg, hlast, hown⟩ := ht.parent t p hp
    exact ⟨g, hg, ⟨t, hf, hown⟩, p, hlast, hc⟩

/-- The new event knows what those that lead to it knew, and itself. -/
theorem Timed.known_snoc (ht : e.Timed h) {e' : Execution}
    (hold : ∀ a, a ≤ e.usedSequenceNumbers → ∀ u, e'.clock a u = e.clock a u)
    (hf : ∀ heads acquire, f ≠ .synchronize heads acquire) (hnew : ∀ g, ¬ Synchronizes h g f)
    (hknown : ∀ a, f.lastAction = some a → ∀ u c, 0 < c → (c ≤ e'.clock a u ↔
      (∃ s created, f = .action s u created ∧ c ≤ s) ∨
        ∃ g, g ∈ h ∧ g.Leads f ∧ ∃ b, g.lastAction = some b ∧ c ≤ e.clock b u))
    (i : ℕ) (f' : Event) (a u c : ℕ) (hi : (h ++ [f])[i]? = some f') (ha : f'.lastAction = some a)
    (hc : 0 < c) :
  c ≤ e'.clock a u ↔ Knows (h ++ [f]) i u c
  := by
  rcases getElem?_snoc.mp hi with hi | ⟨rfl, rfl⟩
  · have hlt := (List.getElem?_eq_some_iff.mp hi).1
    rw [hold a (ht.lastAction_le hi ha).2.1, ht.known i f' a u c hi ha hc]
    constructor
    · intro hknows
      apply hknows.append
    · rintro ⟨k, s, created, hk, hs, hki⟩
      have hki' := (path_snoc hf hlt).mp hki
      rcases getElem?_snoc.mp hk with hk | ⟨rfl, -⟩
      · exact ⟨k, s, created, hk, hs, hki'⟩
      · have := le_of_path hki'
        omega
  · rw [hknown a ha u c hc]
    constructor
    · rintro (⟨s, created, rfl, hs⟩ | ⟨g, hg, hleads, b, hb, hcb⟩)
      · exact ⟨h.length, s, created, by simp, hs, ReflTransGen.refl⟩
      · obtain ⟨j, hj⟩ := List.getElem?_of_mem hg
        obtain ⟨k, s, created, hk, hs, hkj⟩ := (ht.known j g b u c hj hb hc).mp hcb
        refine ⟨k, s, created, getElem?_snoc.mpr (.inl hk), hs, ?_⟩
        exact (path_last hf).mpr (.inr ⟨j, g, hj, .inl hleads, hkj⟩)
    · rintro ⟨k, s, created, hk, hs, hkn⟩
      rcases (path_last hf).mp hkn with rfl | ⟨j, g, hj, hleads, hkj⟩
      · left
        rcases getElem?_snoc.mp hk with hk | ⟨-, rfl⟩
        · have := (List.getElem?_eq_some_iff.mp hk).1
          omega
        · exact ⟨s, created, rfl, hs⟩
      · right
        have hjlt := (List.getElem?_eq_some_iff.mp hj).1
        have hk' : h[k]? = some (.action s u created) := by
          rcases getElem?_snoc.mp hk with hk | ⟨rfl, -⟩
          · apply hk
          · have := le_of_path hkj
            omega
        rcases hleads with hleads | hsync
        · obtain ⟨b, hb⟩ := hleads.lastAction
          refine ⟨g, List.mem_of_getElem? hj, hleads, b, hb, ?_⟩
          apply (ht.known j g b u c hj hb hc).mpr
          exact ⟨k, s, created, hk', hs, hkj⟩
        · cases hnew g hsync

/-- An action is the parent action of its thread and of the thread it creates. -/
theorem getParentAction_addAction {tid : ℕ} {created : Option ℕ}
    (hcreated : ∀ thread, created = some thread → thread ≠ tid ∧ e.getParentAction thread = none)
    (t : ℕ) :
  (e.addAction tid created).getParentAction t
    = if t = tid ∨ created = some t then some (e.usedSequenceNumbers + 1)
      else e.getParentAction t
  := by
  by_cases ht : t = tid
  · subst ht
    simp [getParentAction, addAction]
  · cases created with
    | none => simp [getParentAction, addAction, ht]
    | some thread =>
        by_cases hthread : t = thread
        · subst hthread
          obtain ⟨-, hnone⟩ := hcreated t rfl
          have hlast : e.lastAction t = none := by
            cases hlast : e.lastAction t with
            | none => rfl
            | some p => simp [getParentAction, hlast] at hnone
          simp [getParentAction, addAction, ht, hlast]
        · simp [getParentAction, addAction, ht, hthread, Ne.symm hthread]

/-- The old actions keep their thread and clock vector. -/
theorem addAction_of_le (e : Execution) {a : ℕ} (tid : ℕ) (created : Option ℕ)
    (ha : a ≤ e.usedSequenceNumbers) :
  (e.addAction tid created).tid a = e.tid a ∧
    ∀ u, (e.addAction tid created).clock a u = e.clock a u
  := by
  have hne : a ≠ e.usedSequenceNumbers + 1 := by omega
  constructor
  · apply Function.update_of_ne hne
  · intro u
    rw [clock, clock]
    change (Function.update e.cv _ _ a).getClock u = _
    rw [Function.update_of_ne hne]

/-- The clock vector of a new action. -/
theorem le_clock_new (tid : ℕ) (created : Option ℕ) {u c : ℕ} (hc : 0 < c) :
  c ≤ (e.addAction tid created).clock (e.usedSequenceNumbers + 1) u ↔
    if u = tid then c ≤ e.usedSequenceNumbers + 1
    else ∃ p, e.getParentAction tid = some p ∧ c ≤ e.clock p u
  := by
  rw [clock]
  change c ≤ (Function.update e.cv _ _ (e.usedSequenceNumbers + 1)).getClock u ↔ _
  rw [Function.update_self, ClockVector.getClock_new, getCv]
  split_ifs with hu
  · rfl
  · cases hp : e.getParentAction tid with
    | none => simp [hc.ne']
    | some p => simp [clock]

/-- A new action knows what its thread knew. -/
theorem Timed.clock_le_new (ht : e.Timed h) {tid p : ℕ} {created : Option ℕ}
    (hp : e.getParentAction tid = some p) (u : ℕ) :
  e.clock p u ≤ (e.addAction tid created).clock (e.usedSequenceNumbers + 1) u
  := by
  rcases Nat.eq_zero_or_pos (e.clock p u) with hzero | hpos
  · rw [hzero]
    apply Nat.zero_le
  · rw [le_clock_new tid created hpos]
    split_ifs
    · obtain ⟨hpos, hle, -⟩ := ht.parent tid p hp
      have := ht.clock_le hpos hle u
      omega
    · exact ⟨p, hp, le_rfl⟩

/-- What a new action knows is what leads to it. -/
theorem Timed.knows_new (ht : e.Timed h) {tid : ℕ} {created : Option ℕ} {u c : ℕ} (hc : 0 < c) :
  c ≤ (e.addAction tid created).clock (e.usedSequenceNumbers + 1) u ↔
    (∃ s created', Event.action (e.usedSequenceNumbers + 1) tid created = .action s u created' ∧
        c ≤ s) ∨
      ∃ g, g ∈ h ∧ g.Leads (.action (e.usedSequenceNumbers + 1) tid created) ∧
        ∃ b, g.lastAction = some b ∧ c ≤ e.clock b u
  := by
  rw [le_clock_new tid created hc]
  split_ifs with hu
  · subst hu
    constructor
    · intro hle
      exact .inl ⟨_, created, rfl, hle⟩
    · rintro (⟨s, created', heq, hs⟩ | ⟨g, hg, -, b, hb, hcb⟩)
      · cases heq
        apply hs
      · obtain ⟨i, hi⟩ := List.getElem?_of_mem hg
        obtain ⟨hpos, hle, -⟩ := ht.lastAction_le hi hb
        have := ht.clock_le hpos hle u
        omega
  · constructor
    · rintro ⟨p, hp, hcp⟩
      exact .inr ((ht.leads_iff _ rfl hp).mpr hcp)
    · rintro (⟨s, created', heq, -⟩ | hleads)
      · cases heq
        cases hu rfl
      · obtain ⟨p, hp⟩ : ∃ p, e.getParentAction tid = some p := by
          obtain ⟨g, hg, ⟨t, heq, hown⟩, -⟩ := hleads
          cases heq
          apply ht.born hg hown
        exact ⟨p, hp, (ht.leads_iff _ rfl hp).mp hleads⟩

/-- The last action of a thread still knows what its thread knew. -/
theorem Timed.latest_action (ht : e.Timed h) {tid t p a : ℕ} {created : Option ℕ}
    (hallowed : e.Allowed (.action tid created))
    (hp : (e.addAction tid created).getParentAction t = some p) (hf : f ∈ h)
    (hown : f.thread = some t ∨ f.created = some t) (ha : f.lastAction = some a) :
  a ≤ p ∧ ∀ u, (e.addAction tid created).clock a u ≤ (e.addAction tid created).clock p u
  := by
  have hold := fun {a : ℕ} => e.addAction_of_le (a := a) tid created
  obtain ⟨i, hi⟩ := List.getElem?_of_mem hf
  have hle := (ht.lastAction_le hi ha).2.1
  obtain ⟨p', hp'⟩ := ht.born hf hown
  obtain ⟨hap, hclock⟩ := ht.latest t p' hp' f hf hown a ha
  rw [getParentAction_addAction hallowed] at hp
  split_ifs at hp with hnew
  · cases hp
    have htid : t = tid := by
      rcases hnew with htid | hcreated
      · apply htid
      · rw [(hallowed t hcreated).2] at hp'
        cases hp'
    subst htid
    refine ⟨by omega, ?_⟩
    intro u
    rw [(hold hle).2]
    apply (hclock u).trans
    apply ht.clock_le_new hp'
  · rw [hp] at hp'
    cases hp'
    refine ⟨hap, ?_⟩
    intro u
    rw [(hold hle).2, (hold (ht.parent t p hp).2.1).2]
    apply hclock

/-- After an action the clocks tell what is known by then. -/
theorem Timed.action (ht : e.Timed h) {tid : ℕ} {created : Option ℕ}
    (hallowed : e.Allowed (.action tid created)) :
  (e.addAction tid created).Timed (h ++ [.action (e.usedSequenceNumbers + 1) tid created])
  := by
  have hold := fun {a : ℕ} => e.addAction_of_le (a := a) tid created
  have hused : (e.addAction tid created).usedSequenceNumbers = e.usedSequenceNumbers + 1 := rfl
  constructor
  · intro i s t c hi
    rw [hused]
    rcases getElem?_snoc.mp hi with hi | ⟨rfl, heq⟩
    · obtain ⟨hpos, hle, htid⟩ := ht.numbered i s t c hi
      exact ⟨hpos, by omega, by rw [(hold hle).1, htid]⟩
    · cases heq
      refine ⟨by omega, le_rfl, ?_⟩
      apply Function.update_self
  · intro s hpos hle
    rw [hused] at hle
    rcases Nat.le_succ_iff.mp hle with hs | rfl
    · obtain ⟨i, c, hi⟩ := ht.recorded s hpos hs
      refine ⟨i, c, getElem?_snoc.mpr (.inl ?_)⟩
      rw [(hold hs).1]
      apply hi
    · refine ⟨h.length, created, getElem?_snoc.mpr (.inr ⟨rfl, ?_⟩)⟩
      change _ = Event.action _ (Function.update e.tid _ _ _) _
      rw [Function.update_self]
  · intro i j s t c s' t' c' hij hi hj
    rcases getElem?_snoc.mp hj with hj | ⟨rfl, heq⟩
    · rcases getElem?_snoc.mp hi with hi | ⟨rfl, -⟩
      · apply ht.increasing i j s t c s' t' c' hij hi hj
      · have := (List.getElem?_eq_some_iff.mp hj).1
        omega
    · cases heq
      rcases getElem?_snoc.mp hi with hi | ⟨rfl, -⟩
      · have := (ht.numbered i s t c hi).2.1
        omega
      · omega
  · intro heads acquire hmem
    rw [hused]
    rcases List.mem_append.mp hmem with hmem | hmem
    · have := ht.synchronized heads acquire hmem
      omega
    · cases List.mem_singleton.mp hmem
  · intro t hnone f hf
    rw [getParentAction_addAction hallowed] at hnone
    split_ifs at hnone with hown
    rw [not_or] at hown
    rcases List.mem_append.mp hf with hf | hf
    · apply ht.unborn t hnone f hf
    · rw [List.mem_singleton.mp hf]
      simp only [Event.thread, Event.created, ne_eq, Option.some.injEq]
      exact ⟨Ne.symm hown.1, hown.2⟩
  · intro t p hp
    by_cases htt : t = tid
    · subst htt
      simp only [addAction, Function.update_self, Option.some.injEq] at hp
      subst hp
      simp [addAction]
    · change Function.update e.lastAction tid _ t = some p at hp
      rw [Function.update_of_ne htt] at hp
      have hparent : e.getParentAction t = some p := by rw [getParentAction, hp]
      rw [(hold (ht.parent t p hparent).2.1).1]
      apply ht.acted t p hp
  · intro t p hp
    rw [getParentAction_addAction hallowed] at hp
    rw [hused]
    split_ifs at hp with hown
    · cases hp
      refine ⟨by omega, le_rfl, _, List.mem_append_right h (List.mem_singleton_self _), rfl, ?_⟩
      simp only [Event.thread, Event.created, Option.some.injEq]
      exact hown.imp_left Eq.symm
    · obtain ⟨hpos, hle, f, hf, hrest⟩ := ht.parent t p hp
      exact ⟨hpos, by omega, f, List.mem_append_left _ hf, hrest⟩
  · intro t p hp f hf hown a ha
    rcases List.mem_append.mp hf with hf | hf
    · apply ht.latest_action hallowed hp hf hown ha
    · rw [List.mem_singleton.mp hf] at hown ha
      cases ha
      rw [getParentAction_addAction hallowed, if_pos] at hp
      · cases hp
        exact ⟨le_rfl, fun u => le_rfl⟩
      · simpa [Event.thread, Event.created, eq_comm] using hown
  · intro i t w ad a cv hi
    have hi' := getElem?_of_snoc hi (by simp)
    obtain ⟨hpos, hle, htid, hclock, hcv, hiff⟩ := ht.accesses i t w ad a cv hi'
    rw [hused, (hold hle).1]
    refine ⟨hpos, by omega, htid, hclock, ?_, ?_⟩
    · intro u
      rw [(hold hle).2]
      apply hcv
    · intro k s c hk
      rcases getElem?_snoc.mp hk with hk | ⟨rfl, heq⟩
      · apply hiff k s c hk
      · cases heq
        have := (List.getElem?_eq_some_iff.mp hi').1
        omega
  · apply ht.known_snoc (fun a ha => (hold ha).2)
    · rintro heads acquire ⟨⟩
    · rintro g ⟨heads, acquire, head, hmem, -, -, hseq⟩
      cases hseq
      have := ht.synchronized heads _ hmem
      omega
    · rintro a ha u c hc
      cases ha
      apply ht.knows_new hc

/-- An access takes over the clocks of the last action of its thread. -/
theorem Timed.access (ht : e.Timed h) {tid p : ℕ} {isWrite : Bool} {address : ℕ}
    (hallowed : e.Allowed (.access tid isWrite address)) (hp : e.getParentAction tid = some p) :
  e.Timed (h ++ [.access tid isWrite address p (e.cv p)])
  := by
  obtain ⟨hpos, hle, g, hg, hlast, hown⟩ := ht.parent tid p hp
  have htid : e.tid p = tid := by
    apply ht.acted tid p
    rw [getParentAction] at hp
    cases hlast : e.lastAction tid with
    | none => cases hallowed hlast
    | some p' =>
        rw [hlast] at hp
        apply hp
  have haction : ∀ {i : ℕ} {s t : ℕ} {c : Option ℕ},
      (h ++ [.access tid isWrite address p (e.cv p)])[i]? = some (.action s t c) →
        h[i]? = some (.action s t c) := by
    intro i s t c hi
    apply getElem?_of_snoc hi (by simp)
  constructor
  · intro i s t c hi
    apply ht.numbered i s t c (haction hi)
  · intro s hpos hle
    obtain ⟨i, c, hi⟩ := ht.recorded s hpos hle
    exact ⟨i, c, getElem?_snoc.mpr (.inl hi)⟩
  · intro i j s t c s' t' c' hij hi hj
    apply ht.increasing i j s t c s' t' c' hij (haction hi) (haction hj)
  · intro heads acquire hmem
    rcases List.mem_append.mp hmem with hmem | hmem
    · apply ht.synchronized heads acquire hmem
    · cases List.mem_singleton.mp hmem
  · intro t hnone f hf
    rcases List.mem_append.mp hf with hf | hf
    · apply ht.unborn t hnone f hf
    · rw [List.mem_singleton.mp hf]
      constructor
      · rintro ⟨⟩
        rw [hp] at hnone
        cases hnone
      · rintro ⟨⟩
  · apply ht.acted
  · intro t p' hp'
    obtain ⟨hpos, hle, f, hf, hrest⟩ := ht.parent t p' hp'
    exact ⟨hpos, hle, f, List.mem_append_left _ hf, hrest⟩
  · intro t p' hp' f hf hown a ha
    rcases List.mem_append.mp hf with hf | hf
    · apply ht.latest t p' hp' f hf hown a ha
    · rw [List.mem_singleton.mp hf] at hown ha
      cases ha
      rcases hown with heq | heq
      · cases heq
        rw [hp] at hp'
        cases hp'
        exact ⟨le_rfl, fun u => le_rfl⟩
      · cases heq
  · intro i t w ad a cv hi
    rcases getElem?_snoc.mp hi with hi | ⟨rfl, heq⟩
    · obtain ⟨hpos, hle, htid, hclock, hcv, hiff⟩ := ht.accesses i t w ad a cv hi
      refine ⟨hpos, hle, htid, hclock, hcv, ?_⟩
      intro k s c hk
      apply hiff k s c (haction hk)
    · cases heq
      refine ⟨hpos, hle, htid, ?_, fun u => le_rfl, ?_⟩
      · have := ht.clock_own hpos hle
        rw [htid] at this
        apply this
      · intro k s c hk
        have hk := haction hk
        have hklt := (List.getElem?_eq_some_iff.mp hk).1
        have hmem := List.mem_of_getElem? hk
        have hsp := (ht.latest tid p hp _ hmem (.inl rfl) s rfl).1
        simp [hklt, hsp]
  · apply ht.known_snoc (fun a ha u => rfl)
    · rintro heads acquire ⟨⟩
    · rintro g ⟨heads, acquire, head, -, -, -, ⟨⟩⟩
    · rintro a ha u c hc
      cases ha
      rw [← ht.leads_iff (.access tid isWrite address p (e.cv p)) rfl hp]
      constructor
      · exact .inr
      · rintro (⟨s, c', ⟨⟩, -⟩ | hleads)
        apply hleads

/-- Whoever knows of `acquire`, and nobody else, learns something by a synchronization. -/
theorem Timed.learns_iff (ht : e.Timed h) (hpos : 1 ≤ acquire)
    (hle : acquire ≤ e.usedSequenceNumbers) {a : ℕ} (hapos : 1 ≤ a)
    (hale : a ≤ e.usedSequenceNumbers) :
  (a = acquire ∨ acquire < a ∧ a ≤ e.usedSequenceNumbers ∧ e.happensBefore acquire a = true) ↔
    acquire ≤ e.clock a (e.tid acquire)
  := by
  rw [happensBefore_iff hpos]
  constructor
  · rintro (rfl | ⟨-, -, hknown⟩)
    · rw [ht.clock_own hpos hle]
    · apply hknown
  · intro hknown
    have hown := ht.clock_le hapos hale (e.tid acquire)
    rcases (hknown.trans hown).eq_or_lt with heq | hlt
    · exact .inl heq.symm
    · exact .inr ⟨hlt, hale, hknown⟩

/-- The last action of a thread still knows what its thread knew. -/
theorem Timed.latest_synchronize (ht : e.Timed h) (hpos : 1 ≤ acquire)
    (hle : acquire ≤ e.usedSequenceNumbers) {t p a : ℕ} (hp : e.getParentAction t = some p)
    (hf : f ∈ h) (hown : f.thread = some t ∨ f.created = some t) (ha : f.lastAction = some a)
    (u : ℕ) :
  (e.synchronizeWith heads acquire).clock a u ≤ (e.synchronizeWith heads acquire).clock p u
  := by
  obtain ⟨i, hi⟩ := List.getElem?_of_mem hf
  obtain ⟨hapos, hale, -⟩ := ht.lastAction_le hi ha
  obtain ⟨hppos, hple, -⟩ := ht.parent t p hp
  have hlatest := (ht.latest t p hp f hf hown a ha).2
  have hclock := e.le_clock_synchronizeWith heads hpos
  rw [hclock p u, ht.learns_iff hpos hle hppos hple]
  have hcases := (hclock a u _).mp le_rfl
  rw [ht.learns_iff hpos hle hapos hale] at hcases
  rcases hcases with hold | ⟨hknown, hnew⟩
  · exact .inl (hold.trans (hlatest u))
  · exact .inr ⟨hknown.trans (hlatest (e.tid acquire)), hnew⟩

/-- What an event learns by a synchronization is what leads to it over the new edges. -/
theorem Timed.known_synchronize (ht : e.Timed h)
    (hallowed : e.Allowed (.synchronize heads acquire)) {i a u c : ℕ} (hi : h[i]? = some f)
    (ha : f.lastAction = some a) (hc : 0 < c) :
  c ≤ (e.synchronizeWith heads acquire).clock a u ↔
    Knows (h ++ [.synchronize heads acquire]) i u c
  := by
  obtain ⟨hpos, hle⟩ := hallowed acquire List.mem_cons_self
  obtain ⟨hapos, hale, -⟩ := ht.lastAction_le hi ha
  obtain ⟨q, created, hq⟩ := ht.recorded acquire hpos hle
  rw [e.le_clock_synchronizeWith heads hpos, ht.learns_iff hpos hle hapos hale,
    ht.known i f a u c hi ha hc, ht.known q _ acquire u c hq rfl hc]
  constructor
  · rintro (hknows | ⟨hlearns, hknows | ⟨head, hhead, hheadle, hch⟩⟩)
    · apply hknows.append
    · apply (hknows.trans ((ht.path_iff hq hi ha).mp hlearns)).append
    · have hqi := (ht.path_iff hq hi ha).mp hlearns
      obtain ⟨hheadpos, hheadused⟩ := hallowed head (List.mem_cons_of_mem acquire hhead)
      obtain ⟨p, created', hp⟩ := ht.recorded head hheadpos hheadused
      have hknows := (ht.known p _ head u c hp rfl hc).mp hch
      rcases Nat.lt_trichotomy p q with hpq | rfl | hqp
      · apply (hknows.append _).trans
        apply path_synchronize.mpr
        exact .inr ⟨p, q, _, _, head, hp, hq, hpq, hhead, rfl, rfl, ReflTransGen.refl, hqi⟩
      · apply (hknows.trans hqi).append
      · have := ht.increasing q p acquire _ created head _ created' hqp hq hp
        omega
  · rintro ⟨k, s, c', hk, hs, hki⟩
    have hk := getElem?_of_snoc hk (by simp)
    rcases path_synchronize.mp hki with
      hki | ⟨p, q', g, g', head, hp, hq', hlt, hhead, hg, hg', hkp, hqi⟩
    · exact .inl ⟨k, s, c', hk, hs, hki⟩
    · obtain ⟨t, created₁, rfl⟩ := seq_eq_some hg
      obtain ⟨t', created₂, rfl⟩ := seq_eq_some hg'
      right
      constructor
      · rw [(ht.numbered q' acquire t' created₂ hq').2.2]
        apply (ht.path_iff hq' hi ha).mpr hqi
      · right
        refine ⟨head, hhead, ht.seq_le hp hq' hlt.le, ?_⟩
        apply (ht.known p _ head u c hp rfl hc).mpr
        exact ⟨k, s, c', hk, hs, hkp⟩

/-- After a synchronization the clocks tell what is known by then. -/
theorem Timed.synchronize (ht : e.Timed h)
    (hallowed : e.Allowed (.synchronize heads acquire)) :
  (e.synchronizeWith heads acquire).Timed (h ++ [.synchronize heads acquire])
  := by
  obtain ⟨hpos, hle⟩ := hallowed acquire List.mem_cons_self
  have hmono : ∀ act u, e.clock act u ≤ (e.synchronizeWith heads acquire).clock act u :=
    fun act u => (e.le_clock_synchronizeWith heads hpos act u _).mpr (.inl le_rfl)
  obtain ⟨cv, heq⟩ := e.synchronizeWith_eq heads acquire
  have hused : (e.synchronizeWith heads acquire).usedSequenceNumbers = e.usedSequenceNumbers := by
    rw [heq]
  have htid : (e.synchronizeWith heads acquire).tid = e.tid := by rw [heq]
  have hparent : (e.synchronizeWith heads acquire).getParentAction = e.getParentAction := by
    rw [heq]
    rfl
  constructor
  · intro i s t c hi
    rw [hused, htid]
    apply ht.numbered i s t c (getElem?_of_snoc hi (by simp))
  · intro s hpos hle
    rw [hused] at hle
    obtain ⟨i, c, hi⟩ := ht.recorded s hpos hle
    rw [htid]
    exact ⟨i, c, getElem?_snoc.mpr (.inl hi)⟩
  · intro i j s t c s' t' c' hij hi hj
    apply ht.increasing i j s t c s' t' c' hij (getElem?_of_snoc hi (by simp))
      (getElem?_of_snoc hj (by simp))
  · intro heads' acquire' hmem
    rw [hused]
    rcases List.mem_append.mp hmem with hmem | hmem
    · apply ht.synchronized heads' acquire' hmem
    · cases List.mem_singleton.mp hmem
      apply hle
  · intro t hnone f hf
    rw [hparent] at hnone
    rcases List.mem_append.mp hf with hf | hf
    · apply ht.unborn t hnone f hf
    · rw [List.mem_singleton.mp hf]
      simp [Event.thread, Event.created]
  · intro t p hp
    rw [heq] at hp ⊢
    apply ht.acted t p hp
  · intro t p hp
    rw [hparent] at hp
    rw [hused]
    obtain ⟨hpos, hle, f, hf, hrest⟩ := ht.parent t p hp
    exact ⟨hpos, hle, f, List.mem_append_left _ hf, hrest⟩
  · intro t p hp f hf hown a ha
    rw [hparent] at hp
    rcases List.mem_append.mp hf with hf | hf
    · use (ht.latest t p hp f hf hown a ha).1
      apply ht.latest_synchronize hpos hle hp hf hown ha
    · rw [List.mem_singleton.mp hf] at ha
      cases ha
  · intro i t w ad a cv hi
    obtain ⟨hpos, hle, htid', hown, hcv, hiff⟩ :=
      ht.accesses i t w ad a cv (getElem?_of_snoc hi (by simp))
    rw [hused, htid]
    refine ⟨hpos, hle, htid', hown, fun u => (hcv u).trans (hmono a u), ?_⟩
    intro k s c hk
    apply hiff k s c (getElem?_of_snoc hk (by simp))
  · intro i f a u c hi ha hc
    apply ht.known_synchronize hallowed _ ha hc
    apply getElem?_of_snoc hi
    rintro rfl
    cases ha

/-- In every run, the clock vectors hold what is known now. -/
theorem reachable_timed (hreach : machine.Reachable Allowed h e) :
  e.Timed h
  := by
  apply hreach.invariant (I := fun e h => e.Timed h)
  · rintro _ rfl
    apply timed_new
  · intro e h step e' es ht hallowed hnext
    cases step with
    | action tid created =>
        cases hnext
        apply ht.action hallowed
    | synchronize heads acquire =>
        cases hnext
        apply ht.synchronize hallowed
    | access tid isWrite address =>
        obtain ⟨action, haction, heq⟩ := Option.map_eq_some_iff.mp hnext
        cases heq
        apply ht.access hallowed haction

/-! ### What the clocks tell -/

theorem path_iff_happensBefore {i j : ℕ} :
  ReflTransGen (Edge h) i j ↔ i = j ∨ HappensBefore h i j
  := by
  rw [reflTransGen_iff_eq_or_transGen, eq_comm]
  rfl

/-- `ModelAction::happens_before` is right about an action and the last action of the thread of
an event. -/
theorem happens_before_exact (hreach : machine.Reachable Allowed h e) {i j s a : ℕ} {f g : Event}
    (hi : h[i]? = some f) (hj : h[j]? = some g) (hs : f.seq = some s)
    (ha : g.lastAction = some a) :
  e.happensBefore s a = true ↔ i = j ∨ HappensBefore h i j
  := by
  have ht := reachable_timed hreach
  obtain ⟨t, created, rfl⟩ := seq_eq_some hs
  obtain ⟨hpos, -, htid⟩ := ht.numbered i s t created hi
  rw [← path_iff_happensBefore, ← ht.path_iff hi hj ha, happensBefore_iff hpos, htid]

/-- The action of the thread `0` happens before the last one of the thread `1` by a
synchronization found after both. -/
theorem happens_before_exact_late :
  (¬ (1 = 3 ∨ HappensBefore [.action 1 0 (some 1), .action 2 0 none, .action 3 1 none,
      .action 4 1 none] 1 3)) ∧
    (1 = 3 ∨ HappensBefore [.action 1 0 (some 1), .action 2 0 none, .action 3 1 none,
      .action 4 1 none, .synchronize [2] 3] 1 3)
  := by
  constructor
  · have hexec : (machine.exec Allowed new [.action 0 (some 1), .action 0 none, .action 1 none,
        .action 1 none]).map (fun r => (r.1.happensBefore 2 4, r.2))
          = some (false, [.action 1 0 (some 1), .action 2 0 none, .action 3 1 none,
            .action 4 1 none]) := by
      decide +kernel
    obtain ⟨⟨e, h⟩, hexec, heq⟩ := Option.map_eq_some_iff.mp hexec
    obtain ⟨hbefore, rfl⟩ := Prod.ext_iff.mp heq
    have hreach := Machine.exec_reachable _ rfl hexec
    rw [← happens_before_exact hreach (i := 1) (j := 3) rfl rfl rfl rfl]
    change e.happensBefore 2 4 = false at hbefore
    simp [hbefore]
  · have hexec : (machine.exec Allowed new [.action 0 (some 1), .action 0 none, .action 1 none,
        .action 1 none, .synchronize [2] 3]).map (fun r => (r.1.happensBefore 2 4, r.2))
          = some (true, [.action 1 0 (some 1), .action 2 0 none, .action 3 1 none,
            .action 4 1 none, .synchronize [2] 3]) := by
      decide +kernel
    obtain ⟨⟨e, h⟩, hexec, heq⟩ := Option.map_eq_some_iff.mp hexec
    obtain ⟨hbefore, rfl⟩ := Prod.ext_iff.mp heq
    have hreach := Machine.exec_reachable _ rfl hexec
    rw [← happens_before_exact hreach (i := 1) (j := 3) rfl rfl rfl rfl]
    apply hbefore

/-- From an access to another thread the way leads over a later action of its own thread. -/
theorem Timed.lt_of_access (ht : e.Timed h) {i j t a b : ℕ} {isWrite : Bool} {address : ℕ}
    {cv : ClockVector} {g : Event} (hi : h[i]? = some (.access t isWrite address a cv))
    (hj : h[j]? = some g) (hb : g.lastAction = some b) (hne : g.thread ≠ some t)
    (hij : HappensBefore h i j) :
  a < e.clock b t
  := by
  induction hij using TransGen.head_induction_on generalizing isWrite address a cv with
  | single hedge =>
      obtain ⟨-, f', g', hi', hj', hleads⟩ := hedge
      rw [hi] at hi'
      rw [hj] at hj'
      cases hi'
      cases hj'
      rcases hleads with ⟨t', hg, heq | ⟨⟨⟩⟩⟩ | ⟨heads, acquire, head, -, -, ⟨⟩, -⟩
      cases heq
      cases hne hg
  | head hedge hpath ih =>
      obtain ⟨hlt, f', g', hi', hk, hleads⟩ := hedge
      rw [hi] at hi'
      cases hi'
      obtain ⟨-, -, -, -, -, hiff⟩ := ht.accesses _ t isWrite address a cv hi
      rcases hleads with ⟨t', hg, heq | ⟨⟨⟩⟩⟩ | ⟨heads, acquire, head, -, -, ⟨⟩, -⟩
      cases heq
      cases g' with
      | action s t' created =>
          cases hg
          have hs : ¬ s ≤ a := by
            rw [hiff _ s created hk]
            omega
          have hknown := (ht.path_iff hk hj hb).mpr hpath.to_reflTransGen
          omega
      | synchronize heads acquire => cases hg
      | access t' isWrite' address' a' cv' =>
          cases hg
          have hnext := ih hk
          obtain ⟨hapos, hale, htid, -⟩ := ht.accesses _ t isWrite address a cv hi
          obtain ⟨-, -, -, -, -, hiff'⟩ := ht.accesses _ t isWrite' address' a' cv' hk
          obtain ⟨k, created, hrec⟩ := ht.recorded a hapos hale
          rw [htid] at hrec
          have hki := (hiff k a created hrec).mp le_rfl
          have := (hiff' k a created hrec).mpr (hki.trans hlt)
          omega

/-- An access happens before an event of another thread if and only if the latter knows of a
later action of its thread. -/
theorem Timed.access_iff (ht : e.Timed h) {i j t a b : ℕ} {isWrite : Bool} {address : ℕ}
    {cv : ClockVector} {g : Event} (hi : h[i]? = some (.access t isWrite address a cv))
    (hj : h[j]? = some g) (hb : g.lastAction = some b) (hne : g.thread ≠ some t) :
  HappensBefore h i j ↔ a < e.clock b t
  := by
  constructor
  · apply ht.lt_of_access hi hj hb hne
  · intro hlt
    obtain ⟨k, s, created, hk, hs, hkj⟩ := (ht.known j g b t _ hj hb (by omega)).mp le_rfl
    obtain ⟨-, -, -, -, -, hiff⟩ := ht.accesses i t isWrite address a cv hi
    have hik : i < k := by
      rcases Nat.lt_trichotomy i k with hik | rfl | hki
      · apply hik
      · rw [hi] at hk
        cases hk
      · have := (hiff k s created hk).mpr hki
        omega
    apply TransGen.head' (edge_of_thread hik hi hk rfl rfl) hkj

end Clocks

end Execution

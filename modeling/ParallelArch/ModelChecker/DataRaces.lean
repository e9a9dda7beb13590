import Mathlib.Data.List.NodupEquivFin
import ParallelArch.ModelChecker.HappensBefore
import ParallelArch.ModelChecker.RaceOverflow
import ParallelArch.ModelChecker.ShadowMemory

/-!
# Data races

The race detector checks each access to memory that is not atomic as it happens, and collects
the races it finds.  Once the execution so far is known to be feasible, the races that no
synchronization has ruled out by then are asserted, which ends the execution, and the others are
forgotten.  Every race asserted is one, and until then one would be asserted at an entry if and
only if two accesses to it race (`races_exact`).  The tables of the detector tell apart addresses
by their lowest 48 bits.
-/

/-- The detector in an execution, with the races asserted. -/
structure DataRaces where
  execution : Execution
  memory : ShadowMemory
  unrealizedraces : List DataRace
  asserted : List DataRace

namespace Execution.Event

/-- The arguments of the check of an access. -/
def toAccess : Event → Option Access
  | .action _ _ _ => none
  | .synchronize _ _ => none
  | .access tid isWrite address last cv => some ⟨tid, address, isWrite, cv, last⟩

end Execution.Event

namespace DataRaces

open Execution

/-- No access has been checked. -/
def new : DataRaces where
  execution := Execution.new
  memory := ShadowMemory.new
  unrealizedraces := []
  asserted := []

/-- The test of `checkDataRaces`, by the clocks of that time. -/
def realized (e : Execution) (race : DataRace) : Bool :=
  Access.clockMayRace (e.cv race.newaction) (e.tid race.newaction) race.oldclock race.oldthread

/-- `checkDataRaces`, where `feasible` is the value of `isfeasibleprefix()`. -/
def checkDataRaces (d : DataRaces) (feasible : Bool) : DataRaces × Bool :=
  if feasible then
    let races := d.unrealizedraces.filter (realized d.execution)
    ({ d with unrealizedraces := [], asserted := d.asserted ++ races }, !races.isEmpty)
  else (d, false)

/-- `reportDataRace`; the result is `true` where the thread leaves the check. -/
def reportDataRace (d : DataRaces) (feasible : Bool) (race : DataRace) : DataRaces × Bool :=
  checkDataRaces { d with unrealizedraces := d.unrealizedraces ++ [race] } feasible

/-- The reports of a check, up to the one at which the thread leaves it. -/
def reportDataRaces (feasible : Bool) : List DataRace → DataRaces → DataRaces × Bool
  | [], d => (d, false)
  | race :: races, d =>
      match d.reportDataRace feasible race with
      | (d, true) => (d, true)
      | (d, false) => reportDataRaces feasible races d

/-- `raceCheckRead` or `raceCheckWrite`; `none` if it writes beyond the arrays of a record.  The
tables that a thread leaves behind with the check are not used again. -/
def raceCheck (d : DataRaces) (feasible : Bool) (a : Access) : Option DataRaces :=
  let (races, memory) := d.memory.raceCheckAt a
  match reportDataRaces feasible races d with
  | (d, true) => some d
  | (d, false) => memory.map fun memory => { d with memory }

/-- Whether the execution so far is feasible is known to the parts that are not modelled here. -/
inductive Step where
  | action (tid : ℕ) (created : Option ℕ)
  | synchronize (heads : List ℕ) (acquire : ℕ)
  | access (tid : ℕ) (isWrite : Bool) (address : ℕ) (feasible : Bool)
  | checkDataRaces (feasible : Bool)

/-- An access is checked before it is made. -/
def machine : Machine DataRaces Step Event where
  Initial d := d = new
  next d
    | .action tid created =>
        (Execution.machine.next d.execution (.action tid created)).map
          fun (execution, es) => ({ d with execution }, es)
    | .synchronize heads acquire =>
        (Execution.machine.next d.execution (.synchronize heads acquire)).map
          fun (execution, es) => ({ d with execution }, es)
    | .access tid isWrite address feasible => do
        let action ← d.execution.getParentAction tid
        let currClock := d.execution.cv action
        let d ← d.raceCheck feasible ⟨tid, address, isWrite, currClock, action⟩
        some (d, [.access tid isWrite address action currClock])
    | .checkDataRaces feasible => some ((d.checkDataRaces feasible).1, [])

/-- The execution ends when a race is asserted. -/
def Allowed (d : DataRaces) : Step → Prop
  | .action tid created => d.asserted = [] ∧ d.execution.Allowed (.action tid created)
  | .synchronize heads acquire =>
      d.asserted = [] ∧ d.execution.Allowed (.synchronize heads acquire)
  | .access tid isWrite address _ =>
      d.asserted = [] ∧ d.execution.Allowed (.access tid isWrite address)
  | .checkDataRaces _ => d.asserted = []

instance (d : DataRaces) : ∀ step, Decidable (d.Allowed step)
  | .action tid created =>
      inferInstanceAs (Decidable (d.asserted = [] ∧ d.execution.Allowed (.action tid created)))
  | .synchronize heads acquire =>
      inferInstanceAs (Decidable
        (d.asserted = [] ∧ d.execution.Allowed (.synchronize heads acquire)))
  | .access tid isWrite address _ =>
      inferInstanceAs (Decidable
        (d.asserted = [] ∧ d.execution.Allowed (.access tid isWrite address)))
  | .checkDataRaces _ => inferInstanceAs (Decidable (d.asserted = []))

/-- Two addresses have one entry. -/
def SameEntry (address address' : ℕ) : Prop :=
  address % 2 ^ 48 = address' % 2 ^ 48

instance (address address' : ℕ) : Decidable (SameEntry address address') :=
  inferInstanceAs (Decidable (_ = _))

/-- The accesses to the entry of `address`. -/
def accesses (h : List Event) (address : ℕ) : List Access :=
  (h.filterMap Event.toAccess).filter fun a => SameEntry a.location address

/-- The access `x` is the event at the position `i`. -/
def AccessAt (h : List Event) (i : ℕ) (x : Access) : Prop :=
  ∃ f, h[i]? = some f ∧ f.toAccess = some x

/-- Two accesses to one entry, one of which is a write and neither of which happens before the
other. -/
structure Race (h : List Event) (i j : ℕ) (x y : Access) : Prop where
  lt : i < j
  old : AccessAt h i x
  new : AccessAt h j y
  location : SameEntry x.location y.location
  isWrite : x.isWrite = true ∨ y.isWrite = true
  unordered : ¬ HappensBefore h i j

/-! ### Positions in the history -/

section Positions

variable {α β : Type*} {f : α → Option β} {l : List α}

theorem sublist_filterMap {xs : List β} (h : xs.Sublist (l.filterMap f)) :
  ∃ as : List α, as.Sublist l ∧ as.map f = xs.map some
  := by
  induction l generalizing xs with
  | nil =>
      rw [List.filterMap_nil, List.sublist_nil] at h
      exact ⟨[], List.Sublist.refl [], by rw [h, List.map_nil, List.map_nil]⟩
  | cons a l ih =>
      cases ha : f a with
      | none =>
          rw [List.filterMap_cons_none ha] at h
          obtain ⟨as, hsub, hmap⟩ := ih h
          exact ⟨as, hsub.cons a, hmap⟩
      | some b =>
          rw [List.filterMap_cons_some ha] at h
          cases h with
          | cons _ h =>
              obtain ⟨as, hsub, hmap⟩ := ih h
              exact ⟨as, hsub.cons a, hmap⟩
          | cons_cons _ h =>
              obtain ⟨as, hsub, hmap⟩ := ih h
              exact ⟨a :: as, hsub.cons_cons a, by rw [List.map_cons, List.map_cons, hmap, ha]⟩

/-- What is selected in this order is at positions in this order. -/
theorem exists_positions {xs : List β} (h : xs.Sublist (l.filterMap f)) :
  ∃ p : ℕ → ℕ, StrictMono p ∧
    ∀ (n : ℕ) (x : β), xs[n]? = some x → ∃ a, l[p n]? = some a ∧ f a = some x
  := by
  obtain ⟨as, hsub, hmap⟩ := sublist_filterMap h
  obtain ⟨p, hp⟩ := List.sublist_iff_exists_orderEmbedding_getElem?_eq.mp hsub
  refine ⟨p, p.strictMono, ?_⟩
  intro n x hx
  have hn : (as.map f)[n]? = some (some x) := by rw [hmap, List.getElem?_map, hx, Option.map_some]
  rw [List.getElem?_map, Option.map_eq_some_iff] at hn
  obtain ⟨a, ha, hfa⟩ := hn
  rw [hp] at ha
  exact ⟨a, ha, hfa⟩

end Positions

/-! ### Accesses -/

section Accesses

variable {e : Execution} {h : List Event} {address i j : ℕ} {x y : Access}

theorem accessAt_iff :
  AccessAt h i x ↔ h[i]? = some (.access x.thread x.isWrite x.location x.action x.currClock)
  := by
  constructor
  · rintro ⟨f, hi, hf⟩
    cases f with
    | action seq tid created => cases hf
    | synchronize heads acquire => cases hf
    | access tid isWrite address action cv =>
        cases hf
        apply hi
  · intro hi
    exact ⟨_, hi, rfl⟩

/-- An access of an execution has a clock, and knows no more than its last action does by now. -/
theorem accessAt_spec (ht : e.Timed h) (hx : AccessAt h i x) :
  x.ourClock = x.action ∧ 0 < x.action ∧ x.action ≤ e.usedSequenceNumbers ∧
    e.tid x.action = x.thread ∧ ∀ u, x.currClock.getClock u ≤ e.clock x.action u
  := by
  obtain ⟨hpos, hle, htid, hown, hclock, -⟩ := ht.accesses i _ _ _ _ _ (accessAt_iff.mp hx)
  exact ⟨hown, hpos, hle, htid, hclock⟩

theorem mem_accesses (hx : x ∈ accesses h address) :
  SameEntry x.location address ∧ ∃ i, i < h.length ∧ AccessAt h i x
  := by
  obtain ⟨hmem, hsame⟩ := List.mem_filter.mp hx
  obtain ⟨f, hf, hfx⟩ := List.mem_filterMap.mp hmem
  obtain ⟨i, hi⟩ := List.getElem?_of_mem hf
  refine ⟨by simpa using hsame, i, (List.getElem?_eq_some_iff.mp hi).1, f, hi, hfx⟩

/-- An access has the clock of an action, which is not `0`. -/
theorem ourClock_pos (ht : e.Timed h) (address : ℕ) :
  ∀ x, x ∈ accesses h address → 0 < x.ourClock
  := by
  intro x hx
  obtain ⟨-, i, -, hi⟩ := mem_accesses hx
  obtain ⟨hown, hpos, -⟩ := accessAt_spec ht hi
  rw [hown]
  apply hpos

/-- The detector would not assert a race of `x` with the later access `y` any more. -/
def Ordered (e : Execution) (x y : Access) : Prop := ¬ realized e (Shadow.raceWith y x)

/-- The order that the detector sees, by clocks. -/
theorem ordered_iff_of_le {cv : ClockVector} {tid : ℕ} :
  (¬ Access.clockMayRace cv tid x.ourClock x.thread = true) ↔
    tid = x.thread ∨ x.ourClock = 0 ∨ x.ourClock < cv.getClock x.thread
  := by
  simp only [Access.clockMayRace, decide_eq_true_eq]
  omega

/-- What the detector rules out at the access `y` stays ruled out. -/
theorem ordered_of_before (ht : e.Timed h) (hy : AccessAt h j y) (hbefore : Shadow.Before x y) :
  Ordered e x y
  := by
  obtain ⟨-, -, -, htid, hclock⟩ := accessAt_spec ht hy
  rw [Shadow.Before, ordered_iff_of_le] at hbefore
  apply ordered_iff_of_le.mpr
  change e.tid y.action = _ ∨ _ ∨ _ < e.clock y.action _
  rw [htid]
  have := hclock x.thread
  omega

/-- The test of the detector is right about two accesses. -/
theorem ordered_iff (ht : e.Timed h) (hij : i < j) (hx : AccessAt h i x) (hy : AccessAt h j y) :
  Ordered e x y ↔ HappensBefore h i j
  := by
  obtain ⟨hown, hpos, -⟩ := accessAt_spec ht hx
  obtain ⟨-, -, -, htid, -⟩ := accessAt_spec ht hy
  have hi := accessAt_iff.mp hx
  have hj := accessAt_iff.mp hy
  rw [Ordered, realized]
  change (¬ Access.clockMayRace (e.cv y.action) (e.tid y.action) x.ourClock x.thread = true) ↔ _
  rw [ordered_iff_of_le, htid, hown]
  by_cases hthread : y.thread = x.thread
  · constructor
    · intro _
      apply Relation.TransGen.single
      exact edge_of_thread hij hi hj rfl (by rw [← hthread]; rfl)
    · intro _
      exact .inl hthread
  · rw [ht.access_iff hi hj rfl (by simpa [Event.thread] using hthread)]
    change _ ∨ _ ∨ x.action < e.clock y.action x.thread ↔ _
    omega

/-- What is selected of the accesses is at positions in this order. -/
theorem exists_accessAt {xs : List Access} (hxs : xs.Sublist (accesses h address)) :
  ∃ p : ℕ → ℕ, StrictMono p ∧ ∀ (n : ℕ) (x : Access), xs[n]? = some x →
    AccessAt h (p n) x ∧ SameEntry x.location address
  := by
  obtain ⟨p, hmono, hp⟩ := exists_positions (hxs.trans List.filter_sublist)
  refine ⟨p, hmono, ?_⟩
  intro n x hx
  use hp n x hx
  have hmem := hxs.subset (List.mem_of_getElem? hx)
  simpa using (List.mem_filter.mp hmem).2

/-- On accesses of one location, the order is transitive. -/
theorem ordered_trans (ht : e.Timed h) (x y z : Access)
    (hsub : [x, y, z].Sublist (accesses h address)) (hxy : Ordered e x y) (hyz : Ordered e y z) :
  Ordered e x z
  := by
  obtain ⟨p, hmono, hp⟩ := exists_accessAt hsub
  obtain ⟨hx, -⟩ := hp 0 x rfl
  obtain ⟨hy, -⟩ := hp 1 y rfl
  obtain ⟨hz, -⟩ := hp 2 z rfl
  have h01 : p 0 < p 1 := hmono Nat.zero_lt_one
  have h12 : p 1 < p 2 := hmono (Nat.lt_succ_self 1)
  rw [ordered_iff ht h01 hx hy] at hxy
  rw [ordered_iff ht h12 hy hz] at hyz
  rw [ordered_iff ht (h01.trans h12) hx hz]
  apply hxy.trans hyz

/-- The accesses of the detector race if and only if they do in the history. -/
theorem pairwise_calm_iff (ht : e.Timed h) :
  (accesses h address).Pairwise (LastAccess.Calm (Ordered e) Access.isWrite) ↔
    ∀ i j x y, SameEntry x.location address → ¬ Race h i j x y
  := by
  rw [accesses, List.pairwise_filter, List.pairwise_filterMap, List.pairwise_iff_getElem]
  constructor
  · rintro hcalm i j x y hsame hrace
    obtain ⟨hlt, ⟨f, hi, hf⟩, ⟨g, hj, hg⟩, hloc, hwrite, hunordered⟩ := hrace
    obtain ⟨hi', hfi⟩ := List.getElem?_eq_some_iff.mp hi
    obtain ⟨hj', hgj⟩ := List.getElem?_eq_some_iff.mp hj
    have hsame' : SameEntry y.location address := hloc.symm.trans hsame
    have hordered := hcalm i j hi' hj' hlt x (by rw [hfi, hf]) y (by rw [hgj, hg])
      (by simpa using hsame) (by simpa using hsame') hwrite
    rw [ordered_iff ht hlt ⟨f, hi, hf⟩ ⟨g, hj, hg⟩] at hordered
    apply hunordered hordered
  · intro hraces i j hi hj hlt x hx y hy hsame hsame' hwrite
    have hx' : AccessAt h i x := ⟨_, List.getElem?_eq_getElem hi, hx⟩
    have hy' : AccessAt h j y := ⟨_, List.getElem?_eq_getElem hj, hy⟩
    rw [ordered_iff ht hlt hx' hy']
    by_contra hunordered
    simp only [decide_eq_true_eq] at hsame hsame'
    apply hraces i j x y hsame
    exact ⟨hlt, hx', hy', hsame.trans hsame'.symm, hwrite, hunordered⟩

end Accesses

/-! ### Reports -/

section Reports

variable {d : DataRaces} {e : Execution} {h : List Event} {r : DataRace}

/-- The race `r` was one when it was found. -/
def Found (h : List Event) (r : DataRace) : Prop :=
  ∃ i j x y, Race (h.take (j + 1)) i j x y ∧ r = Shadow.raceWith y x

/-- An access early in the history is an access of the history. -/
theorem accessAt_take {n i : ℕ} {x : Access} (hx : AccessAt (h.take n) i x) :
  AccessAt h i x
  := by
  obtain ⟨f, hi, hf⟩ := hx
  rw [List.getElem?_take] at hi
  split_ifs at hi
  exact ⟨f, hi, hf⟩

/-- A race found stays found. -/
theorem Found.append (hr : Found h r) (es : List Event) :
  Found (h ++ es) r
  := by
  obtain ⟨i, j, x, y, hrace, rfl⟩ := hr
  obtain ⟨f, hj, -⟩ := accessAt_take hrace.new
  have hlt := (List.getElem?_eq_some_iff.mp hj).1
  refine ⟨i, j, x, y, ?_, rfl⟩
  rw [List.take_append_of_le_length (by omega)]
  apply hrace

/-- What the test of `checkDataRaces` accepts is a race still. -/
theorem Found.realized (ht : e.Timed h) (hr : Found h r) (hrealized : realized e r = true) :
  ∃ i j x y, Race h i j x y ∧ r = Shadow.raceWith y x
  := by
  obtain ⟨i, j, x, y, ⟨hlt, hold, hnew, hlocation, hwrite, -⟩, rfl⟩ := hr
  refine ⟨i, j, x, y, ⟨hlt, accessAt_take hold, accessAt_take hnew, hlocation, hwrite, ?_⟩, rfl⟩
  intro hbefore
  apply (ordered_iff ht hlt (accessAt_take hold) (accessAt_take hnew)).mpr hbefore hrealized

/-- In an infeasible prefix the races are noted only. -/
theorem reportDataRaces_infeasible (races : List DataRace) (d : DataRaces) :
  reportDataRaces false races d
    = ({ d with unrealizedraces := d.unrealizedraces ++ races }, false)
  := by
  induction races generalizing d with
  | nil => simp [reportDataRaces]
  | cons race races ih => simp [reportDataRaces, reportDataRace, checkDataRaces, ih]

/-- Where the execution is feasible, a thread leaves the check at the first race. -/
theorem reportDataRaces_feasible (hr : DataRaces.realized d.execution r = true)
    (races : List DataRace) :
  reportDataRaces true (r :: races) d = ((d.reportDataRace true r).1, true)
  := by
  have hasserts : (d.reportDataRace true r).2 = true := by
    simp [reportDataRace, checkDataRaces, hr]
  rw [reportDataRaces]
  cases hreport : d.reportDataRace true r with
  | mk d' asserts =>
      rw [hreport] at hasserts
      cases hasserts
      rfl

/-- Either the first race is asserted, or all races are collected. -/
theorem reportDataRaces_cases (feasible : Bool) {races : List DataRace}
    (hraces : ∀ r, r ∈ races → DataRaces.realized d.execution r = true) :
  (feasible = true ∧ ∃ r, r ∈ races ∧
      reportDataRaces feasible races d = ((d.reportDataRace true r).1, true)) ∨
    ((feasible = true → races = []) ∧
      reportDataRaces feasible races d
        = ({ d with unrealizedraces := d.unrealizedraces ++ races }, false))
  := by
  cases feasible with
  | false =>
      right
      exact ⟨by simp, reportDataRaces_infeasible races d⟩
  | true =>
      cases races with
      | nil =>
          right
          simp [reportDataRaces]
      | cons r races =>
          left
          exact ⟨rfl, r, List.mem_cons_self,
            reportDataRaces_feasible (hraces r List.mem_cons_self) races⟩

end Reports

/-! ### Runs -/

section Runs

variable {d : DataRaces} {h : List Event} {f : Event} {a : Access}

/-- What holds of the detector in every execution. -/
structure Detects (d : DataRaces) (h : List Event) : Prop where
  timed : d.execution.Timed h
  separate : d.memory.Separate
  checked : d.asserted = [] → ∀ address,
    Shadow.checks (accesses h address) = some (d.memory.entry address)
  reported : d.asserted = [] → ∀ address p,
    p ∈ (LastAccess.run Shadow.Before Access.isWrite (accesses h address)).2 →
      Shadow.raceWith p.2 p.1 ∈ d.unrealizedraces ∨ Ordered d.execution p.1 p.2
  found : ∀ r, r ∈ d.unrealizedraces → Found h r
  races : ∀ r, r ∈ d.asserted → ∃ i j x y, Race h i j x y ∧ r = Shadow.raceWith y x

/-- At the start nothing is recorded. -/
theorem detects_new :
  Detects new []
  := by
  constructor
  · apply timed_new
  · apply ShadowMemory.separate_new
  · intro _ address
    rw [ShadowMemory.entry_null (.inl rfl)]
    rfl
  · intro _ address p hp
    cases hp
  · rintro r ⟨⟩
  · rintro r ⟨⟩

/-- One more event is one more access of the location, or none. -/
theorem accesses_append (f : Event) (address : ℕ) :
  accesses (h ++ [f]) address
    = accesses h address ++ (f.toAccess.toList.filter fun a => SameEntry a.location address)
  := by
  rw [accesses, List.filterMap_append, List.filter_append]
  cases hf : f.toAccess with
  | none => simp [accesses, hf]
  | some a => simp [accesses, hf]

/-- Actions and synchronizations rule out races only. -/
theorem Detects.event (hd : Detects d h) (hasserted : d.asserted = []) {e' : Execution}
    (ht : e'.Timed (h ++ [f])) (hf : f.toAccess = none)
    (hgrow : ∀ act, act ≤ d.execution.usedSequenceNumbers →
      e'.tid act = d.execution.tid act ∧ ∀ u, d.execution.clock act u ≤ e'.clock act u) :
  Detects { d with execution := e' } (h ++ [f])
  := by
  have haccesses : ∀ address, accesses (h ++ [f]) address = accesses h address := by
    intro address
    simp [accesses_append, hf]
  constructor
  · apply ht
  · apply hd.separate
  · intro _ address
    rw [haccesses]
    apply hd.checked hasserted
  · intro _ address p hp
    rw [haccesses] at hp
    apply (hd.reported hasserted address p hp).imp_right
    have hmem : p.2 ∈ accesses h address := by
      apply (LastAccess.mem_reports hp).1.subset
      simp
    obtain ⟨-, j, -, hj⟩ := mem_accesses hmem
    obtain ⟨-, -, hle, -⟩ := accessAt_spec hd.timed hj
    obtain ⟨htid, hclock⟩ := hgrow p.2.action hle
    intro hordered
    apply ordered_iff_of_le.mpr
    have hold := ordered_iff_of_le.mp hordered
    change d.execution.tid p.2.action = _ ∨ _ ∨ _ < d.execution.clock p.2.action _ at hold
    change e'.tid p.2.action = _ ∨ _ ∨ _ < e'.clock p.2.action _
    rw [htid]
    have := hclock p.1.thread
    omega
  · intro r hr
    apply (hd.found r hr).append
  · intro r hr
    change r ∈ d.asserted at hr
    rw [hasserted] at hr
    cases hr

/-- `checkDataRaces` asserts races, and drops those of the list that are ordered by then. -/
theorem Detects.checkDataRaces (hd : Detects d h) (hasserted : d.asserted = [])
    (feasible : Bool) :
  Detects (d.checkDataRaces feasible).1 h
  := by
  cases feasible with
  | false => apply hd
  | true =>
      constructor
      · apply hd.timed
      · apply hd.separate
      · intro _
        apply hd.checked hasserted
      · intro hnone address p hp
        right
        rcases hd.reported hasserted address p hp with hmem | hordered
        · intro hrealized
          have hassert : Shadow.raceWith p.2 p.1 ∈ (d.checkDataRaces true).1.asserted := by
            apply List.mem_append_right
            apply List.mem_filter.mpr ⟨hmem, hrealized⟩
          rw [hnone] at hassert
          cases hassert
        · apply hordered
      · rintro r ⟨⟩
      · intro r hr
        rcases List.mem_append.mp hr with hr | hr
        · apply hd.races r hr
        · obtain ⟨hmem, hrealized⟩ := List.mem_filter.mp hr
          apply (hd.found r hmem).realized hd.timed hrealized

/-- What a check reports are races with its access. -/
theorem Detects.check_races (hd : Detects d h) (hasserted : d.asserted = [])
    (hf : f.toAccess = some a) (ht : d.execution.Timed (h ++ [f]))
    (hcurr : a.currClock = d.execution.cv a.action) (r : DataRace)
    (hr : r ∈ (d.memory.raceCheckAt a).1) :
  Found (h ++ [f]) r ∧ realized d.execution r = true
  := by
  have hnew : AccessAt (h ++ [f]) h.length a := ⟨f, by simp, hf⟩
  obtain ⟨-, -, -, htid, -⟩ := accessAt_spec ht hnew
  have hholds := Shadow.checks_holds (ourClock_pos hd.timed a.location)
    (hd.checked hasserted a.location)
  rw [ShadowMemory.raceCheckAt_eq hd.separate, Shadow.raceCheck_races hholds] at hr
  obtain ⟨p, hp, rfl⟩ := hr
  obtain ⟨x, hx, rfl⟩ := List.mem_map.mp hp
  obtain ⟨hrival, hbefore⟩ := List.mem_filter.mp hx
  have hrealized : realized d.execution (Shadow.raceWith a x) = true := by
    rw [realized]
    change Access.clockMayRace (d.execution.cv a.action) (d.execution.tid a.action) _ _ = true
    rw [htid, ← hcurr]
    simpa [Shadow.Before, Shadow.raceWith] using hbefore
  have hkept : LastAccess.Kept Access.isWrite (accesses h a.location)
      (Shadow.last (accesses h a.location)) := LastAccess.kept _
  have hconflict : x ∈ accesses h a.location ∧ (x.isWrite = true ∨ a.isWrite = true) := by
    rcases LastAccess.mem_rivals.mp hrival with hw | ⟨ha, hr⟩
    · obtain ⟨hmem, hwrite⟩ := hkept.write x hw
      exact ⟨hmem, .inl hwrite⟩
    · exact ⟨(hkept.reads x hr).1, .inr ha⟩
  obtain ⟨hsame, i, hlt, f', hi, hf'⟩ := mem_accesses hconflict.1
  have hold : AccessAt (h ++ [f]) i x := ⟨f', getElem?_snoc.mpr (.inl hi), hf'⟩
  refine ⟨⟨i, h.length, x, a, ?_, rfl⟩, hrealized⟩
  rw [List.take_of_length_le (by simp)]
  refine ⟨hlt, hold, hnew, hsame, hconflict.2, ?_⟩
  intro hij
  apply (ordered_iff ht hlt hold hnew).mpr hij hrealized

/-- A check that is not left records its access and collects its races. -/
theorem Detects.stays (hd : Detects d h) (hasserted : d.asserted = [])
    (hf : f.toAccess = some a) (ht : d.execution.Timed (h ++ [f]))
    (hcurr : a.currClock = d.execution.cv a.action) {memory : ShadowMemory}
    (hcheck : (d.memory.raceCheckAt a).2 = some memory) :
  Detects
    { d with memory, unrealizedraces := d.unrealizedraces ++ (d.memory.raceCheckAt a).1 }
    (h ++ [f])
  := by
  have hraces := hd.check_races hasserted hf ht hcurr
  have hpos : 0 < a.ourClock := by
    apply ourClock_pos ht a.location
    rw [accesses_append, hf]
    simp [SameEntry]
  obtain ⟨shadow, hshadow, hseparate, hentry⟩ :=
    ShadowMemory.raceCheckAt_some hd.separate hcheck
  constructor
  · apply ht
  · apply hseparate
  · intro _ address
    have hchecked := hd.checked hasserted address
    rw [accesses_append, hf, hentry, Option.toList_some, List.filter_singleton]
    by_cases hsame : SameEntry a.location address
    · rw [if_pos hsame.symm]
      rw [ShadowMemory.entry_same hsame] at hshadow
      simp [hsame, Shadow.checks_append, hchecked, hshadow]
    · rw [if_neg (fun h => hsame h.symm)]
      simpa [hsame] using hchecked
  · intro _ address p hp
    rw [accesses_append, hf, Option.toList_some, List.filter_singleton] at hp
    have hold : p ∈ (LastAccess.run Shadow.Before Access.isWrite (accesses h address)).2 →
        Shadow.raceWith p.2 p.1 ∈ d.unrealizedraces ++ (d.memory.raceCheckAt a).1 ∨
          Ordered d.execution p.1 p.2 := by
      intro hp
      rcases hd.reported hasserted address p hp with hmem | hordered
      · exact .inl (List.mem_append_left _ hmem)
      · exact .inr hordered
    by_cases hsame : SameEntry a.location address
    · simp only [hsame, decide_true, cond_true, LastAccess.run_append] at hp
      rcases List.mem_append.mp hp with hp | hp
      · apply hold hp
      · left
        apply List.mem_append_right
        have hholds := Shadow.checks_holds (ourClock_pos hd.timed address)
          (hd.checked hasserted address)
        rw [ShadowMemory.raceCheckAt_eq hd.separate, ShadowMemory.entry_same hsame,
          Shadow.raceCheck_races hholds]
        exact ⟨p, hp, rfl⟩
    · apply hold
      simpa [hsame] using hp
  · intro r hr
    rcases List.mem_append.mp hr with hr | hr
    · apply (hd.found r hr).append
    · apply (hraces r hr).1
  · intro r hr
    change r ∈ d.asserted at hr
    rw [hasserted] at hr
    cases hr

/-- A check that is left ends the execution. -/
theorem Detects.leaves (hd : Detects d h) (ht : d.execution.Timed (h ++ [f])) {r : DataRace}
    (hr : Found (h ++ [f]) r) (hrealized : DataRaces.realized d.execution r = true)
    (hasserted : d.asserted = []) :
  Detects (d.reportDataRace true r).1 (h ++ [f])
  := by
  have hends : (d.reportDataRace true r).1.asserted ≠ [] := by
    apply List.ne_nil_of_mem
    apply List.mem_append_right
    apply List.mem_filter.mpr
    exact ⟨List.mem_append_right _ (List.mem_singleton_self r), hrealized⟩
  constructor
  · apply ht
  · apply hd.separate
  · intro hnone
    cases hends hnone
  · intro hnone
    cases hends hnone
  · rintro r' ⟨⟩
  · intro r' hr'
    change r' ∈ d.asserted ++ (d.unrealizedraces ++ [r]).filter _ at hr'
    rw [hasserted, List.nil_append] at hr'
    obtain ⟨hmem, hrealized'⟩ := List.mem_filter.mp hr'
    rcases List.mem_append.mp hmem with hold | hnew
    · apply ((hd.found r' hold).append [f]).realized ht hrealized'
    · rw [List.mem_singleton.mp hnew]
      apply hr.realized ht hrealized

/-- A check that returns records the access, and the races it makes. -/
theorem Detects.access (hd : Detects d h) (hasserted : d.asserted = [])
    (hf : f.toAccess = some a) (ht : d.execution.Timed (h ++ [f]))
    (hcurr : a.currClock = d.execution.cv a.action) {feasible : Bool} {d' : DataRaces}
    (hcheck : d.raceCheck feasible a = some d') :
  Detects d' (h ++ [f])
  := by
  have hraces := hd.check_races hasserted hf ht hcurr
  simp only [raceCheck] at hcheck
  rcases reportDataRaces_cases feasible fun r hr => (hraces r hr).2 with
    ⟨-, r, hr, hreport⟩ | ⟨-, hreport⟩
  · rw [hreport] at hcheck
    cases hcheck
    apply hd.leaves ht (hraces r hr).1 (hraces r hr).2 hasserted
  · rw [hreport] at hcheck
    obtain ⟨memory, hmemory, rfl⟩ := Option.map_eq_some_iff.mp hcheck
    apply hd.stays hasserted hf ht hcurr hmemory

/-- In every run, the detector has recorded the accesses and races of the history. -/
theorem reachable_detects (hreach : machine.Reachable Allowed h d) :
  Detects d h
  := by
  apply hreach.invariant (I := fun d h => Detects d h)
  · rintro _ rfl
    apply detects_new
  · intro d h step d' es hd hallowed hnext
    cases step with
    | action tid created =>
        cases hnext
        apply hd.event hallowed.1 (hd.timed.action hallowed.2) rfl
        intro act hle
        obtain ⟨htid, hclock⟩ := d.execution.addAction_of_le tid created hle
        exact ⟨htid, fun u => (hclock u).ge⟩
    | synchronize heads acquire =>
        cases hnext
        apply hd.event hallowed.1 (hd.timed.synchronize hallowed.2) rfl
        intro act _
        obtain ⟨cv, heq⟩ := d.execution.synchronizeWith_eq heads acquire
        refine ⟨by rw [heq], fun u => ?_⟩
        have hpos := (hallowed.2 acquire List.mem_cons_self).1
        exact (d.execution.le_clock_synchronizeWith heads hpos act u _).mpr (.inl le_rfl)
    | access tid isWrite address feasible =>
        simp only [machine, Option.bind_eq_bind, Option.bind_eq_some_iff] at hnext
        obtain ⟨action, haction, d₁, hcheck, heq⟩ := hnext
        cases heq
        apply hd.access hallowed.1 rfl (hd.timed.access hallowed.2 haction) rfl hcheck
    | checkDataRaces feasible =>
        cases hnext
        rw [List.append_nil]
        apply hd.checkDataRaces hallowed

/-- The detector would assert a race at an entry if and only if there is one. -/
theorem Detects.asserts_iff (hd : Detects d h) (hasserted : d.asserted = []) (address : ℕ) :
  (∃ r, r ∈ (d.checkDataRaces true).1.asserted ∧ SameEntry r.address address) ↔
    ∃ i j x y, Race h i j x y ∧ SameEntry x.location address
  := by
  have hmem : ∀ r, r ∈ (d.checkDataRaces true).1.asserted ↔
      r ∈ d.unrealizedraces ∧ DataRaces.realized d.execution r = true := by
    intro r
    change r ∈ d.asserted ++ d.unrealizedraces.filter _ ↔ _
    rw [hasserted, List.nil_append, List.mem_filter]
  constructor
  · rintro ⟨r, hr, hsame⟩
    obtain ⟨hunrealized, hrealized⟩ := (hmem r).mp hr
    obtain ⟨i, j, x, y, hrace, rfl⟩ := (hd.found r hunrealized).realized hd.timed hrealized
    exact ⟨i, j, x, y, hrace, hrace.location.trans hsame⟩
  · rintro ⟨i, j, x, y, hrace, hsame⟩
    by_contra hnone
    have hordered : ∀ p,
        p ∈ (LastAccess.run Shadow.Before Access.isWrite (accesses h address)).2 →
          Ordered d.execution p.1 p.2 := by
      intro p hp
      rcases hd.reported hasserted address p hp with hunrealized | hordered
      · intro hrealized
        have hp' : p.2 ∈ accesses h address := by
          apply (LastAccess.mem_reports hp).1.subset
          simp
        exact hnone ⟨_, (hmem _).mpr ⟨hunrealized, hrealized⟩, (mem_accesses hp').1⟩
      · apply hordered
    rw [LastAccess.reports_ordered_iff _ (ordered_trans hd.timed), pairwise_calm_iff hd.timed]
      at hordered
    · apply hordered i j x y hsame hrace
    · intro x y hsub hbefore
      obtain ⟨p, -, hp⟩ := exists_accessAt hsub
      apply ordered_of_before hd.timed (hp 1 y rfl).1 hbefore

/-- Each race collected was one when it was found, each race asserted is one, and until then one
would be asserted at an entry if and only if there is one. -/
theorem races_exact (hreach : machine.Reachable Allowed h d) :
  (∀ r, r ∈ d.unrealizedraces → Found h r) ∧
    (∀ r, r ∈ d.asserted → ∃ i j x y, Race h i j x y ∧ r = Shadow.raceWith y x) ∧
    (d.asserted = [] → ∀ address,
      (∃ r, r ∈ (d.checkDataRaces true).1.asserted ∧ SameEntry r.address address) ↔
        ∃ i j x y, Race h i j x y ∧ SameEntry x.location address)
  := by
  have hd := reachable_detects hreach
  exact ⟨hd.found, hd.races, hd.asserts_iff⟩

/-- A race is collected and turns out to be none by a synchronization found later; without the
synchronization it is asserted. -/
theorem races_exact_late :
  (∃ (d : DataRaces) (h : List Event), d.unrealizedraces = [⟨0, 1, true, 5, false, 64⟩] ∧
      Found h ⟨0, 1, true, 5, false, 64⟩ ∧ Event.synchronize [2] 5 ∈ h ∧
      ¬ ∃ i j x y, Race h i j x y ∧ SameEntry x.location 64) ∧
    ∃ h i j x y, Race h i j x y ∧ ⟨0, 1, true, 5, false, 64⟩ = Shadow.raceWith y x
  := by
  constructor
  · have hexec : (machine.exec Allowed new [.action 0 (some 1), .access 0 true 64 true,
        .action 0 none, .action 0 none, .action 1 none, .action 1 none, .access 1 false 64 false,
        .synchronize [2] 5]).map (fun r => (r.1.unrealizedraces, r.1.asserted,
          (r.1.checkDataRaces true).1.asserted, decide (Event.synchronize [2] 5 ∈ r.2)))
          = some ([⟨0, 1, true, 5, false, 64⟩], [], [], true) := by
      decide +kernel
    obtain ⟨⟨d, h⟩, hexec, heq⟩ := Option.map_eq_some_iff.mp hexec
    simp only [Prod.mk.injEq, decide_eq_true_eq] at heq
    obtain ⟨hunrealized, hasserted, hnone, hmem⟩ := heq
    obtain ⟨hfound, -, hiff⟩ := races_exact (Machine.exec_reachable _ rfl hexec)
    refine ⟨d, h, hunrealized, ?_, hmem, ?_⟩
    · apply hfound
      rw [hunrealized]
      apply List.mem_singleton_self
    · rw [← hiff hasserted 64, hnone]
      rintro ⟨r, ⟨⟩, -⟩
  · have hexec : (machine.exec Allowed new [.action 0 (some 1), .access 0 true 64 true,
        .action 0 none, .action 0 none, .action 1 none, .action 1 none, .access 1 false 64 false,
        .checkDataRaces true]).map (fun r => r.1.asserted)
          = some [⟨0, 1, true, 5, false, 64⟩] := by
      decide +kernel
    obtain ⟨⟨d, h⟩, hexec, hasserted⟩ := Option.map_eq_some_iff.mp hexec
    change d.asserted = _ at hasserted
    obtain ⟨-, hraces, -⟩ := races_exact (Machine.exec_reachable _ rfl hexec)
    use h
    apply hraces
    rw [hasserted]
    apply List.mem_singleton_self

/-- A check overflows iff no race ends the execution first and there is no room. -/
theorem raceCheck_none_iff (d : DataRaces) (feasible : Bool) (a : Access) :
  d.raceCheck feasible a = none ↔
    (reportDataRaces feasible (d.memory.raceCheckAt a).1 d).2 = false ∧
      (d.memory.raceCheckAt a).2 = none
  := by
  simp only [raceCheck]
  cases reportDataRaces feasible (d.memory.raceCheckAt a).1 d with
  | mk d' asserts =>
      cases asserts with
      | true => simp
      | false => simp

/-- A check writes beyond the arrays of a record if and only if the record outgrew a word without
a read, this is the first read since, and the thread does not leave the check because of a race
with the last write. -/
theorem check_overflows_iff (hreach : machine.Reachable Allowed h d) {feasible : Bool}
    (hallowed : Allowed d (.access a.thread a.isWrite a.location feasible))
    (haction : d.execution.getParentAction a.thread = some a.action)
    (hcurr : a.currClock = d.execution.cv a.action) :
  machine.next d (.access a.thread a.isWrite a.location feasible) = none ↔
    (∃ rest, Shadow.Bare (accesses h a.location ++ [a]) rest ∧
        ∃ x, x ∈ rest ∧ x.isWrite = false) ∧
      (feasible = true → ∀ w, (Shadow.last (accesses h a.location)).write = some w →
        Shadow.Before w a)
  := by
  have hd := reachable_detects hreach
  have hf : (Event.access a.thread a.isWrite a.location a.action
      (d.execution.cv a.action)).toAccess = some a := by
    rw [← hcurr]
    rfl
  have ht := hd.timed.access hallowed.2 haction
  have hchecked := hd.checked hallowed.1 a.location
  have hholds := Shadow.checks_holds (ourClock_pos hd.timed a.location) hchecked
  have hraces : ∀ r, r ∈ (d.memory.raceCheckAt a).1 ↔
      ∃ p, p ∈ (Shadow.last (accesses h a.location)).reported Shadow.Before Access.isWrite a ∧
        r = Shadow.raceWith p.2 p.1 := by
    intro r
    rw [ShadowMemory.raceCheckAt_eq hd.separate]
    apply Shadow.raceCheck_races hholds
  have hpos : ∀ x, x ∈ accesses h a.location ++ [a] → 0 < x.ourClock := by
    intro x hx
    apply ourClock_pos ht a.location
    rw [accesses_append, hf]
    simpa [List.filter_singleton, SameEntry] using hx
  have hnone : (d.memory.raceCheckAt a).2 = none ↔
      ∃ rest, Shadow.Bare (accesses h a.location ++ [a]) rest ∧
        ∃ x, x ∈ rest ∧ x.isWrite = false := by
    rw [← Shadow.overflow_iff hpos, Shadow.checks_append, hchecked, Option.bind_some,
      ShadowMemory.raceCheckAt_eq hd.separate, Option.map_eq_none_iff]
  have hread : (d.memory.raceCheckAt a).2 = none → a.isWrite = false := by
    rw [ShadowMemory.raceCheckAt_eq hd.separate, Option.map_eq_none_iff,
      Shadow.raceCheck_none hholds.fits]
    exact And.left
  have hnext : machine.next d (.access a.thread a.isWrite a.location feasible) = none ↔
      d.raceCheck feasible a = none := by
    simp only [machine, haction, ← hcurr, Option.bind_eq_bind, Option.bind_some]
    cases d.raceCheck feasible a with
    | none => simp
    | some d' => simp
  rw [hnext, raceCheck_none_iff, ← hnone]
  rcases reportDataRaces_cases feasible
      fun r hr => (hd.check_races hallowed.1 hf ht hcurr r hr).2 with
    ⟨hfeasible, r, hr, hreport⟩ | ⟨hquiet, hreport⟩
  · rw [hreport]
    simp only [Bool.true_eq_false, false_and, false_iff, not_and]
    intro hoverflow hbefore
    obtain ⟨p, hp, -⟩ := (hraces r).mp hr
    obtain ⟨x, hx, -⟩ := List.mem_map.mp hp
    obtain ⟨hrival, hrace⟩ := List.mem_filter.mp hx
    rcases LastAccess.mem_rivals.mp hrival with hw | ⟨hwrite, -⟩
    · simp [hbefore hfeasible x hw] at hrace
    · rw [hread hoverflow] at hwrite
      cases hwrite
  · rw [hreport]
    simp only [true_and]
    constructor
    · intro hoverflow
      use hoverflow
      intro hfeasible w hw
      by_contra hrace
      have hmem : Shadow.raceWith a w ∈ (d.memory.raceCheckAt a).1 := by
        apply (hraces _).mpr
        refine ⟨(w, a), ?_, rfl⟩
        apply List.mem_map_of_mem
        simp [LastAccess.mem_rivals, hw, hrace]
      rw [hquiet hfeasible] at hmem
      cases hmem
    · exact And.left

/-- The first read, by the thread `255`, writes beyond the arrays unless the thread leaves the
check because of the earlier write. -/
theorem check_overflows_iff_first_read :
  ∃ (d : DataRaces) (h : List Event) (a : Access),
    (∃ rest, Shadow.Bare (accesses h 64 ++ [a]) rest ∧ ∃ x, x ∈ rest ∧ x.isWrite = false) ∧
    machine.next d (.access 255 false 64 false) = none ∧
    machine.next d (.access 255 false 64 true) ≠ none
  := by
  have hexec : (machine.exec Allowed new [.action 0 (some 255), .access 0 true 64 true,
      .action 255 none]).map (fun r => (r.1.execution.getParentAction 255,
        decide (Allowed r.1 (.access 255 false 64 false)),
        (machine.next r.1 (.access 255 false 64 false)).isNone,
        (machine.next r.1 (.access 255 false 64 true)).isNone))
        = some (some 2, true, true, false) := by
    decide +kernel
  obtain ⟨⟨d, h⟩, hexec, heq⟩ := Option.map_eq_some_iff.mp hexec
  simp only [Prod.mk.injEq, decide_eq_true_eq, Option.isNone_iff_eq_none] at heq
  obtain ⟨haction, hallowed, hnone, hsome⟩ := heq
  have hreach := Machine.exec_reachable _ rfl hexec
  refine ⟨d, h, ⟨255, 64, false, d.execution.cv 2, 2⟩, ?_, hnone, ?_⟩
  · apply ((check_overflows_iff hreach (a := ⟨255, 64, false, d.execution.cv 2, 2⟩) hallowed
      haction rfl).mp hnone).1
  · intro hnone'
    rw [hnone'] at hsome
    cases hsome

end Runs

end DataRaces

import Mathlib.Logic.Function.Basic
import Mathlib.Logic.Relation
import Mathlib.Order.MinMax
import ParallelArch.Concurrency.Machine
import ParallelArch.ModelChecker.ClockVector

/-!
# Executions

The actions of an execution have sequence numbers and clock vectors.  A new action takes over
the clock vector of the last action of its thread, or of the action that created the thread, and
merges those of the actions it synchronizes with.  Some of these are found only later; then the
actions it happens before merge its clock vector once more (`le_clock_synchronizeWith`).  An
access to memory that is not atomic is no action; it has the clock vector of the last action of
its thread.  What happens before what is defined by the events alone, not by the clocks.
-/

/-- The thread and the clock vector of each action, and of each thread its last action and the
one that created it. -/
structure Execution where
  usedSequenceNumbers : ℕ
  tid : ℕ → ℕ
  cv : ℕ → ClockVector
  lastAction : ℕ → Option ℕ
  creation : ℕ → Option ℕ

namespace Execution

/-- Nothing has been done. -/
def new : Execution where
  usedSequenceNumbers := 0
  tid _ := 0
  cv _ := ⟨[]⟩
  lastAction _ := none
  creation _ := none

/-- `get_parent_action`. -/
def getParentAction (e : Execution) (tid : ℕ) : Option ℕ :=
  match e.lastAction tid with
  | some parent => some parent
  | none => e.creation tid

/-- `get_cv`; `none` where the source dereferences `NULL`. -/
def getCv (e : Execution) (tid : ℕ) : Option ClockVector :=
  (e.getParentAction tid).map e.cv

/-- A new action of `tid`, which may create a thread. -/
def addAction (e : Execution) (tid : ℕ) (created : Option ℕ) : Execution :=
  let seq := e.usedSequenceNumbers + 1
  { usedSequenceNumbers := seq
    tid := Function.update e.tid seq tid
    cv := Function.update e.cv seq (ClockVector.new (e.getCv tid) tid seq)
    lastAction := Function.update e.lastAction tid (some seq)
    creation :=
      match created with
      | none => e.creation
      | some thread => Function.update e.creation thread (some seq) }

/-- `ModelAction::happens_before`. -/
def happensBefore (e : Execution) (this act : ℕ) : Bool :=
  (e.cv act).synchronizedSince (e.tid this) this

/-- `synchronize`: the action `second` merges the clock vector of `first`, unless `second` is
the earlier one. -/
def synchronize (e : Execution) (first second : ℕ) : Execution :=
  if second < first then e
  else { e with cv := Function.update e.cv second ((e.cv second).merge (e.cv first)).2 }

/-- One turn of the loop of `propagate_clockvector`. -/
def propagate (acquire : ℕ) (e : Execution) (act : ℕ) : Execution :=
  if e.happensBefore acquire act then e.synchronize acquire act else e

/-- `propagate_clockvector`: from the last action back to the one after `acquire`. -/
def propagateClockvector (e : Execution) (acquire : ℕ) : Execution :=
  (List.range' (acquire + 1) (e.usedSequenceNumbers - acquire)).reverse.foldl (propagate acquire) e

/-- The action `acquire`, an old one or the last, is found to synchronize with `heads`. -/
def synchronizeWith (e : Execution) (heads : List ℕ) (acquire : ℕ) : Execution :=
  (heads.foldl (fun e head => e.synchronize head acquire) e).propagateClockvector acquire

/-- What the threads do, and what is found out about it. -/
inductive Step where
  | action (tid : ℕ) (created : Option ℕ)
  | synchronize (heads : List ℕ) (acquire : ℕ)
  | access (tid : ℕ) (isWrite : Bool) (address : ℕ)

/-- An access has the last action of its thread, and its clock vector at that time. -/
inductive Event where
  | action (seq tid : ℕ) (created : Option ℕ)
  | synchronize (heads : List ℕ) (acquire : ℕ)
  | access (tid : ℕ) (isWrite : Bool) (address action : ℕ) (cv : ClockVector)
deriving DecidableEq

/-- An access changes nothing here. -/
def machine : Machine Execution Step Event where
  Initial e := e = new
  next e
    | .action tid created =>
        some (e.addAction tid created, [.action (e.usedSequenceNumbers + 1) tid created])
    | .synchronize heads acquire =>
        some (e.synchronizeWith heads acquire, [.synchronize heads acquire])
    | .access tid isWrite address =>
        (e.getParentAction tid).map fun action =>
          (e, [.access tid isWrite address action (e.cv action)])

/-- A thread is created once and before it does anything, only actions synchronize, and a thread
does an action before it accesses memory. -/
def Allowed (e : Execution) : Step → Prop
  | .action tid created =>
      ∀ thread, created = some thread → thread ≠ tid ∧ e.getParentAction thread = none
  | .synchronize heads acquire =>
      ∀ act, act ∈ acquire :: heads → 1 ≤ act ∧ act ≤ e.usedSequenceNumbers
  | .access tid _ _ => e.lastAction tid ≠ none

instance (e : Execution) : ∀ step, Decidable (e.Allowed step)
  | .action tid created =>
      inferInstanceAs (Decidable (∀ thread, thread ∈ created →
        thread ≠ tid ∧ e.getParentAction thread = none))
  | .synchronize heads acquire =>
      inferInstanceAs (Decidable (∀ act, act ∈ acquire :: heads →
        1 ≤ act ∧ act ≤ e.usedSequenceNumbers))
  | .access tid _ _ => inferInstanceAs (Decidable (e.lastAction tid ≠ none))

/-! ### The order of the events -/

namespace Event

/-- The thread of an action or access. -/
def thread : Event → Option ℕ
  | .action _ tid _ => some tid
  | .synchronize _ _ => none
  | .access tid _ _ _ _ => some tid

/-- The sequence number of an action. -/
def seq : Event → Option ℕ
  | .action seq _ _ => some seq
  | .synchronize _ _ => none
  | .access _ _ _ _ _ => none

/-- The thread that an action creates. -/
def created : Event → Option ℕ
  | .action _ _ created => created
  | .synchronize _ _ => none
  | .access _ _ _ _ _ => none

/-- The last action of the thread. -/
def lastAction : Event → Option ℕ
  | .action seq _ _ => some seq
  | .synchronize _ _ => none
  | .access _ _ _ last _ => some last

/-- An earlier event `e` leads to `f` in the same thread, or by the creation of its thread. -/
def Leads (e f : Event) : Prop :=
  ∃ tid, f.thread = some tid ∧ (e.thread = some tid ∨ e.created = some tid)

end Event

/-- The action `f` synchronizes with the action `e`. -/
def Synchronizes (h : List Event) (e f : Event) : Prop :=
  ∃ heads acquire head, Event.synchronize heads acquire ∈ h ∧ head ∈ heads ∧
    e.seq = some head ∧ f.seq = some acquire

/-- The event at `i` leads directly to the one at `j`. -/
def Edge (h : List Event) (i j : ℕ) : Prop :=
  i < j ∧ ∃ e f, h[i]? = some e ∧ h[j]? = some f ∧ (e.Leads f ∨ Synchronizes h e f)

/-- Between positions in the history, by all synchronizations found in it. -/
def HappensBefore (h : List Event) : ℕ → ℕ → Prop :=
  Relation.TransGen (Edge h)

section Order

open Relation

variable {h : List Event} {f g : Event} {i j : ℕ}

theorem getElem?_snoc :
  (h ++ [f])[i]? = some g ↔ h[i]? = some g ∨ i = h.length ∧ f = g
  := by
  rcases Nat.lt_trichotomy i h.length with hlt | rfl | hgt
  · rw [List.getElem?_append_left hlt]
    simp [hlt.ne]
  · simp
  · have hlen : (h ++ [f]).length ≤ i := by
      rw [List.length_append, List.length_singleton]
      apply hgt
    simp only [List.getElem?_eq_none hlen, List.getElem?_eq_none hgt.le, hgt.ne']
    simp

theorem getElem?_of_snoc (hi : (h ++ [f])[i]? = some g) (hne : f ≠ g) :
  h[i]? = some g
  := by
  rcases getElem?_snoc.mp hi with hi | ⟨-, heq⟩
  · apply hi
  · cases hne heq

theorem HappensBefore.lt (hij : HappensBefore h i j) :
  i < j
  := by
  induction hij with
  | single hedge => apply hedge.1
  | tail _ hedge ih => apply ih.trans hedge.1

theorem le_of_path (hij : ReflTransGen (Edge h) i j) :
  i ≤ j
  := by
  induction hij with
  | refl => apply le_rfl
  | tail _ hedge ih => apply ih.trans hedge.1.le

/-- A thread makes its events one after the other. -/
theorem edge_of_thread {tid : ℕ} (hij : i < j) (hi : h[i]? = some f) (hj : h[j]? = some g)
    (hf : f.thread = some tid) (hg : g.thread = some tid) :
  Edge h i j
  := ⟨hij, f, g, hi, hj, .inl ⟨tid, hg, .inl hf⟩⟩

/-- More events only add to the order. -/
theorem Edge.append (hedge : Edge h i j) (es : List Event) :
  Edge (h ++ es) i j
  := by
  obtain ⟨hlt, e, f, hi, hj, hleads⟩ := hedge
  refine ⟨hlt, e, f, ?_, ?_, ?_⟩
  · rw [List.getElem?_append_left (List.getElem?_eq_some_iff.mp hi).1]
    apply hi
  · rw [List.getElem?_append_left (List.getElem?_eq_some_iff.mp hj).1]
    apply hj
  · rcases hleads with hleads | ⟨heads, acquire, head, hmem, hrest⟩
    · exact .inl hleads
    · exact .inr ⟨heads, acquire, head, List.mem_append_left es hmem, hrest⟩

/-- Events added keep the paths there are. -/
theorem path_append (hij : ReflTransGen (Edge h) i j) (es : List Event) :
  ReflTransGen (Edge (h ++ es)) i j
  := by
  induction hij with
  | refl => apply ReflTransGen.refl
  | tail _ hedge ih => apply ReflTransGen.tail ih (hedge.append es)

/-- An event that is no synchronization does not change the order of the others. -/
theorem edge_snoc (hf : ∀ heads acquire, f ≠ .synchronize heads acquire) :
  Edge (h ++ [f]) i j ↔ Edge h i j ∨
    j = h.length ∧ ∃ e, h[i]? = some e ∧ (e.Leads f ∨ Synchronizes h e f)
  := by
  have hsync : ∀ e g, Synchronizes (h ++ [f]) e g → Synchronizes h e g := by
    rintro e g ⟨heads, acquire, head, hmem, hrest⟩
    rcases List.mem_append.mp hmem with hold | hnew
    · exact ⟨heads, acquire, head, hold, hrest⟩
    · cases hf heads acquire (List.mem_singleton.mp hnew).symm
  constructor
  · rintro ⟨hlt, e, g, hi, hj, hleads⟩
    have hleads' : e.Leads g ∨ Synchronizes h e g := hleads.imp_right (hsync e g)
    rcases getElem?_snoc.mp hj with hj | ⟨rfl, rfl⟩
    · left
      rcases getElem?_snoc.mp hi with hi | ⟨rfl, -⟩
      · exact ⟨hlt, e, g, hi, hj, hleads'⟩
      · have := (List.getElem?_eq_some_iff.mp hj).1
        omega
    · right
      rcases getElem?_snoc.mp hi with hi | ⟨rfl, -⟩
      · exact ⟨rfl, e, hi, hleads'⟩
      · omega
  · rintro (hedge | ⟨rfl, e, hi, hleads⟩)
    · apply hedge.append
    · refine ⟨(List.getElem?_eq_some_iff.mp hi).1, e, f, getElem?_snoc.mpr (.inl hi), by simp, ?_⟩
      rcases hleads with hleads | ⟨heads, acquire, head, hmem, hrest⟩
      · exact .inl hleads
      · exact .inr ⟨heads, acquire, head, List.mem_append_left _ hmem, hrest⟩

/-- Only a synchronization makes new paths between earlier events. -/
theorem path_snoc (hf : ∀ heads acquire, f ≠ .synchronize heads acquire)
    (hj : j < h.length) :
  ReflTransGen (Edge (h ++ [f])) i j ↔ ReflTransGen (Edge h) i j
  := by
  constructor
  · intro hij
    induction hij with
    | refl => apply ReflTransGen.refl
    | tail _ hedge ih =>
        rcases (edge_snoc hf).mp hedge with hold | ⟨rfl, -⟩
        · apply ReflTransGen.tail (ih (hold.1.trans hj)) hold
        · omega
  · intro hij
    apply path_append hij

/-- What happens before the last event. -/
theorem path_last (hf : ∀ heads acquire, f ≠ .synchronize heads acquire) :
  ReflTransGen (Edge (h ++ [f])) i h.length ↔ i = h.length ∨
    ∃ j e, h[j]? = some e ∧ (e.Leads f ∨ Synchronizes h e f) ∧ ReflTransGen (Edge h) i j
  := by
  constructor
  · intro hpath
    rcases ReflTransGen.cases_tail hpath with heq | ⟨j, hij, hedge⟩
    · exact .inl heq.symm
    · right
      rcases (edge_snoc hf).mp hedge with ⟨-, -, g, -, hj, -⟩ | ⟨-, e, hj, hleads⟩
      · have := (List.getElem?_eq_some_iff.mp hj).1
        omega
      · have hlt := (List.getElem?_eq_some_iff.mp hj).1
        exact ⟨j, e, hj, hleads, (path_snoc hf hlt).mp hij⟩
  · rintro (rfl | ⟨j, e, hj, hleads, hij⟩)
    · apply ReflTransGen.refl
    · have hlt := (List.getElem?_eq_some_iff.mp hj).1
      apply ReflTransGen.tail ((path_snoc hf hlt).mpr hij)
      exact (edge_snoc hf).mpr (.inr ⟨rfl, e, hj, hleads⟩)

/-- A synchronization orders its two actions, and no others directly. -/
theorem edge_synchronize {heads : List ℕ} {acquire : ℕ} :
  Edge (h ++ [.synchronize heads acquire]) i j ↔ Edge h i j ∨
    i < j ∧ ∃ e f head, h[i]? = some e ∧ h[j]? = some f ∧ head ∈ heads ∧ e.seq = some head ∧
      f.seq = some acquire
  := by
  constructor
  · rintro ⟨hlt, e, f, hi, hj, hleads⟩
    have hj' : h[j]? = some f := by
      rcases getElem?_snoc.mp hj with hj | ⟨-, rfl⟩
      · apply hj
      · rcases hleads with ⟨tid, ⟨⟩, -⟩ | ⟨_, _, _, -, -, -, ⟨⟩⟩
    have hi' : h[i]? = some e := by
      rcases getElem?_snoc.mp hi with hi | ⟨rfl, -⟩
      · apply hi
      · have := (List.getElem?_eq_some_iff.mp hj').1
        omega
    rcases hleads with hleads | ⟨heads', acquire', head, hmem, hhead, hrest⟩
    · exact .inl ⟨hlt, e, f, hi', hj', .inl hleads⟩
    · rcases List.mem_append.mp hmem with hold | hnew
      · exact .inl ⟨hlt, e, f, hi', hj', .inr ⟨heads', acquire', head, hold, hhead, hrest⟩⟩
      · cases List.mem_singleton.mp hnew
        exact .inr ⟨hlt, e, f, head, hi', hj', hhead, hrest⟩
  · rintro (hedge | ⟨hlt, e, f, head, hi, hj, hhead, hrest⟩)
    · apply hedge.append
    · refine ⟨hlt, e, f, getElem?_snoc.mpr (.inl hi), getElem?_snoc.mpr (.inl hj), .inr ?_⟩
      exact ⟨heads, acquire, head, by simp, hhead, hrest⟩

/-- A way along the new edges needs only one of them. -/
theorem path_synchronize {heads : List ℕ} {acquire : ℕ} :
  ReflTransGen (Edge (h ++ [.synchronize heads acquire])) i j ↔ ReflTransGen (Edge h) i j ∨
    ∃ p q e f head, h[p]? = some e ∧ h[q]? = some f ∧ p < q ∧ head ∈ heads ∧ e.seq = some head ∧
      f.seq = some acquire ∧ ReflTransGen (Edge h) i p ∧ ReflTransGen (Edge h) q j
  := by
  constructor
  · intro hij
    induction hij using ReflTransGen.head_induction_on with
    | refl => exact .inl ReflTransGen.refl
    | head hedge _ ih =>
        rcases edge_synchronize.mp hedge with hold | ⟨hlt, e, f, head, hp, hq, hhead, hsync⟩
        · rcases ih with hij | ⟨p, q, e, f, head, hp, hq, hlt, hhead, he, hf, hip, hqj⟩
          · exact .inl (ReflTransGen.head hold hij)
          · exact .inr ⟨p, q, e, f, head, hp, hq, hlt, hhead, he, hf, ReflTransGen.head hold hip,
              hqj⟩
        · right
          rcases ih with hij | ⟨p', q', -, f', -, -, hq', hlt', -, -, hf', hqp, hqj⟩
          · exact ⟨_, _, e, f, head, hp, hq, hlt, hhead, hsync.1, hsync.2, ReflTransGen.refl, hij⟩
          · have hle := le_of_path hqp
            exact ⟨_, q', e, f', head, hp, hq', by omega, hhead, hsync.1, hf', ReflTransGen.refl,
              hqj⟩
  · rintro (hij | ⟨p, q, e, f, head, hp, hq, hlt, hhead, he, hf, hip, hqj⟩)
    · apply path_append hij
    · apply (path_append hip _).trans
      apply ReflTransGen.head _ (path_append hqj _)
      exact edge_synchronize.mpr (.inr ⟨hlt, e, f, head, hp, hq, hhead, he, hf⟩)

end Order

/-! ### The clocks -/

section Clocks

open Relation

variable {e : Execution} {acquire : ℕ}

/-- The clock of the thread `u` in the clock vector of an action. -/
def clock (e : Execution) (act u : ℕ) : ℕ := (e.cv act).getClock u

/-- `happens_before` compares one clock. -/
theorem happensBefore_iff {this act : ℕ} (hpos : 1 ≤ this) :
  e.happensBefore this act = true ↔ this ≤ e.clock act (e.tid this)
  := (e.cv act).synchronizedSince_iff hpos

/-- `synchronize_with` gives the second action the clocks of the first. -/
theorem le_clock_synchronize (e : Execution) (first second act u c : ℕ) :
  c ≤ (e.synchronize first second).clock act u ↔
    c ≤ e.clock act u ∨ act = second ∧ first ≤ second ∧ c ≤ e.clock first u
  := by
  rw [synchronize]
  split_ifs with hlt
  · simp [Nat.not_le_of_lt hlt]
  · by_cases hact : act = second
    · subst hact
      simp [clock, ClockVector.getClock_merge, Nat.le_of_not_lt hlt]
    · simp [clock, hact]

/-- `acquire` merges the clock vectors of all `heads` that are earlier. -/
theorem le_clock_heads (e : Execution) (heads : List ℕ) (acquire act u c : ℕ) :
  c ≤ (heads.foldl (fun e head => e.synchronize head acquire) e).clock act u ↔
    c ≤ e.clock act u ∨
      act = acquire ∧ ∃ head, head ∈ heads ∧ head ≤ acquire ∧ c ≤ e.clock head u
  := by
  induction heads generalizing e with
  | nil => simp
  | cons head heads ih =>
      simp only [List.foldl_cons, ih, le_clock_synchronize, List.mem_cons]
      constructor
      · rintro ((hold | ⟨rfl, hle, hc⟩) | ⟨rfl, head', hhead, hle, hc | ⟨-, hle', hc⟩⟩)
        · exact .inl hold
        · exact .inr ⟨rfl, head, .inl rfl, hle, hc⟩
        · exact .inr ⟨rfl, head', .inr hhead, hle, hc⟩
        · exact .inr ⟨rfl, head, .inl rfl, hle', hc⟩
      · rintro (hold | ⟨rfl, head', rfl | hhead, hle, hc⟩)
        · exact .inl (.inl hold)
        · exact .inl (.inr ⟨rfl, hle, hc⟩)
        · exact .inr ⟨rfl, head', hhead, hle, .inl hc⟩

/-- `propagate_clockvector` changes clocks only. -/
theorem propagate_eq (acquire : ℕ) (e : Execution) (act : ℕ) :
  ∃ cv, propagate acquire e act = { e with cv }
  := by
  rw [propagate, synchronize]
  split_ifs
  · exact ⟨_, rfl⟩
  · exact ⟨_, rfl⟩
  · exact ⟨_, rfl⟩

/-- An action after the acquire takes over the clocks of the acquire. -/
theorem le_clock_propagate (e : Execution) {act : ℕ} (hact : acquire < act)
    (act' u c : ℕ) :
  c ≤ (propagate acquire e act).clock act' u ↔
    c ≤ e.clock act' u ∨ act' = act ∧ e.happensBefore acquire act' = true ∧ c ≤ e.clock acquire u
  := by
  rw [propagate]
  split_ifs with hbefore
  · rw [le_clock_synchronize]
    constructor
    · rintro (hold | ⟨rfl, -, hc⟩)
      · exact .inl hold
      · exact .inr ⟨rfl, hbefore, hc⟩
    · rintro (hold | ⟨rfl, -, hc⟩)
      · exact .inl hold
      · exact .inr ⟨rfl, hact.le, hc⟩
  · constructor
    · exact .inl
    · rintro (hold | ⟨rfl, hbefore', -⟩)
      · apply hold
      · cases hbefore hbefore'

/-- The loop of `propagate_clockvector` over the actions `acts`. -/
theorem le_clock_propagates (hpos : 1 ≤ acquire) {acts : List ℕ}
    (hacts : ∀ act, act ∈ acts → acquire < act) (e : Execution) (act u c : ℕ) :
  c ≤ (acts.foldl (propagate acquire) e).clock act u ↔
    c ≤ e.clock act u ∨
      act ∈ acts ∧ e.happensBefore acquire act = true ∧ c ≤ e.clock acquire u
  := by
  induction acts generalizing e with
  | nil => simp
  | cons act₀ acts ih =>
      have hact₀ : acquire < act₀ := hacts act₀ List.mem_cons_self
      have htid : (propagate acquire e act₀).tid = e.tid := by
        obtain ⟨cv, heq⟩ := propagate_eq acquire e act₀
        rw [heq]
      have hclock := le_clock_propagate e hact₀
      have hacquire : ∀ c, c ≤ (propagate acquire e act₀).clock acquire u ↔
          c ≤ e.clock acquire u := by
        intro c
        rw [hclock]
        simp [hact₀.ne]
      have hbefore : (propagate acquire e act₀).happensBefore acquire act = true ↔
          e.happensBefore acquire act = true := by
        rw [happensBefore_iff hpos, hclock, htid, ← happensBefore_iff hpos]
        constructor
        · rintro (hold | ⟨-, hold, -⟩)
          · apply hold
          · apply hold
        · exact .inl
      rw [List.foldl_cons, ih (fun act hact => hacts act (List.mem_cons_of_mem act₀ hact)), hclock,
        hbefore, hacquire, List.mem_cons]
      constructor
      · rintro ((hold | ⟨hact, hrest⟩) | ⟨hact, hrest⟩)
        · exact .inl hold
        · exact .inr ⟨.inl hact, hrest⟩
        · exact .inr ⟨.inr hact, hrest⟩
      · rintro (hold | ⟨hact | hact, hrest⟩)
        · exact .inl (.inl hold)
        · exact .inl (.inr ⟨hact, hrest⟩)
        · exact .inr ⟨hact, hrest⟩

/-- Synchronizing with the release heads changes clocks only. -/
theorem heads_eq (e : Execution) (heads : List ℕ) (acquire : ℕ) :
  ∃ cv, heads.foldl (fun e head => e.synchronize head acquire) e = { e with cv }
  := by
  induction heads generalizing e with
  | nil => exact ⟨e.cv, rfl⟩
  | cons head heads ih =>
      obtain ⟨cv, heq⟩ := ih (e.synchronize head acquire)
      use cv
      rw [List.foldl_cons, heq, synchronize]
      split_ifs
      · rfl
      · rfl

/-- A synchronization changes clock vectors only. -/
theorem synchronizeWith_eq (e : Execution) (heads : List ℕ) (acquire : ℕ) :
  ∃ cv, e.synchronizeWith heads acquire = { e with cv }
  := by
  have hpropagates : ∀ (acts : List ℕ) (e : Execution),
      ∃ cv, acts.foldl (propagate acquire) e = { e with cv } := by
    intro acts
    induction acts with
    | nil =>
        intro e
        exact ⟨e.cv, rfl⟩
    | cons act acts ih =>
        intro e
        obtain ⟨cv, heq⟩ := propagate_eq acquire e act
        obtain ⟨cv', heq'⟩ := ih (propagate acquire e act)
        use cv'
        rw [List.foldl_cons, heq', heq]
  obtain ⟨cv, heq⟩ := heads_eq e heads acquire
  obtain ⟨cv', heq'⟩ := hpropagates
    (List.range' (acquire + 1) (e.usedSequenceNumbers - acquire)).reverse { e with cv }
  use cv'
  rw [synchronizeWith, propagateClockvector, heq, heq']

/-- After a synchronization `acquire` and whatever it happens before know what `acquire` or one
of the `heads` knew. -/
theorem le_clock_synchronizeWith (e : Execution) (heads : List ℕ) (hpos : 1 ≤ acquire)
    (act u c : ℕ) :
  c ≤ (e.synchronizeWith heads acquire).clock act u ↔ c ≤ e.clock act u ∨
    (act = acquire ∨ acquire < act ∧ act ≤ e.usedSequenceNumbers ∧
        e.happensBefore acquire act = true) ∧
      (c ≤ e.clock acquire u ∨ ∃ head, head ∈ heads ∧ head ≤ acquire ∧ c ≤ e.clock head u)
  := by
  have hheads := le_clock_heads e heads acquire
  obtain ⟨cv, heq⟩ := heads_eq e heads acquire
  rw [synchronizeWith, propagateClockvector]
  generalize heads.foldl (fun e head => e.synchronize head acquire) e = e' at hheads heq ⊢
  have hused : e'.usedSequenceNumbers = e.usedSequenceNumbers := by rw [heq]
  have htid : e'.tid = e.tid := by rw [heq]
  have hbefore : ∀ {act}, acquire < act →
      (e'.happensBefore acquire act = true ↔ e.happensBefore acquire act = true) := by
    intro act hact
    rw [happensBefore_iff hpos, hheads, htid, ← happensBefore_iff hpos]
    simp [hact.ne']
  rw [le_clock_propagates hpos]
  · rw [hheads act, hheads acquire, List.mem_reverse, List.mem_range'_1, hused]
    constructor
    · rintro ((hold | ⟨rfl, hc⟩) | ⟨hact, hknown, hc⟩)
      · exact .inl hold
      · exact .inr ⟨.inl rfl, .inr hc⟩
      · have hlt : acquire < act := by omega
        refine .inr ⟨.inr ⟨hlt, by omega, (hbefore hlt).mp hknown⟩, ?_⟩
        exact hc.imp_right And.right
    · rintro (hold | ⟨rfl | ⟨hlt, hle, hknown⟩, hc⟩)
      · exact .inl (.inl hold)
      · rcases hc with hc | hc
        · exact .inl (.inl hc)
        · exact .inl (.inr ⟨rfl, hc⟩)
      · right
        refine ⟨?_, (hbefore hlt).mpr hknown, hc.imp_right fun hc => ⟨rfl, hc⟩⟩
        omega
  · intro act hact
    rw [List.mem_reverse, List.mem_range'_1] at hact
    omega

end Clocks

end Execution

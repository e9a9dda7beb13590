import ParallelArch.Queue.Sequential
import ParallelArch.Queue.Slots

/-!
# The wrap of the counters

The queue over 64 bits keeps its tickets modulo `2 ^ 64`.  If the capacity is a power of two, a
ticket works on the same slot before and after the wrap, and with one thread a slot is at most a lap
away from the ticket it is compared with.  So the queue moves in lockstep with the queue with
unbounded tickets, for however many calls.
-/

namespace SizeT

theorem unbounded_wrap (n : ℕ) : unbounded.wrap n = n := rfl

/-- The signed difference of two numbers that are not far apart. -/
theorem bits64_dif_wrap {seq pos : ℕ} (hbehind : pos ≤ seq + 2 ^ 62) (hahead : seq ≤ pos + 2 ^ 62) :
  bits64.dif (bits64.wrap seq) (bits64.wrap pos) = unbounded.dif seq pos
  := by
  calc bits64.dif (bits64.wrap seq) (bits64.wrap pos)
      = Int.bmod ((seq : ℤ) % (2 ^ 64 : ℕ) - (pos : ℤ) % (2 ^ 64 : ℕ)) (2 ^ 64) := rfl
    _ = Int.bmod (seq - pos) (2 ^ 64) := by rw [Int.emod_sub_bmod, Int.sub_emod_bmod]
    _ = unbounded.dif seq pos := by
      apply Int.bmod_eq_of_le
      · push_cast
        omega
      · push_cast
        omega

end SizeT

namespace NonBlockingQueue

variable {T : Type*}

/-! ### Tickets modulo `2 ^ 64` -/

/-- A program point with other tickets. -/
def Pc.mapTicket (f : ℕ → ℕ) : Pc T → Pc T
  | .idle => .idle
  | .addLoadTail item => .addLoadTail item
  | .addLoadSeq item pos => .addLoadSeq item (f pos)
  | .addCas item pos => .addCas item (f pos)
  | .addFull item pos => .addFull item (f pos)
  | .addRetry item pos => .addRetry item (f pos)
  | .addWrite item pos => .addWrite item (f pos)
  | .addPublish item pos => .addPublish item (f pos)
  | .removeLoadHead => .removeLoadHead
  | .removeLoadSeq pos => .removeLoadSeq (f pos)
  | .removeCas pos => .removeCas (f pos)
  | .removeEmpty pos => .removeEmpty (f pos)
  | .removeRetry pos => .removeRetry (f pos)
  | .removeRead pos => .removeRead (f pos)
  | .removeRelease pos out => .removeRelease (f pos) out

/-- An event with other tickets. -/
def Event.mapTicket (f : ℕ → ℕ) : Event T → Event T
  | .addWon pos item => .addWon (f pos) item
  | .removeWon pos => .removeWon (f pos)
  | .addReturned pos => .addReturned (f pos)
  | .removeReturned pos out => .removeReturned (f pos) out

/-- The thread over 64 bits. -/
def Thread.wrapped (t : Thread T) : Thread T := { t with pc := t.pc.mapTicket SizeT.bits64.wrap }

/-- The fields of the queue of capacity `c` over 64 bits. -/
def Mem.wrapped (c : ℕ) (m : Mem T) : Mem T where
  buffer r := { m.buffer r with
    seq := if r < c then SizeT.bits64.wrap (m.buffer r).seq else (m.buffer r).seq }
  head := SizeT.bits64.wrap m.head
  tail := SizeT.bits64.wrap m.tail

/-- The queue over 64 bits, used by the same threads. -/
def wrapped {ι : Type*} (c : ℕ) (s : Global ι (Mem T) (Thread T)) :
    Global ι (Mem T) (Thread T) where
  mem := s.mem.wrapped c
  loc i := (s.loc i).wrapped

/-- A step over 64 bits. -/
def outcomeWrapped (c : ℕ) (o : Outcome (Mem T) (Thread T) (Event T)) :
    Outcome (Mem T) (Thread T) (Event T) where
  mem := o.mem.wrapped c
  loc := o.loc.wrapped
  events := o.events.map (Event.mapTicket SizeT.bits64.wrap)

section Fields

variable {c : ℕ} (m : Mem T)

@[simp]
theorem Mem.wrapped_head : (m.wrapped c).head = SizeT.bits64.wrap m.head := rfl

@[simp]
theorem Mem.wrapped_tail : (m.wrapped c).tail = SizeT.bits64.wrap m.tail := rfl

@[simp]
theorem Mem.wrapped_data (r : ℕ) : ((m.wrapped c).buffer r).data = (m.buffer r).data := rfl

theorem Mem.wrapped_seq {r : ℕ} (hr : r < c) :
  ((m.wrapped c).buffer r).seq = SizeT.bits64.wrap (m.buffer r).seq
  := if_pos hr

theorem Mem.wrapped_storeData (r : ℕ) (item : T) :
  (m.storeData r item).wrapped c = (m.wrapped c).storeData r item
  := by
  rw [storeData, storeData, wrapped, wrapped]
  congr 1
  funext k
  rcases eq_or_ne k r with rfl | hne
  · simp
  · simp [hne]

theorem Mem.wrapped_storeSeq {r : ℕ} (hr : r < c) (seq : ℕ) :
  (m.storeSeq r seq).wrapped c = (m.wrapped c).storeSeq r (SizeT.bits64.wrap seq)
  := by
  rw [storeSeq, storeSeq, wrapped, wrapped]
  congr 1
  funext k
  rcases eq_or_ne k r with rfl | hne
  · simp [hr]
  · simp [hne]

theorem Mem.wrapped_new [Inhabited T] (hc : c ≤ 2 ^ 64) :
  (Mem.new c : Mem T).wrapped c = Mem.new c
  := by
  rw [wrapped]
  congr 1
  funext r
  by_cases hr : r < c
  · have hwrap : SizeT.bits64.wrap r = r := SizeT.bits64_wrap (hr.trans_le hc)
    simp [new, hwrap]
  · simp [new, hr]

end Fields

/-! ### One thread -/

section Alone

variable {c : ℕ} {m : Mem T} {t : Thread T} {won : ℕ → T → Prop}

/-- The slot of the next add is at most a lap behind. -/
theorem Ring.tail_near (hc : 2 ≤ c) (hR : Ring c m (fun _ : Unit => t) won) :
  m.tail ≤ (m.buffer (m.tail % c)).seq + c ∧ (m.buffer (m.tail % c)).seq ≤ m.tail
  := by
  have hle := hR.head_le
  have htail := hR.tail_le
  rcases Nat.lt_or_ge m.tail (m.head + c) with hroom | hfull
  · have hvacant := hR.vacant m.tail le_rfl hroom
    omega
  · have hfilled := hR.filled m.head le_rfl (by omega)
    have heq : m.tail = m.head + c := by omega
    rw [heq, Nat.add_mod_right]
    omega

/-- The slot of the next remove is at most a lap behind its item. -/
theorem Ring.head_near (hc : 2 ≤ c) (hR : Ring c m (fun _ : Unit => t) won) :
  m.head + 1 ≤ (m.buffer (m.head % c)).seq + c ∧ (m.buffer (m.head % c)).seq ≤ m.head + 1
  := by
  have hle := hR.head_le
  rcases Nat.lt_or_ge m.head m.tail with hitem | hempty
  · have hfilled := hR.filled m.head le_rfl hitem
    omega
  · have hvacant := hR.vacant m.head hempty (by omega)
    omega

theorem wrap_add (a b : ℕ) :
  SizeT.bits64.wrap (SizeT.bits64.wrap a + b) = SizeT.bits64.wrap (a + b)
  := SizeT.bits64_wrap_mod_add a b

/-- A step over 64 bits is a step over unbounded numbers. -/
theorem step_wrapped (hc : 2 ≤ c) (hc' : c ≤ 2 ^ 62) (hdvd : c ∣ 2 ^ 64)
    (hR : Ring c m (fun _ : Unit => t) won) (hcurrent : t.pc.Current .unbounded c m)
    (spurious : Bool) :
  step .bits64 c (m.wrapped c) t.wrapped spurious
    = (step .unbounded c m t spurious).map (outcomeWrapped c)
  := by
  have hslot : ∀ pos, SizeT.bits64.wrap pos % c = pos % c := fun pos => Nat.mod_mod_of_dvd pos hdvd
  have hlt : ∀ pos, pos % c < c := fun pos => Nat.mod_lt pos (by omega)
  obtain ⟨todo, pc, spins⟩ := t
  cases pc with
  | idle =>
      rcases todo with _ | ⟨item | _, todo⟩
      · rfl
      · rfl
      · rfl
  | addLoadSeq item pos =>
      obtain rfl : pos = m.tail := hcurrent
      obtain ⟨hbehind, hahead⟩ := hR.tail_near hc
      have hdif : SizeT.bits64.dif (SizeT.bits64.wrap (m.buffer (m.tail % c)).seq)
          (SizeT.bits64.wrap m.tail)
          = SizeT.unbounded.dif (m.buffer (m.tail % c)).seq m.tail := by
        apply SizeT.bits64_dif_wrap
        · omega
        · omega
      simp only [step, Thread.wrapped, Pc.mapTicket, hslot, m.wrapped_seq (hlt _), hdif]
      split_ifs
      · rfl
      · rfl
      · rfl
  | addCas item pos =>
      obtain ⟨rfl, -⟩ := hcurrent
      have hwin : ({ m with tail := m.tail + 1 } : Mem T).wrapped c
          = { m.wrapped c with tail := SizeT.bits64.wrap (SizeT.bits64.wrap m.tail + 1) } := by
        rw [wrap_add]
        rfl
      cases spurious
      · simp [step, Thread.wrapped, Pc.mapTicket, outcomeWrapped, hwin, Thread.goto,
          SizeT.unbounded_wrap, Event.mapTicket]
      · simp [step, Thread.wrapped, Pc.mapTicket, outcomeWrapped, Thread.goto]
  | addWrite item pos =>
      simp [step, Thread.wrapped, Pc.mapTicket, outcomeWrapped, Thread.goto, hslot,
        Mem.wrapped_storeData]
  | addPublish item pos =>
      simp [step, Thread.wrapped, Pc.mapTicket, outcomeWrapped, Thread.goto, hslot,
        Mem.wrapped_storeSeq _ (hlt _), wrap_add, SizeT.unbounded_wrap, Event.mapTicket]
  | removeLoadSeq pos =>
      obtain rfl : pos = m.head := hcurrent
      obtain ⟨hbehind, hahead⟩ := hR.head_near hc
      have hdif : SizeT.bits64.dif (SizeT.bits64.wrap (m.buffer (m.head % c)).seq)
          (SizeT.bits64.wrap (m.head + 1))
          = SizeT.unbounded.dif (m.buffer (m.head % c)).seq
              (SizeT.unbounded.wrap (m.head + 1)) := by
        apply SizeT.bits64_dif_wrap
        · omega
        · omega
      simp only [step, Thread.wrapped, Pc.mapTicket, hslot, m.wrapped_seq (hlt _), wrap_add, hdif]
      split_ifs
      · rfl
      · rfl
      · rfl
  | removeCas pos =>
      obtain ⟨rfl, -⟩ := hcurrent
      have hwin : ({ m with head := m.head + 1 } : Mem T).wrapped c
          = { m.wrapped c with head := SizeT.bits64.wrap (SizeT.bits64.wrap m.head + 1) } := by
        rw [wrap_add]
        rfl
      cases spurious
      · simp [step, Thread.wrapped, Pc.mapTicket, outcomeWrapped, hwin, Thread.goto,
          SizeT.unbounded_wrap, Event.mapTicket]
      · simp [step, Thread.wrapped, Pc.mapTicket, outcomeWrapped, Thread.goto]
  | removeRead pos =>
      simp [step, Thread.wrapped, Pc.mapTicket, outcomeWrapped, Thread.goto, hslot]
  | removeRelease pos out =>
      simp [step, Thread.wrapped, Pc.mapTicket, outcomeWrapped, Thread.goto, hslot,
        Mem.wrapped_storeSeq _ (hlt _), wrap_add, SizeT.unbounded_wrap, Event.mapTicket]
  | _ => rfl

/-- What holds of the states of one thread on the queue with unbounded tickets. -/
def Sound (c : ℕ) (s : Global Unit (Mem T) (Thread T)) : Prop :=
  (s.loc ()).pc.Current .unbounded c s.mem ∧
    ∃ h, Ring c s.mem s.loc (Won h) ∧ Ledger s.mem s.loc h

variable [Inhabited T]

/-- With one thread the queue over 64 bits is in lockstep with the queue with unbounded
tickets. -/
theorem lockstep (hc : 2 ≤ c) (hc' : c ≤ 2 ^ 62) (hdvd : c ∣ 2 ^ 64) :
  (queue Unit .unbounded c : Machine (Global Unit (Mem T) (Thread T)) _ _).Lockstep
    (queue Unit .bits64 c) (Sound c) (wrapped c)
    (Prod.map id (Event.mapTicket SizeT.bits64.wrap))
  := by
  constructor
  · rintro ⟨m, l⟩ ⟨⟨⟩, spurious⟩ ⟨hcurrent, h, hR, -⟩
    have hstep := step_wrapped hc hc' hdvd hR hcurrent spurious
    simp only [queue, threads, wrapped, hstep, Option.map_map]
    congr 1
    funext o
    simp only [Function.comp_apply, outcomeWrapped, Prod.mk.injEq, Global.mk.injEq, true_and,
      List.map_map]
    constructor
    · funext i
      simp
    · rfl
  · rintro ⟨m, l⟩ ⟨⟨⟩, spurious⟩ s' e ⟨hcurrent, h, hR, hL⟩ hnext
    obtain ⟨o, ho, rfl, rfl⟩ := threads_next.mp hnext
    obtain ⟨hR', hL'⟩ := step_keeps hc hR hL ho
    constructor
    · simp only [Function.update_self]
      apply (left_step hcurrent ho).1
    · exact ⟨_, hR', hL'⟩

omit [Inhabited T] in
/-- A call has the same answer whatever its ticket. -/
theorem answer_mapTicket (f : ℕ → ℕ) (e : Unit × Event T) :
  answer (Prod.map id (Event.mapTicket f) e) = answer e
  := by
  obtain ⟨⟨⟩, e⟩ := e
  cases e with
  | _ => rfl

/-- One thread before its first call. -/
def fresh (c : ℕ) (calls : List (QueueCall T)) : Global Unit (Mem T) (Thread T) where
  mem := Mem.new c
  loc _ := ⟨calls, .idle, 0⟩

theorem fresh_sound (calls : List (QueueCall T)) :
  Sound c (fresh c calls)
  := by
  constructor
  · trivial
  · exact ⟨[], Ring.new fun _ => rfl, Ledger.new (c := c) fun _ => rfl⟩

theorem wrapped_fresh (hc : c ≤ 2 ^ 64) (calls : List (QueueCall T)) :
  wrapped c (fresh c calls) = fresh c calls
  := congrArg (Global.mk · _) (Mem.wrapped_new hc)

/-- For a capacity that is a power of two, one thread runs the queue over 64 bits as it runs the
queue with unbounded tickets, and is given the same answers. -/
theorem wrap_unseen {k : ℕ} (hk : 1 ≤ k) (hk' : k ≤ 62) (calls : List (QueueCall T)) :
  (∀ h' s', (queue Unit .bits64 (2 ^ k)).Run Machine.Free (fresh (2 ^ k) calls) h' s'
    ↔ ∃ h s, (queue Unit .unbounded (2 ^ k)).Run Machine.Free (fresh (2 ^ k) calls) h s ∧
      h' = h.map (Prod.map id (Event.mapTicket SizeT.bits64.wrap)) ∧ s' = wrapped (2 ^ k) s) ∧
  (queue Unit .bits64 (2 ^ k)).Traces answer (fresh (2 ^ k) calls)
    = (queue Unit .unbounded (2 ^ k)).Traces answer (fresh (2 ^ k) calls)
  := by
  have hc : 2 ≤ 2 ^ k := Nat.le_self_pow (by omega) 2
  have hc' : 2 ^ k ≤ 2 ^ 62 := Nat.pow_le_pow_right Nat.two_pos hk'
  have hdvd : 2 ^ k ∣ 2 ^ 64 := Nat.pow_dvd_pow 2 (by omega)
  have hlockstep := lockstep (T := T) hc hc' hdvd
  have hfresh : wrapped (2 ^ k) (fresh (2 ^ k) calls) = fresh (2 ^ k) calls :=
    wrapped_fresh (by omega) calls
  constructor
  · intro h' s'
    rw [← hlockstep.run_iff (fresh_sound calls), hfresh]
  · have htraces := hlockstep.traces (fresh_sound calls) answer
    rw [hfresh] at htraces
    simp only [answer_mapTicket] at htraces
    apply htraces

end Alone

/-- The capacity of the benchmark. -/
theorem wrap_unseen_benchmark :
  (queue Unit .bits64 (2 ^ 20)).Traces answer (fresh (2 ^ 20) [QueueCall.add 7, .remove, .remove])
    = (queue Unit .unbounded (2 ^ 20)).Traces answer
        (fresh (2 ^ 20) [QueueCall.add 7, .remove, .remove])
  := (wrap_unseen (by decide) (by decide) _).2

end NonBlockingQueue

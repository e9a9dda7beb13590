import ParallelArch.Queue.Sequential

/-!
# Interchanging the queues

One thread can tell the two queues apart in two ways only.  With a single slot the
non-blocking queue takes an add while it is full.  And when the counters `head` and `tail`
pass `2 ^ 64`, the slot of the next ticket is the next slot of the ring only if the capacity
divides `2 ^ 64`; for other capacities the queues part with the first call that works on a
wrapped ticket, except in a few cases listed in `OutlivesWrap`.
-/

namespace NonBlockingQueue

variable {T : Type*} {c r : ℕ} {m : Mem T} {q : List T}

/-! ### The ring -/

/-- The ring of a queue that holds `q` after `r` removes: the slots of the tickets in the
queue are filled, the slots of the tickets to come are free. -/
structure Holds (c : ℕ) (m : Mem T) (r : ℕ) (q : List T) : Prop where
  head : m.head = r % 2 ^ 64
  tail : m.tail = (r + q.length) % 2 ^ 64
  bound : q.length ≤ c
  filled : ∀ k, r ≤ k → k < r + q.length → (m.buffer (k % c)).seq = (k + 1) % 2 ^ 64
  data : ∀ k, r ≤ k → k < r + q.length → q[k - r]? = some (m.buffer (k % c)).data
  free : ∀ k, r + q.length ≤ k → k < r + c → (m.buffer (k % c)).seq = k % 2 ^ 64

/-- A ticket works on its slot although the counter has wrapped. -/
theorem slot_wrap {k : ℕ} (h : c ∣ 2 ^ 64 ∨ k < 2 ^ 64) :
  k % 2 ^ 64 % c = k % c
  := by
  rcases h with h | h
  · apply Nat.mod_mod_of_dvd _ h
  · rw [Nat.mod_eq_of_lt h]

theorem Holds.new [Inhabited T] (hc : c ≤ 2 ^ 64) :
  Holds c (Mem.new c : Mem T) 0 []
  := by
  constructor
  · rfl
  · rfl
  · apply Nat.zero_le
  · intro k _ hk
    cases hk
  · intro k _ hk
    cases hk
  · intro k _ hk
    have hlt : k < c := by omega
    rw [Nat.mod_eq_of_lt hlt, Nat.mod_eq_of_lt (hlt.trans_le hc)]
    rfl

/-- An add finds its slot free if there is room. -/
theorem Holds.addReady (h : Holds c m r q) (hslot : c ∣ 2 ^ 64 ∨ r + q.length < 2 ^ 64)
    (hroom : q.length < c) :
  m.AddReady .bits64 c
  := by
  apply SizeT.bits64_dif_eq_zero.mpr
  rw [h.tail, slot_wrap hslot, h.free _ le_rfl (by omega)]

/-- A full queue of at least two slots does not take an add. -/
theorem Holds.not_addReady (h : Holds c m r q) (hslot : c ∣ 2 ^ 64 ∨ r + q.length < 2 ^ 64)
    (hc : 1 < c) (hc' : c < 2 ^ 64) (hfull : q.length = c) :
  ¬ m.AddReady .bits64 c
  := by
  intro hready
  have hmod := SizeT.bits64_dif_eq_zero.mp hready
  rw [h.tail, slot_wrap hslot, hfull, Nat.add_mod_right,
    h.filled r le_rfl (by omega)] at hmod
  have hsame : r + 1 ≡ r + c [MOD 2 ^ 64] := (Nat.mod_modEq _ _).symm.trans
    (hmod.trans (Nat.mod_modEq _ _))
  have hone := Nat.ModEq.add_left_cancel' r hsame
  rw [Nat.ModEq, Nat.mod_eq_of_lt (by omega), Nat.mod_eq_of_lt hc'] at hone
  omega

/-- A full queue with a single slot takes an add. -/
theorem Holds.addReady_one (h : Holds 1 m r q) (hfull : q.length = 1) :
  m.AddReady .bits64 1
  := by
  apply SizeT.bits64_dif_eq_zero.mpr
  have hseq := h.filled r le_rfl (by omega)
  rw [Nat.mod_one] at hseq
  rw [h.tail, hfull, Nat.mod_one, hseq]

theorem Holds.push (h : Holds c m r q) (hslot : c ∣ 2 ^ 64 ∨ r + q.length < 2 ^ 64)
    (hroom : q.length < c) (item : T) :
  Holds c (m.push .bits64 c item) r (q ++ [item])
  := by
  have hlen : (q ++ [item]).length = q.length + 1 := List.length_append
  have htail : m.tail % c = (r + q.length) % c := by
    rw [h.tail, slot_wrap hslot]
  have hwrap : SizeT.bits64.wrap (m.tail + 1) = (r + q.length + 1) % 2 ^ 64 := by
    rw [h.tail, SizeT.bits64_wrap_mod_add]
  have other : ∀ k, k ≠ r + q.length → k < r + q.length + c → r + q.length < k + c →
      k % c ≠ m.tail % c := by
    intro k hne hlt hlt'
    rw [htail]
    rcases Nat.lt_or_gt_of_ne hne with hk | hk
    · apply (slot_ne hk hlt').symm
    · apply slot_ne hk hlt
  constructor
  · apply h.head
  · rw [hlen]
    exact hwrap
  · rw [hlen]
    apply hroom
  · intro k hk hk'
    rw [hlen] at hk'
    rw [Mem.push, Mem.storeSeq_seq, Mem.storeData_seq]
    rcases eq_or_ne k (r + q.length) with rfl | hne
    · rw [if_pos htail.symm, hwrap]
    · rw [if_neg (other k hne (by omega) (by omega))]
      apply h.filled k hk (by omega)
  · intro k hk hk'
    rw [hlen] at hk'
    rw [Mem.push, Mem.storeSeq_data, Mem.storeData_data]
    rcases eq_or_ne k (r + q.length) with rfl | hne
    · rw [if_pos htail.symm, Nat.add_sub_cancel_left, List.getElem?_concat_length]
    · rw [if_neg (other k hne (by omega) (by omega)), List.getElem?_append_left (by omega)]
      apply h.data k hk (by omega)
  · intro k hk hk'
    rw [hlen] at hk
    rw [Mem.push, Mem.storeSeq_seq, Mem.storeData_seq,
      if_neg (other k (by omega) (by omega) (by omega))]
    apply h.free k (by omega) hk'

/-- A remove finds its slot filled if there is an item. -/
theorem Holds.removeReady {out : T} (h : Holds c m r (out :: q))
    (hslot : c ∣ 2 ^ 64 ∨ r < 2 ^ 64) :
  m.RemoveReady .bits64 c ∧ (m.buffer (m.head % c)).data = out
  := by
  have hlen : (out :: q).length = q.length + 1 := rfl
  constructor
  · apply SizeT.bits64_dif_eq_zero.mpr
    rw [h.head, slot_wrap hslot, h.filled r le_rfl (by omega), SizeT.bits64_wrap_mod_add]
  · have hdata := h.data r le_rfl (by omega)
    rw [Nat.sub_self] at hdata
    rw [h.head, slot_wrap hslot]
    exact (Option.some.inj hdata).symm

/-- A remove finds its slot free if the queue is empty. -/
theorem Holds.not_removeReady (h : Holds c m r []) (hc : 0 < c)
    (hslot : c ∣ 2 ^ 64 ∨ r < 2 ^ 64) :
  ¬ m.RemoveReady .bits64 c
  := by
  intro hready
  have hmod := SizeT.bits64_dif_eq_zero.mp hready
  rw [h.head, slot_wrap hslot, h.free r le_rfl (by omega), SizeT.bits64_wrap_mod_add] at hmod
  have hsame : r + 0 ≡ r + 1 [MOD 2 ^ 64] :=
    (Nat.mod_modEq _ _).symm.trans (hmod.trans (Nat.mod_modEq _ _))
  have hone := Nat.ModEq.add_left_cancel' r hsame
  cases hone

theorem Holds.pop {out : T} (h : Holds c m r (out :: q)) (hslot : c ∣ 2 ^ 64 ∨ r < 2 ^ 64) :
  Holds c (m.pop .bits64 c) (r + 1) q
  := by
  have hlen : (out :: q).length = q.length + 1 := rfl
  have hbound := h.bound
  have hhead : m.head % c = r % c := by
    rw [h.head, slot_wrap hslot]
  have hwrap : SizeT.bits64.wrap (m.head + c) = (r + c) % 2 ^ 64 := by
    rw [h.head, SizeT.bits64_wrap_mod_add]
  constructor
  · rw [Mem.pop, Mem.storeSeq_head]
    rw [h.head, SizeT.bits64_wrap_mod_add]
  · rw [Mem.pop, Mem.storeSeq_tail]
    rw [h.tail, hlen]
    congr 1
    omega
  · omega
  · intro k hk hk'
    rw [Mem.pop, Mem.storeSeq_seq, if_neg]
    · apply h.filled k (by omega) (by omega)
    · rw [hhead]
      apply slot_ne (by omega) (by omega)
  · intro k hk hk'
    have hdata := h.data k (by omega) (by omega)
    obtain ⟨j, rfl⟩ := Nat.exists_eq_add_of_le hk
    rw [Mem.pop, Mem.storeSeq_data]
    rw [show r + 1 + j - r = j + 1 by omega] at hdata
    rw [Nat.add_sub_cancel_left]
    exact hdata
  · intro k hk hk'
    rw [Mem.pop, Mem.storeSeq_seq]
    rcases eq_or_ne k (r + c) with rfl | hne
    · rw [Nat.add_mod_right, if_pos hhead.symm, hwrap]
    · rw [if_neg]
      · apply h.free k (by omega) (by omega)
      · rw [hhead]
        apply slot_ne (by omega) (by omega)

/-! ### The wrap of the counters -/

theorem wrap_mod_pos (hc : 0 < c) (hdvd : ¬ c ∣ 2 ^ 64) :
  0 < 2 ^ 64 % c ∧ 2 ^ 64 % c < c
  := by
  constructor
  · apply Nat.pos_of_ne_zero
    intro hzero
    apply hdvd (Nat.dvd_of_mod_eq_zero hzero)
  · apply Nat.mod_lt _ hc

/-- The slot of ticket `2 ^ 64`, which is slot `0`: it belongs to the last ticket that is a
multiple of the capacity. -/
theorem Holds.wrapped (h : Holds c m r q) (hc : 0 < c) (hc' : c < 2 ^ 64)
    (hdvd : ¬ c ∣ 2 ^ 64) (hcount : r + q.length = 2 ^ 64) :
  (m.buffer 0).seq
    = if 2 ^ 64 % c ≤ q.length then (2 ^ 64 - 2 ^ 64 % c + 1) % 2 ^ 64 else c - 2 ^ 64 % c
  := by
  obtain ⟨hpos, hlt⟩ := wrap_mod_pos hc hdvd
  have hbound := h.bound
  have hslot : (2 ^ 64 - 2 ^ 64 % c) % c = 0 := Nat.sub_mod_eq_zero_of_mod_eq (Nat.mod_mod _ _).symm
  split_ifs with hle
  · have hseq := h.filled (2 ^ 64 - 2 ^ 64 % c) (by omega) (by omega)
    rw [hslot] at hseq
    apply hseq
  · have hseq := h.free (2 ^ 64 - 2 ^ 64 % c + c) (by omega) (by omega)
    rw [Nat.add_mod_right, hslot] at hseq
    rw [hseq]
    omega

/-- With `2 ^ 64` tickets dealt out, the next add is taken if and only if the wrapped ticket
meets the item of the ticket before it. -/
theorem Holds.addReady_wrapped (h : Holds c m r q) (hc : 0 < c) (hc' : c < 2 ^ 64)
    (hdvd : ¬ c ∣ 2 ^ 64) (hcount : r + q.length = 2 ^ 64) :
  m.AddReady .bits64 c ↔ 2 ^ 64 % c = 1 ∧ 0 < q.length
  := by
  have hseq := h.wrapped hc hc' hdvd hcount
  obtain ⟨hpos, hlt⟩ := wrap_mod_pos hc hdvd
  have hready : m.AddReady .bits64 c ↔ (m.buffer 0).seq % 2 ^ 64 = 0 := by
    rw [Mem.AddReady, SizeT.bits64_dif_eq_zero, h.tail, hcount, Nat.mod_self, Nat.zero_mod]
    rfl
  rw [hready, hseq]
  split_ifs with hle
  · omega
  · omega

/-- With `2 ^ 64` items removed, a remove from the empty queue is taken if and only if the
wrapped ticket meets a slot that awaits ticket `1`. -/
theorem Holds.removeReady_wrapped (h : Holds c m (2 ^ 64) []) (hc : 0 < c) (hc' : c < 2 ^ 64)
    (hdvd : ¬ c ∣ 2 ^ 64) :
  m.RemoveReady .bits64 c ↔ c - 2 ^ 64 % c = 1
  := by
  have hseq := h.wrapped hc hc' hdvd (Nat.add_zero _)
  obtain ⟨hpos, hlt⟩ := wrap_mod_pos hc hdvd
  have hready : m.RemoveReady .bits64 c ↔ (m.buffer 0).seq % 2 ^ 64 = 1 := by
    rw [Mem.RemoveReady, SizeT.bits64_dif_eq_zero, h.head, Nat.mod_self, Nat.zero_mod]
    rfl
  rw [hready, hseq, if_neg (by simpa using hpos.ne')]
  omega

/-- The slot of the last ticket before the wrap. -/
theorem last_slot (hc : 1 < c) (hone : 2 ^ 64 % c = 1) :
  (2 ^ 64 - 1) % c = 0
  := by
  apply Nat.sub_mod_eq_zero_of_mod_eq
  rw [hone, Nat.mod_eq_of_lt hc]

/-- The queue after the add of a wrapped ticket that met the item of the ticket before it:
that item, the last of `q`, has been overwritten. -/
structure Torn (c : ℕ) (m : Mem T) (r : ℕ) (q : List T) : Prop where
  head : m.head = r
  tail : m.tail = 1
  count : r + q.length = 2 ^ 64
  bound : q.length < c
  filled : ∀ k, r ≤ k → k + 1 < 2 ^ 64 → (m.buffer (k % c)).seq = k + 1
  data : ∀ k, r ≤ k → k + 1 < 2 ^ 64 → q[k - r]? = some (m.buffer (k % c)).data
  torn : (m.buffer 0).seq = 1
  next : (m.buffer 1).seq = 0

theorem Holds.torn (h : Holds c m r q) (hc' : c < 2 ^ 64) (hone : 2 ^ 64 % c = 1)
    (hcount : r + q.length = 2 ^ 64) (hpos : 0 < q.length) (hroom : q.length < c) (item : T) :
  Torn c (m.push .bits64 c item) r q
  := by
  have htail : m.tail = 0 := by
    rw [h.tail, hcount, Nat.mod_self]
  have hlast := last_slot (by omega) hone
  have other : ∀ k, r ≤ k → k + 1 < 2 ^ 64 → k % c ≠ m.tail % c := by
    intro k hk hk'
    rw [htail, Nat.zero_mod, ← hlast]
    apply (slot_ne (by omega) (by omega)).symm
  constructor
  · rw [Mem.push, Mem.storeSeq_head, Mem.storeData_head, h.head]
    apply Nat.mod_eq_of_lt
    omega
  · rw [Mem.push, Mem.storeSeq_tail, Mem.storeData_tail, htail]
    rfl
  · apply hcount
  · apply hroom
  · intro k hk hk'
    rw [Mem.push, Mem.storeSeq_seq, Mem.storeData_seq, if_neg (other k hk hk'),
      h.filled k hk (by omega), Nat.mod_eq_of_lt hk']
  · intro k hk hk'
    rw [Mem.push, Mem.storeSeq_data, Mem.storeData_data, if_neg (other k hk hk')]
    apply h.data k hk (by omega)
  · rw [Mem.push, Mem.storeSeq_seq, htail, Nat.zero_mod, if_pos rfl]
    rfl
  · have hfree := h.free (2 ^ 64) (by omega) (by omega)
    rw [hone, Nat.mod_self] at hfree
    rw [Mem.push, Mem.storeSeq_seq, Mem.storeData_seq, htail, Nat.zero_mod, if_neg one_ne_zero]
    apply hfree

/-- The queue takes no further add. -/
theorem Torn.not_addReady (h : Torn c m r q) (hc : 2 < c) :
  ¬ m.AddReady .bits64 c
  := by
  intro hready
  have hmod := SizeT.bits64_dif_eq_zero.mp hready
  rw [h.tail, Nat.mod_eq_of_lt (by omega), h.next] at hmod
  cases hmod

theorem Torn.removeReady {out next : T} (h : Torn c m r (out :: next :: q)) :
  m.RemoveReady .bits64 c ∧ (m.buffer (m.head % c)).data = out
  := by
  have hcount := h.count
  have hlen : (out :: next :: q).length = q.length + 2 := rfl
  constructor
  · apply SizeT.bits64_dif_eq_zero.mpr
    rw [h.head, h.filled r le_rfl (by omega), SizeT.bits64_wrap (by omega)]
  · have hdata := h.data r le_rfl (by omega)
    rw [Nat.sub_self] at hdata
    rw [h.head]
    exact (Option.some.inj hdata).symm

/-- The overwritten item cannot be removed. -/
theorem Torn.not_removeReady {last : T} (h : Torn c m r [last]) (hone : 2 ^ 64 % c = 1) :
  ¬ m.RemoveReady .bits64 c
  := by
  intro hready
  have hmod := SizeT.bits64_dif_eq_zero.mp hready
  have hlen : [last].length = 1 := rfl
  have hbound := h.bound
  have hcount := h.count
  have hr : r = 2 ^ 64 - 1 := by omega
  rw [h.head, hr, last_slot (by omega) hone, h.torn] at hmod
  cases hmod

theorem Torn.pop {out next : T} (h : Torn c m r (out :: next :: q)) (hone : 2 ^ 64 % c = 1) :
  Torn c (m.pop .bits64 c) (r + 1) (next :: q)
  := by
  have hcount := h.count
  have hbound := h.bound
  have hlen : (out :: next :: q).length = q.length + 2 := rfl
  have hlen' : (next :: q).length = q.length + 1 := rfl
  have hlast := last_slot (by omega) hone
  have other : ∀ k, r < k → k < r + c → k % c ≠ m.head % c := by
    intro k hk hk'
    rw [h.head]
    apply slot_ne hk hk'
  constructor
  · rw [Mem.pop, Mem.storeSeq_head, h.head]
    apply SizeT.bits64_wrap
    omega
  · apply h.tail
  · omega
  · omega
  · intro k hk hk'
    rw [Mem.pop, Mem.storeSeq_seq, if_neg (other k hk (by omega))]
    apply h.filled k (by omega) hk'
  · intro k hk hk'
    have hdata := h.data k (by omega) hk'
    obtain ⟨j, rfl⟩ := Nat.exists_eq_add_of_le hk
    rw [show r + 1 + j - r = j + 1 by omega] at hdata
    rw [Mem.pop, Mem.storeSeq_data, Nat.add_sub_cancel_left]
    exact hdata
  · have hne := other (2 ^ 64 - 1) (by omega) (by omega)
    rw [hlast] at hne
    rw [Mem.pop, Mem.storeSeq_seq, if_neg hne]
    apply h.torn
  · have hne := other (2 ^ 64) (by omega) (by omega)
    rw [hone] at hne
    rw [Mem.pop, Mem.storeSeq_seq, if_neg hne]
    apply h.next

end NonBlockingQueue

namespace QueueCall

variable {T : Type*}

/-! ### When the queues are alike -/

/-- The two queues of capacity `c` complete the same calls of one thread, with the same
answers. -/
def Alike [Inhabited T] (c : ℕ) (calls : List (QueueCall T)) : Prop :=
  (NonBlockingQueue.queue Unit .bits64 c).Traces NonBlockingQueue.answer
      ⟨NonBlockingQueue.Mem.new c, fun _ => ⟨calls, .idle, 0⟩⟩
    = (BlockingQueue.queue Unit c).Traces BlockingQueue.answer
      ⟨BlockingQueue.Mem.new, fun _ => ⟨calls, .idle⟩⟩

/-- Starting with `n` items, an add is called while the queue is full, all calls before it
having completed. -/
def Overfills (c : ℕ) : ℕ → List (QueueCall T) → Prop
  | _, [] => False
  | n, .add _ :: calls => n < c → Overfills c (n + 1) calls
  | n, .remove :: calls => 0 < n ∧ Overfills c (n - 1) calls

/-- An add with ticket `2 ^ 64` that finds `n` items, followed by `calls`, does no harm. -/
def HarmlessWrap (c n : ℕ) (calls : List (QueueCall T)) : Prop :=
  if 2 ^ 64 % c = 1 then
    0 < n ∧ n < c ∧
      ((∃ j < n, calls = List.replicate j .remove) ∨
        n + 1 = c ∧ ∃ item rest, calls = .add item :: rest)
  else n = c

/-- Starting with `n` items after `r` removes, the calls that complete do not use a wrapped
ticket, or do so without harm. -/
def OutlivesWrap (c : ℕ) : ℕ → ℕ → List (QueueCall T) → Prop
  | _, _, [] => True
  | r, n, .add _ :: calls =>
      if r + n < 2 ^ 64 then n < c → OutlivesWrap c r (n + 1) calls
      else HarmlessWrap c n calls
  | r, n, .remove :: calls =>
      if n = 0 then r = 2 ^ 64 → c - 2 ^ 64 % c ≠ 1
      else OutlivesWrap c (r + 1) (n - 1) calls

open NonBlockingQueue (Mem Holds Torn)

variable {c r : ℕ} {m : Mem T} {q : List T}

/-- Two lists have the same prefixes if and only if they are equal. -/
theorem prefixes_eq_iff {as bs : List (Option T)} :
  {l | l <+: as} = {l | l <+: bs} ↔ as = bs
  := by
  constructor
  · intro h
    have has : as ∈ {l | l <+: bs} := by
      rw [← h]
      apply List.prefix_rfl
    have hbs : bs ∈ {l | l <+: as} := by
      rw [h]
      apply List.prefix_rfl
    apply has.eq_of_length_le hbs.length_le
  · rintro rfl
    rfl

theorem torn_answers (hc : 2 < c) (hone : 2 ^ 64 % c = 1) (item : T)
    {calls : List (QueueCall T)} :
  ∀ {m : Mem T} {r : ℕ} {q : List T}, Torn c m r q → 0 < q.length →
    (NonBlockingQueue.answers .bits64 c m calls = answers c (q ++ [item]) calls
      ↔ (∃ j < q.length, calls = List.replicate j .remove) ∨
        q.length + 1 = c ∧ ∃ item rest, calls = .add item :: rest)
  := by
  induction calls with
  | nil =>
      intro m r q h hpos
      apply iff_of_true rfl
      left
      use 0, hpos
      rfl
  | cons call calls ih =>
      intro m r q h hpos
      have hbound := h.bound
      cases call with
      | add item' =>
          have hlen : (q ++ [item]).length = q.length + 1 := List.length_append
          have hnot : ∀ j, QueueCall.add item' :: calls ≠ List.replicate j .remove := by
            rintro (_ | j) heq
            · cases heq
            · cases heq
          rw [NonBlockingQueue.answers, if_neg (h.not_addReady hc), answers, hlen]
          constructor
          · intro heq
            right
            constructor
            · by_contra hne
              rw [if_pos (by omega)] at heq
              cases heq
            · exact ⟨item', calls, rfl⟩
          · rintro (⟨j, -, heq⟩ | ⟨hfull, -⟩)
            · cases hnot j heq
            · rw [if_neg (by omega)]
      | remove =>
          rcases q with _ | ⟨out, _ | ⟨next, q⟩⟩
          · cases hpos
          · rw [NonBlockingQueue.answers, if_neg (h.not_removeReady hone)]
            apply iff_of_false
            · rintro ⟨⟩
            · rintro (⟨_ | j, hj, heq⟩ | ⟨-, item', rest, heq⟩)
              · cases heq
              · cases Nat.not_succ_le_zero j (Nat.le_of_lt_succ hj)
              · cases heq
          · obtain ⟨hready, hdata⟩ := h.removeReady
            rw [NonBlockingQueue.answers, if_pos hready, hdata, List.cons_append, answers,
              List.cons.injEq, ih (h.pop hone) (Nat.succ_pos _)]
            constructor
            · rintro ⟨-, ⟨j, hj, rfl⟩ | ⟨hfull, -⟩⟩
              · left
                exact ⟨j + 1, Nat.succ_lt_succ hj, rfl⟩
              · simp only [List.length_cons] at hbound hfull
                omega
            · rintro (⟨_ | j, hj, heq⟩ | ⟨-, item', rest, heq⟩)
              · cases heq
              · use rfl
                left
                exact ⟨j, Nat.lt_of_succ_lt_succ hj, (List.cons.inj heq).2⟩
              · cases heq

theorem two_lt_of_not_dvd (hc : 0 < c) (hdvd : ¬ c ∣ 2 ^ 64) :
  2 < c
  := by
  by_contra hle
  apply hdvd
  obtain rfl | rfl : c = 1 ∨ c = 2 := by omega
  · apply one_dvd
  · apply dvd_pow_self 2
    decide

/-- The add with ticket `2 ^ 64`. -/
theorem wrapped_answers (h : Holds c m r q) (hc : 0 < c) (hc' : c < 2 ^ 64)
    (hdvd : ¬ c ∣ 2 ^ 64) (hcount : r + q.length = 2 ^ 64) (item : T)
    (calls : List (QueueCall T)) :
  NonBlockingQueue.answers .bits64 c m (.add item :: calls) = answers c q (.add item :: calls)
    ↔ HarmlessWrap c q.length calls
  := by
  have hbound := h.bound
  have hready := h.addReady_wrapped hc hc' hdvd hcount
  rw [NonBlockingQueue.answers, answers, HarmlessWrap]
  by_cases hone : 2 ^ 64 % c = 1
  · rw [if_pos hone]
    rcases Nat.eq_zero_or_pos q.length with hzero | hpos
    · have hnot : ¬ m.AddReady .bits64 c := by
        rw [hready, hzero]
        rintro ⟨-, ⟨⟩⟩
      rw [if_neg hnot, if_pos (by omega)]
      apply iff_of_false
      · rintro ⟨⟩
      · omega
    · rw [if_pos (hready.mpr ⟨hone, hpos⟩)]
      by_cases hroom : q.length < c
      · rw [if_pos hroom, List.cons.injEq, torn_answers (two_lt_of_not_dvd hc hdvd) hone item
          (h.torn hc' hone hcount hpos hroom item) hpos]
        simp only [hpos, hroom, true_and]
      · rw [if_neg hroom]
        apply iff_of_false
        · rintro ⟨⟩
        · tauto
  · have hnot : ¬ m.AddReady .bits64 c := by
      rw [hready]
      tauto
    rw [if_neg hone, if_neg hnot]
    by_cases hroom : q.length < c
    · rw [if_pos hroom]
      apply iff_of_false
      · rintro ⟨⟩
      · apply hroom.ne
    · rw [if_neg hroom]
      apply iff_of_true rfl
      omega

/-- Two slots or more. -/
theorem answers_iff (hc : 1 < c) (hc' : c < 2 ^ 64) {calls : List (QueueCall T)} :
  ∀ {m : Mem T} {r : ℕ} {q : List T}, Holds c m r q →
    (¬ c ∣ 2 ^ 64 → r + q.length ≤ 2 ^ 64) →
    (NonBlockingQueue.answers .bits64 c m calls = answers c q calls
      ↔ (¬ c ∣ 2 ^ 64 → OutlivesWrap c r q.length calls))
  := by
  induction calls with
  | nil =>
      intro m r q _ _
      apply iff_of_true rfl
      intro _
      trivial
  | cons call calls ih =>
      intro m r q h hcount
      have hbound := h.bound
      cases call with
      | add item =>
          by_cases hslot : c ∣ 2 ^ 64 ∨ r + q.length < 2 ^ 64
          · have hlen : (q ++ [item]).length = q.length + 1 := List.length_append
            rw [OutlivesWrap, NonBlockingQueue.answers, answers]
            by_cases hroom : q.length < c
            · rw [if_pos (h.addReady hslot hroom), if_pos hroom, List.cons.injEq,
                ih (h.push hslot hroom item) (by omega), hlen]
              simp only [true_and]
              apply imp_congr_right
              intro hdvd
              rw [if_pos (hslot.resolve_left hdvd)]
              tauto
            · have hfull : q.length = c := by omega
              rw [if_neg (h.not_addReady hslot hc hc' hfull), if_neg hroom]
              apply iff_of_true rfl
              intro hdvd
              rw [if_pos (hslot.resolve_left hdvd)]
              tauto
          · rw [not_or] at hslot
            obtain ⟨hdvd, hge⟩ := hslot
            rw [wrapped_answers h (by omega) hc' hdvd (by have := hcount hdvd; omega), OutlivesWrap,
              if_neg hge]
            tauto
      | remove =>
          cases q with
          | nil =>
              rw [OutlivesWrap, NonBlockingQueue.answers, answers, if_pos List.length_nil]
              by_cases hslot : c ∣ 2 ^ 64 ∨ r < 2 ^ 64
              · rw [if_neg (h.not_removeReady (by omega) hslot)]
                apply iff_of_true rfl
                rintro hdvd rfl
                exact absurd (hslot.resolve_left hdvd) (lt_irrefl _)
              · rw [not_or] at hslot
                obtain ⟨hdvd, hge⟩ := hslot
                obtain rfl : r = 2 ^ 64 := by
                  have hle := hcount hdvd
                  simp only [List.length_nil] at hle
                  omega
                have hready := h.removeReady_wrapped (by omega) hc' hdvd
                by_cases hone : c - 2 ^ 64 % c = 1
                · rw [if_pos (hready.mpr hone)]
                  apply iff_of_false
                  · rintro ⟨⟩
                  · tauto
                · rw [if_neg (hready.not.mpr hone)]
                  tauto
          | cons out q =>
              have hlen : (out :: q).length = q.length + 1 := rfl
              have hslot : c ∣ 2 ^ 64 ∨ r < 2 ^ 64 := by
                rw [or_iff_not_imp_left]
                intro hdvd
                have hle := hcount hdvd
                omega
              obtain ⟨hready, hdata⟩ := h.removeReady hslot
              rw [OutlivesWrap, NonBlockingQueue.answers, answers, if_pos hready, hdata,
                List.cons.injEq, ih (h.pop hslot) (by omega), if_neg (by omega)]
              simp only [true_and]
              rfl

/-- A single slot. -/
theorem answers_one_iff {calls : List (QueueCall T)} :
  ∀ {m : Mem T} {r : ℕ} {q : List T}, Holds 1 m r q →
    (NonBlockingQueue.answers .bits64 1 m calls = answers 1 q calls
      ↔ ¬ Overfills 1 q.length calls)
  := by
  induction calls with
  | nil =>
      intro m r q _
      exact iff_of_true rfl id
  | cons call calls ih =>
      intro m r q h
      have hbound := h.bound
      have hslot : ∀ k, 1 ∣ 2 ^ 64 ∨ k < 2 ^ 64 := fun _ => .inl (one_dvd _)
      cases call with
      | add item =>
          rw [Overfills, NonBlockingQueue.answers, answers]
          by_cases hroom : q.length < 1
          · have hlen : (q ++ [item]).length = q.length + 1 := List.length_append
            rw [if_pos (h.addReady (hslot _) hroom), if_pos hroom, List.cons.injEq,
              ih (h.push (hslot _) hroom item), hlen]
            tauto
          · rw [if_pos (h.addReady_one (by omega)), if_neg hroom]
            apply iff_of_false
            · rintro ⟨⟩
            · tauto
      | remove =>
          rw [Overfills, NonBlockingQueue.answers]
          cases q with
          | nil =>
              rw [answers, if_neg (h.not_removeReady Nat.one_pos (hslot _))]
              apply iff_of_true rfl
              rintro ⟨⟨⟩, -⟩
          | cons out q =>
              obtain ⟨hready, hdata⟩ := h.removeReady (hslot _)
              rw [answers, if_pos hready, hdata, List.cons.injEq, ih (h.pop (hslot _))]
              simp

variable [Inhabited T]

/-- One thread cannot tell the queues apart if and only if the queue with a single slot is
never given an add while it is full, and the wrap of the counters, which matters unless
the capacity is a power of two, does no harm. -/
theorem alike_iff (hc : 0 < c) (hc' : c < 2 ^ 64) (calls : List (QueueCall T)) :
  Alike c calls
    ↔ (c = 1 → ¬ Overfills c 0 calls) ∧ (¬ c ∣ 2 ^ 64 → OutlivesWrap c 0 0 calls)
  := by
  rw [Alike, NonBlockingQueue.traces_eq, BlockingQueue.traces_eq hc hc', prefixes_eq_iff]
  have hnew : Holds c (Mem.new c : Mem T) 0 [] := Holds.new hc'.le
  rcases eq_or_ne c 1 with rfl | hne
  · rw [answers_one_iff hnew]
    simp
  · rw [answers_iff (by omega) hc' hnew (by simp)]
    simp [hne]

/-- With two slots the queues are alike until a remove has to wait. -/
theorem alike_two :
  Alike 2 [QueueCall.add 7, .add 8, .remove, .remove, .remove, .add 9]
  := by
  apply (alike_iff Nat.two_pos (by omega) _).mpr
  constructor
  · omega
  · intro hdvd
    cases hdvd (dvd_pow_self 2 (by omega))

/-- With a single slot the non-blocking queue takes a second add, for which the blocking
queue waits. -/
theorem second_add_taken :
  [none, none] ∈ (NonBlockingQueue.queue Unit .bits64 1).Traces NonBlockingQueue.answer
      ⟨NonBlockingQueue.Mem.new 1, fun _ => ⟨[QueueCall.add 7, .add 8], .idle, 0⟩⟩ ∧
    [none, none] ∉ (BlockingQueue.queue Unit 1).Traces BlockingQueue.answer
      ⟨BlockingQueue.Mem.new, fun _ => ⟨[QueueCall.add 7, .add 8], .idle⟩⟩ ∧
    ¬ Alike 1 [QueueCall.add 7, .add 8]
  := by
  have htaken : [none, none] ∈ (NonBlockingQueue.queue Unit .bits64 1).Traces
      NonBlockingQueue.answer
      ⟨NonBlockingQueue.Mem.new 1, fun _ => ⟨[QueueCall.add 7, .add 8], .idle, 0⟩⟩ := by
    rw [NonBlockingQueue.traces_eq]
    apply List.prefix_rfl
  have hwaits : [none, none] ∉ (BlockingQueue.queue Unit 1).Traces BlockingQueue.answer
      ⟨BlockingQueue.Mem.new, fun _ => ⟨[QueueCall.add 7, .add 8], .idle⟩⟩ := by
    rw [BlockingQueue.traces_eq Nat.one_pos (by omega)]
    intro hprefix
    have hle := hprefix.length_le
    revert hle
    decide
  refine ⟨htaken, hwaits, ?_⟩
  intro halike
  apply hwaits
  rw [← halike]
  apply htaken

end QueueCall

import Mathlib.Data.List.Flatten
import Mathlib.Tactic.SplitIfs
import ParallelArch.Queue.Calls

/-!
# The patterned workload

`generate_ops_patterned` repeats a lap of adds and removes until it has produced as many
operations as asked for, and `check_bits` checks that no operation of a vector removes from an empty
queue.  Both are read against `level`, the number of items in the queue.
-/

namespace Benchmark

/-! ### The generator -/

/-- The phases of a lap: how many operations, and which, `1` an add and `0` a remove. -/
def pattern : List (ℕ × ℕ) := [(1024, 1), (512, 0), (1024, 1), (1536, 0)]

/-- `for (size_t i = 0; i < cnt && v.size() < total_ops; ++i) v.push_back(op);` -/
def pushOps (totalOps op : ℕ) : ℕ → List ℕ → List ℕ
  | 0, v => v
  | cnt + 1, v => if v.length < totalOps then pushOps totalOps op cnt (v ++ [op]) else v

/-- The loop over the phases. -/
def pushPhases (totalOps : ℕ) : List (ℕ × ℕ) → List ℕ → List ℕ
  | [], v => v
  | (cnt, op) :: phases, v =>
      if totalOps ≤ (pushOps totalOps op cnt v).length then pushOps totalOps op cnt v
      else pushPhases totalOps phases (pushOps totalOps op cnt v)

/-- The loop over the laps. -/
def pushLaps (totalOps : ℕ) : ℕ → List ℕ → Option (List ℕ)
  | 0, _ => none
  | fuel + 1, v =>
      if v.length < totalOps then pushLaps totalOps fuel (pushPhases totalOps pattern v)
      else some v

/-- `generate_ops_patterned`. -/
def generateOpsPatterned (totalOps : ℕ) : Option (List ℕ) := pushLaps totalOps (totalOps + 1) []

/-! ### The checker -/

/-- The loop of `check_bits` from a balance on. -/
def checkFrom : ℤ → List ℕ → Bool
  | _, [] => true
  | balance, b :: bits =>
      if balance = 0 ∧ b = 0 then false
      else checkFrom (Int.bmod (if b = 1 then balance + 1 else balance - 1) (2 ^ 32)) bits

/-- `check_bits`. -/
def checkBits (bits : List ℕ) : Bool := checkFrom 0 bits

/-! ### The replay -/

variable {T : Type*}

/-- The calls the operations ask for, the add at the place `i` of `item i`. -/
def calls (item : ℕ → T) (bits : List ℕ) : List (QueueCall T) :=
  bits.mapIdx fun i b => if b = 1 then .add (item i) else .remove

/-- What an unbounded queue that holds `q` holds after the calls, unless one of them removes from
the empty queue. -/
def replay : List T → List (QueueCall T) → Option (List T)
  | q, [] => some q
  | q, .add item :: calls => replay (q ++ [item]) calls
  | [], .remove :: _ => none
  | _ :: q, .remove :: calls => replay q calls

/-- How many items a queue of `n` items holds after the operations, unless one of them removes
from the empty queue. -/
def level : ℕ → List ℕ → Option ℕ
  | n, [] => some n
  | n, b :: bits =>
      if b = 1 then level (n + 1) bits
      else if n = 0 then none
      else level (n - 1) bits

theorem replay_level {bits : List ℕ} :
  ∀ (item : ℕ → T) (q : List T),
    (replay q (calls item bits)).map List.length = level q.length bits
  := by
  induction bits with
  | nil =>
      intro item q
      rfl
  | cons b bits ih =>
      intro item q
      rw [calls, List.mapIdx_cons, level]
      by_cases hb : b = 1
      · rw [if_pos hb, if_pos hb, replay]
        have hrest := ih (fun i => item (i + 1)) (q ++ [item 0])
        rw [List.length_append, List.length_singleton] at hrest
        apply hrest
      · rw [if_neg hb, if_neg hb]
        cases q with
        | nil => rfl
        | cons out q =>
            rw [replay, List.length_cons, if_neg (Nat.succ_ne_zero _), Nat.add_sub_cancel]
            apply ih fun i => item (i + 1)

/-- The balance of `check_bits` is the number of items. -/
theorem checkFrom_level {bits : List ℕ} :
  ∀ {n : ℕ}, (∀ b ∈ bits, b = 0 ∨ b = 1) → n + bits.length < 2 ^ 31 →
    checkFrom n bits = (level n bits).isSome
  := by
  induction bits with
  | nil =>
      intro n _ _
      rfl
  | cons b bits ih =>
      intro n hbits hlength
      obtain ⟨hb, hrest⟩ := List.forall_mem_cons.mp hbits
      rw [List.length_cons] at hlength
      rw [checkFrom, level]
      rcases hb with rfl | rfl
      · cases n with
        | zero => rfl
        | succ n =>
            have hpred : Int.bmod ((n + 1 : ℕ) - 1) (2 ^ 32) = n := by
              rw [Nat.cast_succ, Int.add_sub_cancel]
              apply Int.bmod_eq_of_le
              · push_cast
                omega
              · push_cast
                omega
            rw [if_neg (by omega), if_neg Nat.zero_ne_one, if_neg Nat.zero_ne_one,
              if_neg (Nat.succ_ne_zero n), hpred, ih hrest (by omega), Nat.add_sub_cancel]
      · have hsucc : Int.bmod ((n : ℤ) + 1) (2 ^ 32) = (n + 1 : ℕ) := by
          rw [Nat.cast_succ]
          apply Int.bmod_eq_of_le
          · push_cast
            omega
          · push_cast
            omega
        rw [if_neg (by omega), if_pos rfl, if_pos rfl, hsucc, ih hrest (by omega)]

/-! ### The laps -/

theorem level_append {n : ℕ} {v w : List ℕ} :
  level n (v ++ w) = (level n v).bind fun k => level k w
  := by
  induction v generalizing n with
  | nil => rfl
  | cons b v ih =>
      rw [List.cons_append, level, level]
      split_ifs
      · apply ih
      · rfl
      · apply ih

theorem level_adds (n k : ℕ) :
  level n (List.replicate k 1) = some (n + k)
  := by
  induction k generalizing n with
  | zero => rfl
  | succ k ih =>
      rw [List.replicate_succ, level, if_pos rfl, ih, Nat.add_right_comm, Nat.add_assoc]

theorem level_removes (n k : ℕ) :
  level (n + k) (List.replicate k 0) = some n
  := by
  induction k with
  | zero => rfl
  | succ k ih =>
      rw [List.replicate_succ, level, if_neg Nat.zero_ne_one, ← Nat.add_assoc,
        if_neg (Nat.succ_ne_zero _), Nat.add_sub_cancel, ih]

/-- The operations of the phases. -/
def phaseOps (phases : List (ℕ × ℕ)) : List ℕ := phases.flatMap fun p => List.replicate p.1 p.2

theorem length_lap :
  (phaseOps pattern).length = 4096
  := by
  simp only [phaseOps, pattern, List.flatMap_cons, List.flatMap_nil, List.length_append,
    List.length_replicate, List.length_nil]

/-- A lap ends with the number of items it starts with. -/
theorem level_lap (n : ℕ) :
  level n (phaseOps pattern) = some n
  := by
  have hfirst : n + 1024 = n + 512 + 512 := by omega
  have hsecond : n + 512 + 1024 = n + 1536 := by omega
  have hlap : phaseOps pattern = List.replicate 1024 1 ++ (List.replicate 512 0 ++
      (List.replicate 1024 1 ++ List.replicate 1536 0)) := by
    simp only [phaseOps, pattern, List.flatMap_cons, List.flatMap_nil, List.append_nil]
  rw [hlap, level_append, level_adds, Option.bind_some, hfirst, level_append, level_removes,
    Option.bind_some, level_append, level_adds, Option.bind_some, hsecond, level_removes]

theorem mem_lap {b : ℕ} (hb : b ∈ phaseOps pattern) :
  b = 0 ∨ b = 1
  := by
  rw [phaseOps, List.mem_flatMap] at hb
  obtain ⟨p, hp, hb⟩ := hb
  obtain rfl := List.eq_of_mem_replicate hb
  simp only [pattern, List.mem_cons, List.not_mem_nil, or_false] at hp
  rcases hp with rfl | rfl | rfl | rfl
  · right
    rfl
  · left
    rfl
  · right
    rfl
  · left
    rfl

theorem pushOps_eq (totalOps op : ℕ) {cnt : ℕ} :
  ∀ v : List ℕ,
    pushOps totalOps op cnt v = v ++ (List.replicate cnt op).take (totalOps - v.length)
  := by
  induction cnt with
  | zero =>
      intro v
      rw [pushOps, List.replicate_zero, List.take_nil, List.append_nil]
  | succ cnt ih =>
      intro v
      rw [pushOps]
      by_cases hv : v.length < totalOps
      · have hleft : totalOps - v.length = totalOps - (v ++ [op]).length + 1 := by
          rw [List.length_append, List.length_singleton]
          omega
        rw [if_pos hv, ih, hleft, List.replicate_succ, List.take_succ_cons, List.append_assoc,
          List.singleton_append]
      · rw [if_neg hv, Nat.sub_eq_zero_of_le (Nat.le_of_not_lt hv), List.take_zero, List.append_nil]

/-- The loop over the phases pushes their operations until the vector is full. -/
theorem pushPhases_eq (totalOps : ℕ) {phases : List (ℕ × ℕ)} :
  ∀ v : List ℕ, pushPhases totalOps phases v = v ++ (phaseOps phases).take (totalOps - v.length)
  := by
  induction phases with
  | nil =>
      intro v
      rw [pushPhases, phaseOps, List.flatMap_nil, List.take_nil, List.append_nil]
  | cons p phases ih =>
      obtain ⟨cnt, op⟩ := p
      intro v
      have hlength : (pushOps totalOps op cnt v).length
          = v.length + min (totalOps - v.length) cnt := by
        rw [pushOps_eq, List.length_append, List.length_take, List.length_replicate]
      have hops : phaseOps ((cnt, op) :: phases) = List.replicate cnt op ++ phaseOps phases := rfl
      rw [pushPhases, hops, List.take_append, List.length_replicate, ← List.append_assoc,
        ← pushOps_eq]
      by_cases hfull : totalOps ≤ (pushOps totalOps op cnt v).length
      · have hzero : totalOps - v.length - cnt = 0 := by omega
        rw [if_pos hfull, hzero, List.take_zero, List.append_nil]
      · have hleft : totalOps - v.length - cnt = totalOps - (pushOps totalOps op cnt v).length := by
          omega
        rw [if_neg hfull, ih, hleft]

/-- The vector after some laps, the last of which may have been cut off. -/
structure Lapped (totalOps : ℕ) (v : List ℕ) : Prop where
  bits : ∀ b ∈ v, b = 0 ∨ b = 1
  length : v.length ≤ totalOps
  fed : (level 0 v).isSome
  lap : v.length < totalOps → level 0 v = some 0

theorem Lapped.next {totalOps : ℕ} {v : List ℕ} (h : Lapped totalOps v)
    (hv : v.length < totalOps) :
  Lapped totalOps (pushPhases totalOps pattern v) ∧
    v.length < (pushPhases totalOps pattern v).length
  := by
  have hlength : (pushPhases totalOps pattern v).length
      = v.length + min (totalOps - v.length) 4096 := by
    rw [pushPhases_eq, List.length_append, List.length_take, length_lap]
  have hlevel : ∀ w, level 0 (v ++ w) = level 0 w := by
    intro w
    rw [level_append, h.lap hv, Option.bind_some]
  constructor
  · constructor
    · intro b hb
      rw [pushPhases_eq, List.mem_append] at hb
      rcases hb with hb | hb
      · apply h.bits b hb
      · apply mem_lap (List.mem_of_mem_take hb)
    · omega
    · have hlap := level_lap 0
      rw [← List.take_append_drop (totalOps - v.length) (phaseOps pattern), level_append,
        Option.bind_eq_some_iff] at hlap
      obtain ⟨k, hk, -⟩ := hlap
      rw [pushPhases_eq, hlevel, hk]
      rfl
    · intro hshort
      have hwhole : (phaseOps pattern).length ≤ totalOps - v.length := by
        rw [length_lap]
        omega
      rw [pushPhases_eq, hlevel, List.take_of_length_le hwhole, level_lap]
  · omega

/-- The laps end with a full vector. -/
theorem pushLaps_eq {totalOps fuel : ℕ} :
  ∀ {v : List ℕ}, Lapped totalOps v → totalOps - v.length < fuel →
    ∃ w, pushLaps totalOps fuel v = some w ∧ w.length = totalOps ∧ Lapped totalOps w
  := by
  induction fuel with
  | zero =>
      intro v _ hfuel
      cases Nat.not_lt_zero _ hfuel
  | succ fuel ih =>
      intro v h hfuel
      have hlength := h.length
      rw [pushLaps]
      by_cases hv : v.length < totalOps
      · obtain ⟨hnext, hlonger⟩ := h.next hv
        rw [if_pos hv]
        apply ih hnext
        omega
      · rw [if_neg hv]
        use v, rfl
        constructor
        · omega
        · apply h

/-- `check_bits` accepts a vector if and only if no operation removes from the empty queue. -/
theorem checkBits_iff (item : ℕ → T) {bits : List ℕ} (hbits : ∀ b ∈ bits, b = 0 ∨ b = 1)
    (hlength : bits.length < 2 ^ 31) :
  checkBits bits = true ↔ (replay [] (calls item bits)).isSome
  := by
  have hcheck := checkFrom_level (n := 0) hbits (by omega)
  rw [checkBits, ← Option.isSome_map, replay_level item []]
  rw [Nat.cast_zero] at hcheck
  rw [hcheck]
  rfl

/-- The patterned workload is as long as asked for and passes the check, and the check accepts the
vectors that never remove from the empty queue. -/
theorem pattern_checked :
  (∀ totalOps < 2 ^ 31, ∃ v, generateOpsPatterned totalOps = some v ∧ v.length = totalOps ∧
    checkBits v = true) ∧
  ∀ (T : Type) (item : ℕ → T) (bits : List ℕ), (∀ b ∈ bits, b = 0 ∨ b = 1) →
    bits.length < 2 ^ 31 → (checkBits bits = true ↔ (replay [] (calls item bits)).isSome)
  := by
  constructor
  · intro totalOps htotal
    have hstart : Lapped totalOps [] := by
      constructor
      · intro b hb
        cases hb
      · apply Nat.zero_le
      · rfl
      · intro _
        rfl
    obtain ⟨v, hv, hlength, h⟩ := pushLaps_eq hstart (Nat.lt_succ_of_le (Nat.sub_le _ _))
    use v, hv, hlength
    have hcheck := checkFrom_level (n := 0) h.bits (by omega)
    rw [checkBits]
    apply hcheck.trans h.fed
  · intro T item bits
    apply checkBits_iff

/-- A workload cut off in its second lap, and a vector that removes once too often. -/
theorem pattern_checked_short :
  (∃ v, generateOpsPatterned 5000 = some v ∧ v.length = 5000 ∧ checkBits v = true) ∧
    (checkBits [1, 0, 0] = true ↔ (replay [] (calls (fun i => i) [1, 0, 0])).isSome)
  := by
  constructor
  · apply pattern_checked.1 5000 (by decide)
  · apply pattern_checked.2 ℕ (fun i => i) [1, 0, 0] (by decide) (by decide)

end Benchmark

import ParallelArch.Containers.PriorityQueue
import ParallelArch.Sieve.Checked

/-!
# The report of one thread

`find_primes_single_thread` scans the flags it has crossed out and reports the number of primes,
their sum and the ten largest of them.  Whatever flags are set, the report is on the numbers
that have one (`report_flagged`).  With the primes that `init_prime` finds up to `L` these are
the primes up to the square of `L` (`report_primes`).
-/

namespace Sieve

variable {W : ℕ}

/-! ### The scan -/

/-- A `uint64_t`. -/
def u64 (n : ℕ) : ℕ := n % 2 ^ 64

/-- What the scan has found: `prime_count`, `prime_sum` and `top_primes`. -/
structure Tally where
  count : ℤ
  sum : ℕ
  top : PriorityQueue ℕ

/-- The tally with the prime `i`. -/
def Tally.add (t : Tally) (i : ℕ) : Tally where
  count := s32 (t.count + 1)
  sum := u64 (t.sum + i)
  top := t.top.pushTop 10 i

/-- The scan of the flags from `i` on. -/
def scan (bound : ℕ) (m : Flags W) : ℕ → ℕ → Tally → Option Tally
  | 0, _, _ => none
  | fuel + 1, i, t =>
      if i ≤ bound then scan bound m fuel (u32 (i + 1)) (if m.flag i then t.add i else t)
      else some t

/-- What is written to the file. -/
structure Report where
  count : ℤ
  sum : ℕ
  top : List ℕ

/-- `find_primes_single_thread`. -/
def findPrimesSingleThread (W bound : ℕ) (primes : List ℕ) : Option Report :=
  (singleThread W bound primes).bind fun m =>
    (scan bound m (bound + 2) 2 { count := 0, sum := 0, top := .empty }).map fun t =>
      { count := t.count, sum := t.sum, top := t.top.drain }

/-- What both functions write about the flags. -/
def report (bound : ℕ) (m : Flags W) : Option Report :=
  (scan bound m (bound + 2) 2 { count := 0, sum := 0, top := .empty }).map fun t =>
    { count := t.count, sum := t.sum, top := t.top.drain }

theorem findPrimesSingleThread_report (W bound : ℕ) (primes : List ℕ) :
  findPrimesSingleThread W bound primes = (singleThread W bound primes).bind (report bound)
  := rfl

/-! ### Numbers below a bound -/

theorem length_filter_range_le (p : ℕ → Bool) (n : ℕ) :
  ((List.range n).filter p).length ≤ n
  := by
  apply (List.length_filter_le _ _).trans
  rw [List.length_range]

theorem sum_filter_range_le (p : ℕ → Bool) (n : ℕ) :
  ((List.range n).filter p).sum ≤ n * n
  := by
  have hle : ((List.range n).filter p).sum ≤ ((List.range n).filter p).length * n := by
    apply List.sum_le_card_nsmul
    intro k hk
    apply (List.mem_range.mp (List.mem_filter.mp hk).1).le
  apply hle.trans
  apply Nat.mul_le_mul_right n (length_filter_range_le p n)

/-- The primes below `n`, in ascending order. -/
def primesBelow (n : ℕ) : List ℕ := (List.range n).filter Nat.Prime

theorem mem_primesBelow {n p : ℕ} :
  p ∈ primesBelow n ↔ p.Prime ∧ p < n
  := by
  rw [primesBelow, List.mem_filter, List.mem_range, decide_eq_true_eq, and_comm]

theorem primesBelow_ascending (n : ℕ) :
  (primesBelow n).Pairwise (· < ·)
  := List.pairwise_lt_range.filter _

/-- At most every other number is prime. -/
theorem length_primesBelow_le (n : ℕ) :
  (primesBelow n).length ≤ n / 2
  := by
  induction n with
  | zero => simp [primesBelow]
  | succ n ih =>
      rw [primesBelow, range_succ_filter]
      by_cases hn : n.Prime
      · rw [if_pos hn, List.length_append, List.length_singleton]
        rcases hn.eq_two_or_odd with rfl | hodd
        · decide
        · rw [primesBelow] at ih
          omega
      · rw [if_neg hn, List.append_nil]
        rw [primesBelow] at ih
        omega

/-- The numbers from `2` to below `n` with a flag. -/
def flaggedBelow (m : Flags W) (n : ℕ) : List ℕ :=
  (List.range n).filter fun k => 2 ≤ k ∧ m.flag k = true

theorem mem_flaggedBelow {m : Flags W} {n k : ℕ} :
  k ∈ flaggedBelow m n ↔ k < n ∧ 2 ≤ k ∧ m.flag k = true
  := by
  rw [flaggedBelow, List.mem_filter, List.mem_range, decide_eq_true_eq]

theorem flaggedBelow_succ (m : Flags W) {i : ℕ} (hi : 2 ≤ i) :
  flaggedBelow m (i + 1) = flaggedBelow m i ++ if m.flag i then [i] else []
  := by
  rw [flaggedBelow, List.range_succ, List.filter_append]
  by_cases hflag : m.flag i = true
  · simp [flaggedBelow, hi, hflag]
  · simp [flaggedBelow, hflag]

theorem flaggedBelow_ascending (m : Flags W) (n : ℕ) :
  (flaggedBelow m n).Pairwise (· < ·)
  := List.pairwise_lt_range.filter _

theorem length_flaggedBelow_mono (m : Flags W) {i n : ℕ} (hi : i ≤ n) :
  (flaggedBelow m i).length ≤ (flaggedBelow m n).length
  := ((List.range_sublist.mpr hi).filter _).length_le

/-- The number `i` comes last. -/
theorem orderedInsert_flaggedBelow (m : Flags W) (i : ℕ) :
  (flaggedBelow m i).orderedInsert (· ≤ ·) i = flaggedBelow m i ++ [i]
  := by
  have hsorted := (flaggedBelow_ascending m i).imp Nat.le_of_lt
  have hlast : (flaggedBelow m i ++ [i]).Pairwise (· ≤ ·) := by
    apply List.pairwise_append.mpr
    use hsorted, List.pairwise_singleton _ _
    intro p hp q hq
    rw [List.mem_singleton.mp hq]
    apply (mem_flaggedBelow.mp hp).1.le
  apply List.Perm.eq_of_pairwise' (hsorted.orderedInsert i _) hlast
  apply (List.perm_orderedInsert _ _ _).trans (List.perm_append_singleton _ _).symm

/-- Flags that are set at the primes. -/
theorem flaggedBelow_primes {m : Flags W} {bound : ℕ}
    (hflags : ∀ k ≤ bound, m.flag k = true ↔ k.Prime) :
  flaggedBelow m (bound + 1) = primesBelow (bound + 1)
  := by
  apply List.filter_congr
  intro k hk
  rw [decide_eq_decide, hflags k (Nat.le_of_lt_succ (List.mem_range.mp hk))]
  exact and_iff_right_of_imp Nat.Prime.two_le

/-! ### The tally -/

/-- The tally of the flags below `i`. -/
structure Tallied (m : Flags W) (i : ℕ) (t : Tally) : Prop where
  count : t.count = (flaggedBelow m i).length
  sum : t.sum = (flaggedBelow m i).sum
  top : t.top.elems = (flaggedBelow m i).rtake 10

theorem Tallied.start (m : Flags W) :
  Tallied m 2 { count := 0, sum := 0, top := .empty }
  := by
  have hnone : flaggedBelow m 2 = [] := by
    rw [flaggedBelow, List.filter_eq_nil_iff]
    intro k hk
    have := List.mem_range.mp hk
    simp
    omega
  constructor
  · rw [hnone]
    rfl
  · rw [hnone]
    rfl
  · rw [hnone]
    rfl

theorem Tallied.flagged {m : Flags W} {i : ℕ} {t : Tally} (h : Tallied m i t) (hi : 2 ≤ i)
    (hflag : m.flag i = true) (hlt : i < 2 ^ 32 - 1)
    (hcount : (flaggedBelow m (i + 1)).length < 2 ^ 31) :
  Tallied m (i + 1) (t.add i)
  := by
  have hnext : flaggedBelow m (i + 1) = flaggedBelow m i ++ [i] := by
    rw [flaggedBelow_succ m hi, if_pos hflag]
  have hsum : (flaggedBelow m i).sum + i < 2 ^ 64 := by
    have hle : (flaggedBelow m i).sum ≤ i * i := sum_filter_range_le _ i
    have hsquare : i * i ≤ (2 ^ 32 - 1) * (2 ^ 32 - 1) := Nat.mul_self_le_mul_self hlt.le
    omega
  rw [hnext, List.length_append, List.length_singleton] at hcount
  constructor
  · rw [Tally.add, h.count, hnext, List.length_append, List.length_singleton]
    have hcount := s32_of_lt (n := (flaggedBelow m i).length + 1) (by omega)
    push_cast at hcount ⊢
    apply hcount
  · rw [Tally.add, h.sum, hnext, List.sum_append, List.sum_singleton]
    apply Nat.mod_eq_of_lt hsum
  · rw [Tally.add, hnext, ← orderedInsert_flaggedBelow]
    apply PriorityQueue.pushTop_elems i ((flaggedBelow_ascending m i).imp Nat.le_of_lt) h.top

theorem Tallied.cleared {m : Flags W} {i : ℕ} {t : Tally} (h : Tallied m i t) (hi : 2 ≤ i)
    (hflag : ¬ m.flag i = true) :
  Tallied m (i + 1) t
  := by
  have hnext : flaggedBelow m (i + 1) = flaggedBelow m i := by
    rw [flaggedBelow_succ m hi, if_neg hflag, List.append_nil]
  constructor
  · rw [hnext, h.count]
  · rw [hnext, h.sum]
  · rw [hnext, h.top]

/-- The scan of the flags from `i` on, if there are not too many to count. -/
theorem scan_eq {bound : ℕ} {m : Flags W} (hbound : bound < 2 ^ 32 - 1)
    (hcount : (flaggedBelow m (bound + 1)).length < 2 ^ 31) {fuel : ℕ} :
  ∀ {i : ℕ} {t : Tally}, Tallied m i t → 2 ≤ i → i ≤ bound + 1 → bound + 1 - i < fuel →
    ∃ t', scan bound m fuel i t = some t' ∧ Tallied m (bound + 1) t'
  := by
  induction fuel with
  | zero =>
      intro i t _ _ _ hfuel
      cases Nat.not_lt_zero _ hfuel
  | succ fuel ih =>
      intro i t h htwo hle hfuel
      rw [scan]
      by_cases hi : i ≤ bound
      · rw [if_pos hi, u32_of_lt (by omega)]
        apply ih _ (by omega) (by omega) (by omega)
        by_cases hflag : m.flag i = true
        · rw [if_pos hflag]
          apply h.flagged htwo hflag (by omega)
          apply (length_flaggedBelow_mono m (Nat.succ_le_succ hi)).trans_lt hcount
        · rw [if_neg hflag]
          apply h.cleared htwo hflag
      · obtain rfl : i = bound + 1 := by omega
        rw [if_neg hi]
        use t

/-! ### The report -/

/-- The report is on the numbers with a flag. -/
theorem report_flagged {bound : ℕ} {m : Flags W} (htwo : 1 ≤ bound) (hbound : bound < 2 ^ 32 - 1)
    (hcount : (flaggedBelow m (bound + 1)).length < 2 ^ 31) :
  report bound m = some
    { count := (flaggedBelow m (bound + 1)).length
      sum := (flaggedBelow m (bound + 1)).sum
      top := (flaggedBelow m (bound + 1)).rtake 10 }
  := by
  have hfuel : bound + 1 - 2 < bound + 2 := by omega
  obtain ⟨t, hscan, ht⟩ := scan_eq hbound hcount (Tallied.start m) le_rfl (by omega) hfuel
  rw [report, hscan, Option.map_some, ht.count, ht.sum, PriorityQueue.drain_eq, ht.top]

/-- The strictly ascending list of the primes up to `N`. -/
structure PrimesUpTo (N : ℕ) (ps : List ℕ) : Prop where
  ascending : ps.Pairwise (· < ·)
  mem : ∀ p, p ∈ ps ↔ p.Prime ∧ p ≤ N

theorem primesUpTo (N : ℕ) :
  PrimesUpTo N (primesBelow (N + 1))
  := by
  constructor
  · apply primesBelow_ascending
  · intro p
    rw [mem_primesBelow, Nat.lt_succ_iff]

/-- The report on flags that are set at the primes. -/
theorem findPrimesSingleThread_eq {bound : ℕ} {primes : List ℕ} {m : Flags W} (htwo : 1 ≤ bound)
    (hbound : bound < 2 ^ 32 - 1) (hm : singleThread W bound primes = some m)
    (hflags : ∀ k ≤ bound, m.flag k = true ↔ k.Prime) :
  findPrimesSingleThread W bound primes = some
    { count := (primesBelow (bound + 1)).length
      sum := (primesBelow (bound + 1)).sum
      top := (primesBelow (bound + 1)).rtake 10 }
  := by
  have hlength := length_primesBelow_le (bound + 1)
  have hprimes := flaggedBelow_primes hflags
  rw [findPrimesSingleThread_report, hm, Option.bind_some, report_flagged htwo hbound, hprimes]
  rw [hprimes]
  omega

/-- `init_prime` finds the primes up to `L`, and `find_primes_single_thread` reports the number,
the sum and the ten largest of the primes up to the square of `L`; no step of the two sieves
wraps around. -/
theorem report_primes (hW : 0 < W) {L : ℕ} (hL : 1 ≤ L) (hwrap : L * L + L < 2 ^ 32) :
  ∃ primes found : List ℕ, PrimesUpTo L primes ∧ PrimesUpTo (L * L) found ∧
    initPrime W L = some primes ∧ Checked.initPrime W L = some primes ∧
    (∃ m, singleThread W (L * L) primes = some m ∧
      Checked.singleThread W (L * L) primes = some m) ∧
    findPrimesSingleThread W (L * L) primes = some
      { count := found.length, sum := found.sum, top := found.rtake 10 } ∧
    found.length < 2 ^ 31 ∧ found.sum < 2 ^ 64
  := by
  have hprimes := primesUpTo L
  have hinit : initPrime W L = some (primesBelow (L + 1)) := initPrime_eq hW hL hwrap
  have hbounds : ∀ p ∈ primesBelow (L + 1), p.Prime ∧ p * p < 2 ^ 32 ∧ L * L + p < 2 ^ 32 := by
    intro p hp
    obtain ⟨hprime, hle⟩ := (hprimes.mem p).mp hp
    have hsquare := Nat.mul_self_le_mul_self hle
    use hprime
    omega
  have hroot : ∀ p, p.Prime → p * p ≤ L * L → p ∈ primesBelow (L + 1) := by
    intro p hp hsquare
    apply (hprimes.mem p).mpr
    use hp, Nat.mul_self_le_mul_self_iff.mp hsquare
  have hchecked := Checked.singleThread_eq (W := W) fun p hp => (hbounds p hp).2
  obtain ⟨m, hm, hflags⟩ := singleThread_flags hW hbounds hroot
  have hbound : L * L < 2 ^ 32 - 1 := by omega
  have hpos : 1 ≤ L * L := Nat.mul_pos hL hL
  have hroot' : L ≤ 65535 := by
    by_contra hge
    have hsquare := Nat.mul_self_le_mul_self (Nat.lt_of_not_le hge)
    omega
  have hsquare := Nat.mul_self_le_mul_self hroot'
  have hlength := length_primesBelow_le (L * L + 1)
  have hsum : (primesBelow (L * L + 1)).sum ≤ _ := sum_filter_range_le _ (L * L + 1)
  have hsum' := Nat.mul_self_le_mul_self (Nat.add_le_add_right hsquare 1)
  use primesBelow (L + 1), primesBelow (L * L + 1), hprimes, primesUpTo (L * L), hinit
  constructor
  · rw [Checked.initPrime_eq hwrap, hinit]
  constructor
  · use m, hm
    rw [hchecked, hm]
  use findPrimesSingleThread_eq hpos hbound hm hflags
  omega

/-- The report with the limit of the program. -/
theorem report_primes_limit :
  ∃ primes found : List ℕ, PrimesUpTo 10000 primes ∧ PrimesUpTo (10000 * 10000) found ∧
    initPrime 64 10000 = some primes ∧ Checked.initPrime 64 10000 = some primes ∧
    (∃ m, singleThread 64 (10000 * 10000) primes = some m ∧
      Checked.singleThread 64 (10000 * 10000) primes = some m) ∧
    findPrimesSingleThread 64 (10000 * 10000) primes = some
      { count := found.length, sum := found.sum, top := found.rtake 10 } ∧
    found.length < 2 ^ 31 ∧ found.sum < 2 ^ 64
  := report_primes (by decide) (by decide) (by decide)

end Sieve

import ParallelArch.Sieve.Parallel
import ParallelArch.Sieve.Report

/-!
# The report of several threads

`find_primes_tbb` reports on the flags its bodies leave as `find_primes_single_thread` does on
its own.  A flag that comes back is one more prime in the report, and no prime is ever lost;
hence the two reports are the same in every run if and only if no word has composite numbers of
two ranges (`reports_alike_iff`).
-/

namespace Sieve

variable {W : ℕ} {ι : Type*} [DecidableEq ι] {N : ℕ} {primes : List ℕ} {b e : ι → ℕ}

/-- Whatever the bodies do to each other's words, `find_primes_tbb` reports what
`find_primes_single_thread` reports. -/
def ReportsAlike (W N : ℕ) (primes : List ℕ) (b e : ι → ℕ) : Prop :=
  ∀ h s, (bodies W primes b e).Reachable Machine.Free h s → (∀ i, s.loc i = .load []) →
    report N s.mem = findPrimesSingleThread W N primes

/-- In every run the flags of the primes stay set, and those of `0` and `1` cleared. -/
theorem flag_kept (hW : 0 < W) (hprimes : initPrime W limit = some primes)
    (hroot : ∀ p, p.Prime → p * p ≤ N → p ∈ primes) (hsplit : Split N b e)
    {h : List (ι × Empty)} {s : Global ι (Flags W) (Flags.Clearer W)}
    (hs : (bodies W primes b e).Reachable Machine.Free h s) {k : ℕ} (hk : k < 2 ∨ k.Prime) :
  s.mem.flag k = decide (2 ≤ k)
  := by
  obtain ⟨todo, -, hbodies, hmem⟩ := bodies_eq hW hprimes hroot hsplit
  rw [hbodies] at hs
  apply Flags.clearing_keeps hW _ _ hs
  · rw [flag_initFlags hW]
  · intro htwo i hi
    rcases hk with hlow | hprime
    · cases Nat.not_lt_of_le (of_decide_eq_true htwo) hlow
    · apply ((hmem i k).mp hi).2.2 hprime

/-- Flags that are set wherever others are, and on as many numbers, are the same. -/
theorem flag_of_length {m m' : Flags W} {n : ℕ}
    (hflags : ∀ k, 2 ≤ k → k < n → m'.flag k = true → m.flag k = true)
    (hlength : (flaggedBelow m n).length = (flaggedBelow m' n).length) {k : ℕ} (htwo : 2 ≤ k)
    (hk : k < n) :
  m.flag k = m'.flag k
  := by
  have hsub : (flaggedBelow m' n).Sublist (flaggedBelow m n) := by
    have hsame : flaggedBelow m' n = (flaggedBelow m n).filter fun k => m'.flag k := by
      rw [flaggedBelow, flaggedBelow, List.filter_filter]
      apply List.filter_congr
      intro k hk
      have hk := List.mem_range.mp hk
      by_cases hflag : 2 ≤ k ∧ m'.flag k = true
      · simp [hflag, hflags k hflag.1 hk hflag.2]
      · by_cases hflag' : m'.flag k = true
        · simp only [hflag', and_true] at hflag
          simp [hflag]
        · simp [hflag']
    rw [hsame]
    apply List.filter_sublist
  have heq := hsub.eq_of_length hlength.symm
  have hmem : ∀ m : Flags W, k ∈ flaggedBelow m n ↔ m.flag k = true := by
    intro m
    simp [mem_flaggedBelow, hk, htwo]
  rw [Bool.eq_iff_iff, ← hmem, ← hmem, heq]

/-- The reports of `find_primes_tbb` and of `find_primes_single_thread` are the same in every
run if and only if no word has composite numbers of two ranges. -/
theorem reports_alike_iff [Fintype ι] (hW : 0 < W) (hprimes : initPrime W limit = some primes)
    (hroot : ∀ p, p.Prime → p * p ≤ N → p ∈ primes) (hsplit : Split N b e) (htwo : 1 ≤ N) :
  ReportsAlike W N primes b e ↔ WordsApart W b e
  := by
  have hN : N < 2 ^ 31 - 1 := by
    by_contra hlarge
    have hmem := hroot 10007 (by norm_num) (by omega)
    rw [initPrime_limit hW] at hprimes
    obtain rfl := Option.some.inj hprimes
    simp [limit] at hmem
  have hreported : ∀ m : Flags W, report N m = some
      { count := (flaggedBelow m (N + 1)).length
        sum := (flaggedBelow m (N + 1)).sum
        top := (flaggedBelow m (N + 1)).rtake 10 } := by
    intro m
    apply report_flagged htwo (by omega)
    apply (length_filter_range_le _ _).trans_lt
    omega
  obtain ⟨m, hsingle, hflags⟩ := singleThread_primes hW hprimes hroot
  rw [ReportsAlike, findPrimesSingleThread_report, hsingle, Option.bind_some]
  constructor
  · intro hreports i i' j j' hne hb he hb' he' hj hj' hword
    apply composite_left hW hprimes hroot hsplit hne hb he hb' he' hj hj' hword
    constructor
    · obtain ⟨todo, hbody, -⟩ := bodies_eq hW hprimes hroot hsplit
      intro i
      rw [hbody]
      rfl
    · use m, hsingle
      intro h s hs hend j hj
      have hreport := hreports h s hs hend
      rw [hreported, hreported, Option.some_inj, Report.mk.injEq] at hreport
      rcases Nat.lt_or_ge j 2 with hlow | htwo
      · have hset := flag_kept hW hprimes hroot hsplit hs (.inl hlow)
        have hprime : ¬ j.Prime := fun hprime => Nat.not_lt_of_le hprime.two_le hlow
        rw [decide_eq_false (Nat.not_le_of_lt hlow)] at hset
        rw [hset, eq_comm, Bool.eq_false_iff, Ne, hflags j hj]
        apply hprime
      · apply flag_of_length _ (by exact_mod_cast hreport.1) htwo (Nat.lt_succ_of_le hj)
        intro k htwo hk hflag
        have hprime := (hflags k (Nat.le_of_lt_succ hk)).mp hflag
        rw [flag_kept hW hprimes hroot hsplit hs (.inr hprime), decide_eq_true htwo]
  · intro hapart h s hs hend
    obtain ⟨-, m', hsingle', hagree⟩ := agree_of_apart hW hprimes hroot hsplit hapart
    rw [hsingle] at hsingle'
    obtain rfl := Option.some.inj hsingle'
    have hsame : flaggedBelow s.mem (N + 1) = flaggedBelow m (N + 1) := by
      apply List.filter_congr
      intro k hk
      rw [hagree h s hs hend k (Nat.le_of_lt_succ (List.mem_range.mp hk))]
    rw [hreported, hreported, hsame]

/-- Two ranges that meet where two words meet. -/
theorem reports_alike_two_words :
  ReportsAlike 64 127 ((List.range (limit + 1)).filter Nat.Prime) ![2, 64] ![64, 128]
  := by
  apply (reports_alike_iff (by decide) (initPrime_limit (by decide)) _
    (split_two (by decide) (by decide)) (by decide)).mpr
  · intro i i' j j'
    revert i i'
    simp [Fin.forall_fin_two]
    omega
  · intro p hp hsquare
    apply root_mem _ hp hsquare
    norm_num [limit]

end Sieve

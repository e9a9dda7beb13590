import Mathlib.Data.Fin.VecNotation
import Mathlib.Tactic.NormNum
import Mathlib.Tactic.NormNum.Prime
import ParallelArch.Sieve.Body

/-!
# The sieve of several threads

`find_primes_tbb` runs the body on the ranges of a split, and the bodies interleave.  Two
ranges may meet within a word of the `std::vector<bool>`; then a flag cleared by one body can
come back when the other stores the word.  The bodies agree with
`find_primes_single_thread` if and only if no word has composite numbers of two ranges.
-/

namespace Sieve

variable {ι : Type*}

/-- The limit of `init_prime`. -/
def limit : ℕ := 10000

/-- A split of `[2, N + 1)` into half-open ranges. -/
structure Split (N : ℕ) (b e : ι → ℕ) : Prop where
  lower : ∀ i, 2 ≤ b i
  ordered : ∀ i, b i ≤ e i
  upper : ∀ i, e i ≤ N + 1
  cover : ∀ j, 2 ≤ j → j ≤ N → ∃ i, b i ≤ j ∧ j < e i
  disjoint : ∀ i i' j, b i ≤ j → j < e i → b i' ≤ j → j < e i' → i = i'

/-- No word has composite numbers of two ranges. -/
def WordsApart (W : ℕ) (b e : ι → ℕ) : Prop :=
  ∀ i i' j j', i ≠ i' → b i ≤ j → j < e i → b i' ≤ j' → j' < e i' → ¬ j.Prime → ¬ j'.Prime →
    j / W ≠ j' / W

variable [DecidableEq ι]

/-- The bodies of `find_primes_tbb` on the ranges `[b i, e i)`. -/
def bodies (W : ℕ) (primes : List ℕ) (b e : ι → ℕ) :
    Machine (Global ι (Flags W) (Flags.Clearer W)) (ι × Unit) (ι × Empty) :=
  threads
    (fun m l => m = initFlags W ∧
      ∀ i, (body (b i) (e i) primes).map Flags.Clearer.load = some (l i))
    fun _ m t _ => Flags.clearStep m t

/-- Every body ends, and however they interleave they leave the flags of one thread. -/
def Agree (W N : ℕ) (primes : List ℕ) (b e : ι → ℕ) : Prop :=
  (∀ i, (body (b i) (e i) primes).isSome) ∧ ∃ m, singleThread W N primes = some m ∧
    ∀ h s, (bodies W primes b e).Reachable Machine.Free h s → (∀ i, s.loc i = .load []) →
      ∀ j ≤ N, s.mem.flag j = m.flag j

/-! ### The flags of the bodies -/

theorem initPrime_limit {W : ℕ} (hW : 0 < W) :
  initPrime W limit = some ((List.range (limit + 1)).filter Nat.Prime)
  := by
  apply initPrime_eq hW
  · norm_num [limit]
  · norm_num [limit]

/-- If the primes of `init_prime` are all primes with a square up to `N`, no loop wraps around. -/
theorem primes_of_initPrime {W N : ℕ} (hW : 0 < W) {primes : List ℕ}
    (hprimes : initPrime W limit = some primes)
    (hroot : ∀ p, p.Prime → p * p ≤ N → p ∈ primes) :
  ∀ p ∈ primes, p.Prime ∧ p * p < 2 ^ 31 ∧ N + 1 + p < 2 ^ 31
  := by
  rw [initPrime_limit hW] at hprimes
  obtain rfl := Option.some.inj hprimes
  have hN : N < 10007 * 10007 := by
    by_contra hN
    have hmem := hroot 10007 (by norm_num) (Nat.le_of_not_lt hN)
    simp [limit] at hmem
  intro p hp
  rw [List.mem_filter, List.mem_range, decide_eq_true_eq] at hp
  obtain ⟨hlt, hpp⟩ := hp
  have hsquare : p * p ≤ limit * limit := Nat.mul_self_le_mul_self (Nat.le_of_lt_succ hlt)
  simp only [limit] at hlt hsquare
  use hpp
  omega

section

variable {W N : ℕ} {primes : List ℕ} {b e : ι → ℕ}

/-- The threads clear the flags of the composite numbers of their ranges. -/
theorem bodies_eq (hW : 0 < W) (hprimes : initPrime W limit = some primes)
    (hroot : ∀ p, p.Prime → p * p ≤ N → p ∈ primes) (hsplit : Split N b e) :
  ∃ todo : ι → List ℕ, (∀ i, body (b i) (e i) primes = some (todo i)) ∧
    bodies W primes b e = Flags.clearing (initFlags W) todo ∧
    ∀ i k, k ∈ todo i ↔ b i ≤ k ∧ k < e i ∧ ¬ k.Prime
  := by
  have hbounds := primes_of_initPrime hW hprimes hroot
  have hbody := fun i => body_composites hbounds hroot (hsplit.lower i) (hsplit.ordered i)
    (hsplit.upper i)
  choose todo hbody hmem using hbody
  use todo, hbody
  constructor
  · rw [bodies, Flags.clearing]
    congr 1
    ext m l
    simp only [hbody, Option.map_some, Option.some.injEq, eq_comm]
  · apply hmem

/-- One thread leaves the flags of the primes set. -/
theorem singleThread_primes (hW : 0 < W) (hprimes : initPrime W limit = some primes)
    (hroot : ∀ p, p.Prime → p * p ≤ N → p ∈ primes) :
  ∃ m, singleThread W N primes = some m ∧ ∀ j ≤ N, m.flag j = true ↔ j.Prime
  := by
  apply singleThread_flags hW _ hroot
  intro p hp
  obtain ⟨hpp, hsquare, hwrap⟩ := primes_of_initPrime hW hprimes hroot p hp
  use hpp
  omega

/-- The bodies agree with one thread if no word has composite numbers of two ranges. -/
theorem agree_of_apart (hW : 0 < W) (hprimes : initPrime W limit = some primes)
    (hroot : ∀ p, p.Prime → p * p ≤ N → p ∈ primes) (hsplit : Split N b e)
    (hapart : WordsApart W b e) :
  Agree W N primes b e
  := by
  obtain ⟨todo, hbody, hbodies, hmem⟩ := bodies_eq hW hprimes hroot hsplit
  obtain ⟨m, hsingle, hflags⟩ := singleThread_primes hW hprimes hroot
  constructor
  · intro i
    rw [hbody]
    rfl
  use m, hsingle
  intro h s hs hend j hj
  rw [hbodies] at hs
  have htodo : Flags.Apart W todo := by
    intro i i' k k' hne hk hk'
    obtain ⟨hb, he, hcomposite⟩ := (hmem i k).mp hk
    obtain ⟨hb', he', hcomposite'⟩ := (hmem i' k').mp hk'
    apply hapart i i' k k' hne hb he hb' he' hcomposite hcomposite'
  rw [Bool.eq_iff_iff, Flags.flag_of_ended hW htodo hs hend, hflags j hj, flag_initFlags hW,
    decide_eq_true_eq]
  constructor
  · rintro ⟨htwo, hout⟩
    obtain ⟨i, hb, he⟩ := hsplit.cover j htwo hj
    by_contra hcomposite
    apply hout i ((hmem i j).mpr ⟨hb, he, hcomposite⟩)
  · intro hprime
    use hprime.two_le
    intro i hi
    obtain ⟨-, -, hcomposite⟩ := (hmem i j).mp hi
    apply hcomposite hprime

/-- If a word has composite numbers of two ranges, a run leaves a composite number set. -/
theorem composite_left [Fintype ι] (hW : 0 < W) (hprimes : initPrime W limit = some primes)
    (hroot : ∀ p, p.Prime → p * p ≤ N → p ∈ primes) (hsplit : Split N b e) {i i' : ι} {j j' : ℕ}
    (hne : i ≠ i') (hb : b i ≤ j) (he : j < e i) (hb' : b i' ≤ j') (he' : j' < e i')
    (hj : ¬ j.Prime) (hj' : ¬ j'.Prime) (hword : j / W = j' / W) :
  ¬ Agree W N primes b e
  := by
  rintro ⟨-, m, hsingle, hagree⟩
  obtain ⟨todo, -, hbodies, hmem⟩ := bodies_eq hW hprimes hroot hsplit
  obtain ⟨m', hsingle', hflags⟩ := singleThread_primes hW hprimes hroot
  rw [hsingle] at hsingle'
  obtain rfl := Option.some.inj hsingle'
  have hN : j' ≤ N := Nat.le_of_lt_succ (he'.trans_le (hsplit.upper i'))
  have hset : (initFlags W).flag j' = true := by
    rw [flag_initFlags hW, decide_eq_true_eq]
    apply (hsplit.lower i').trans hb'
  have honly : ∀ k, j' ∈ todo k → k = i' := by
    intro k hk
    obtain ⟨hbk, hek, -⟩ := (hmem k j').mp hk
    apply hsplit.disjoint k i' j' hbk hek hb' he'
  obtain ⟨s, hs, hend, hflag⟩ := Flags.lost_clear hW hne ((hmem i j).mpr ⟨hb, he, hj⟩) hset honly
    hword.symm
  rw [← hbodies] at hs
  have hsame := hagree [] s hs hend j' hN
  rw [hflag] at hsame
  apply hj' ((hflags j' hN).mp hsame.symm)

/-- The bodies agree with one thread if and only if no word has composite numbers of two
ranges. -/
theorem agree_iff [Fintype ι] (hW : 0 < W) (hprimes : initPrime W limit = some primes)
    (hroot : ∀ p, p.Prime → p * p ≤ N → p ∈ primes) (hsplit : Split N b e) :
  Agree W N primes b e ↔ WordsApart W b e
  := by
  constructor
  · intro hagree i i' j j' hne hb he hb' he' hj hj' hword
    apply composite_left hW hprimes hroot hsplit hne hb he hb' he' hj hj' hword hagree
  · apply agree_of_apart hW hprimes hroot hsplit

end

/-- A root of at most `limit` is found. -/
theorem root_mem {N : ℕ} (hN : N ≤ limit * limit) {p : ℕ} (hp : p.Prime) (hsquare : p * p ≤ N) :
  p ∈ (List.range (limit + 1)).filter Nat.Prime
  := by
  rw [List.mem_filter, List.mem_range, decide_eq_true_eq]
  constructor
  · apply Nat.lt_succ_of_le
    apply Nat.mul_self_le_mul_self_iff.mp (hsquare.trans hN)
  · apply hp

/-- The split at `c`. -/
theorem split_two {N c : ℕ} (hc : 2 ≤ c) (hN : c ≤ N + 1) :
  Split N ![2, c] ![c, N + 1]
  := by
  constructor
  · rw [Fin.forall_fin_two]
    use le_rfl
    apply hc
  · rw [Fin.forall_fin_two]
    use hc
    apply hN
  · rw [Fin.forall_fin_two]
    use hN
    apply le_rfl
  · intro j htwo hj
    rw [Fin.exists_fin_two]
    rcases Nat.lt_or_ge j c with hlt | hge
    · left
      use htwo
      apply hlt
    · right
      use hge
      apply Nat.lt_succ_of_le hj
  · intro i i' j
    revert i i'
    simp [Fin.forall_fin_two]
    omega

/-- Two ranges that meet where two words meet. -/
theorem agree_two_words :
  Agree 64 127 ((List.range (limit + 1)).filter Nat.Prime) ![2, 64] ![64, 128]
  := by
  apply (agree_iff (by decide) (initPrime_limit (by decide)) _
    (split_two (by decide) (by decide))).mpr
  · intro i i' j j'
    revert i i'
    simp [Fin.forall_fin_two]
    omega
  · intro p hp hsquare
    apply root_mem _ hp hsquare
    norm_num [limit]

/-- Two ranges that meet within a word. -/
theorem disagree_in_word :
  initPrime 64 limit = some ((List.range (limit + 1)).filter Nat.Prime) ∧
    (∀ p, p.Prime → p * p ≤ 8 → p ∈ (List.range (limit + 1)).filter Nat.Prime) ∧
    Split 8 ![2, 5] ![5, 9] ∧
    ¬ Agree 64 8 ((List.range (limit + 1)).filter Nat.Prime) ![2, 5] ![5, 9]
  := by
  have hinit : initPrime 64 limit = _ := initPrime_limit (by decide)
  have hroot : ∀ p, p.Prime → p * p ≤ 8 → p ∈ (List.range (limit + 1)).filter Nat.Prime := by
    intro p hp hsquare
    apply root_mem _ hp hsquare
    norm_num [limit]
  have hsplit : Split 8 ![2, 5] ![5, 9] := split_two (by decide) (by decide)
  have hne : (0 : Fin 2) ≠ 1 := by decide
  have hword : 4 / 64 = 6 / 64 := rfl
  use hinit, hroot, hsplit
  apply composite_left (by decide) hinit hroot hsplit hne _ _ _ _ _ _ hword
  all_goals norm_num

end Sieve

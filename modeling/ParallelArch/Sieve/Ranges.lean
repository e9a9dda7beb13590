import ParallelArch.Sieve.Checked
import ParallelArch.Sieve.Parallel

/-!
# The ranges of the parallel sieve

For every limit whose square fits an `int`, the body of `find_primes_tbb` stays within its range
and leaves the primes of the range set.  Bodies that run one after another leave the primes
set, whatever the split and the order.
-/

namespace Sieve

variable {W : ℕ} {ι : Type*}

/-- The bodies of the ranges `[b i, e i)`, one after another. -/
def oneByOne (primes : List ℕ) (b e : ι → ℕ) : List ι → Flags W → Option (Flags W)
  | [], m => some m
  | i :: order, m =>
      (body (b i) (e i) primes).bind fun js => oneByOne primes b e order (m.clearAll js)

/-- The limits with a square that the program can count up to. -/
theorem succ_lt_of_square {L : ℕ} (hL : L * L + L < 2 ^ 31) :
  L * L + 1 + L < 2 ^ 31
  := by
  have hroot : L < 46341 := by
    by_contra hge
    have hsquare := Nat.mul_self_le_mul_self (Nat.le_of_not_lt hge)
    omega
  have hsquare := Nat.mul_self_le_mul_self (Nat.le_of_lt_succ hroot)
  omega

section

variable {L : ℕ} {primes : List ℕ}

/-- The squares and the multiples of the primes up to `L` fit an `int`. -/
theorem bounds_of_limit (hL : L * L + L < 2 ^ 31) (hprimes : ∀ p, p ∈ primes ↔ p.Prime ∧ p ≤ L) :
  ∀ p ∈ primes, p.Prime ∧ p * p < 2 ^ 31 ∧ L * L + 1 + p < 2 ^ 31
  := by
  intro p hp
  obtain ⟨hprime, hle⟩ := (hprimes p).mp hp
  have hsquare := Nat.mul_self_le_mul_self hle
  have hsucc := succ_lt_of_square hL
  use hprime
  omega

/-- The primes with a square up to the square of `L` are primes up to `L`. -/
theorem root_of_limit (hprimes : ∀ p, p ∈ primes ↔ p.Prime ∧ p ≤ L) :
  ∀ p, p.Prime → p * p ≤ L * L → p ∈ primes
  := by
  intro p hp hsquare
  apply (hprimes p).mpr
  use hp
  apply Nat.mul_self_le_mul_self_iff.mp hsquare

/-- Bodies that run one after another clear the composite numbers of their ranges. -/
theorem oneByOne_flags (hW : 0 < W) {b e : ι → ℕ}
    (hbody : ∀ i, ∃ js, body (b i) (e i) primes = some js ∧
      ∀ k, k ∈ js ↔ b i ≤ k ∧ k < e i ∧ ¬ k.Prime)
    {order : List ι} :
  ∀ m : Flags W, ∃ m', oneByOne primes b e order m = some m' ∧ ∀ k, m'.flag k = true
    ↔ m.flag k = true ∧ ∀ i ∈ order, ¬ (b i ≤ k ∧ k < e i ∧ ¬ k.Prime)
  := by
  induction order with
  | nil =>
      intro m
      use m, rfl
      simp
  | cons i order ih =>
      intro m
      obtain ⟨js, hjs, hmem⟩ := hbody i
      obtain ⟨m', hrest, hflags⟩ := ih (m.clearAll js)
      use m'
      constructor
      · rw [oneByOne, hjs, Option.bind_some, hrest]
      · intro k
        rw [hflags, Flags.flag_clearAll hW, hmem, List.forall_mem_cons, and_assoc]

/-- The body overflows nowhere, writes within its range only and leaves the primes of its range
set.  The bodies of a split of `[2, L * L + 1)` leave the primes set in every order. -/
theorem body_primes (hW : 0 < W) (hL : L * L + L < 2 ^ 31)
    (hprimes : ∀ p, p ∈ primes ↔ p.Prime ∧ p ≤ L) :
  (∀ b e, 2 ≤ b → b ≤ e → e ≤ L * L + 1 →
    ∃ js, body b e primes = some js ∧ Checked.body b e primes = some js ∧
      (∀ k ∈ js, b ≤ k ∧ k < e) ∧
      ∀ m : Flags W, (∀ k, b ≤ k → k < e → m.flag k = true) →
        ∀ k, b ≤ k → k < e → ((m.clearAll js).flag k = true ↔ k.Prime)) ∧
  ∀ (ι : Type) (b e : ι → ℕ) (order : List ι), Split (L * L) b e → (∀ i, i ∈ order) →
    ∃ m : Flags W, oneByOne primes b e order (initFlags W) = some m ∧
      ∀ k ≤ L * L, m.flag k = true ↔ k.Prime
  := by
  have hbounds := bounds_of_limit hL hprimes
  have hroot := root_of_limit hprimes
  constructor
  · intro b e hb hbe he
    obtain ⟨js, hjs, hmem⟩ := body_composites hbounds hroot hb hbe he
    use js, hjs
    constructor
    · rw [Checked.body_eq _, hjs]
      intro p hp
      obtain ⟨hprime, hsquare, hwrap⟩ := hbounds p hp
      use hprime.pos, hsquare
      omega
    constructor
    · intro k hk
      obtain ⟨hbk, hke, -⟩ := (hmem k).mp hk
      use hbk, hke
    · intro m hset k hbk hke
      rw [Flags.flag_clearAll hW, hmem]
      simp [hset k hbk hke, hbk, hke]
  · intro ι b e order hsplit horder
    have hbody := fun i =>
      body_composites hbounds hroot (hsplit.lower i) (hsplit.ordered i) (hsplit.upper i)
    obtain ⟨m, hm, hflags⟩ := oneByOne_flags hW hbody (initFlags W)
    use m, hm
    intro k hk
    rw [hflags, flag_initFlags hW, decide_eq_true_eq]
    constructor
    · rintro ⟨htwo, hnone⟩
      obtain ⟨i, hbk, hke⟩ := hsplit.cover k htwo hk
      by_contra hcomposite
      apply hnone i (horder i) ⟨hbk, hke, hcomposite⟩
    · intro hprime
      use hprime.two_le
      rintro i - ⟨-, -, hcomposite⟩
      apply hcomposite hprime

end

/-- The bodies of `find_primes_tbb` on two ranges, the second one first. -/
theorem body_primes_limit :
  initPrime 64 limit = some ((List.range (limit + 1)).filter Nat.Prime) ∧
    Split (limit * limit) ![2, 5000] ![5000, limit * limit + 1] ∧
    ∃ m : Flags 64, oneByOne ((List.range (limit + 1)).filter Nat.Prime) ![2, 5000]
      ![5000, limit * limit + 1] [1, 0] (initFlags 64) = some m ∧
      ∀ k ≤ limit * limit, m.flag k = true ↔ k.Prime
  := by
  have hsplit : Split (limit * limit) ![2, 5000] ![5000, limit * limit + 1] := by
    apply split_two
    · norm_num
    · norm_num [limit]
  use initPrime_limit (by decide), hsplit
  apply (body_primes (by decide) (by norm_num [limit]) _).2 (Fin 2) _ _ [1, 0] hsplit (by decide)
  intro p
  simp only [List.mem_filter, List.mem_range, Nat.lt_succ_iff, decide_eq_true_eq, and_comm]

end Sieve

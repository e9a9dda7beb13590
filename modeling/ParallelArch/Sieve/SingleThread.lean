import Mathlib.Data.Nat.Prime.Basic
import Mathlib.Tactic.SplitIfs
import ParallelArch.Concurrency.PackedFlags

/-!
# The sieve with one thread

`init_prime` collects the primes up to a limit, and `find_primes_single_thread` crosses out
their multiples.  The flags are a `std::vector<bool>`, packed in words.

A loop that counts in `uint32_t` may wrap around and go on for ever, so the loops take fuel;
without a wrap the fuel given is enough.
-/

namespace Sieve

/-! ### Flags -/

variable {W : ℕ}

/-- `is_prime` at the start: all flags are set but those of `0` and `1`. -/
def initFlags (W : ℕ) : Flags W := (Flags.clear (fun _ => BitVec.allOnes W) 1).clear 0

theorem flag_initFlags (hW : 0 < W) (j : ℕ) :
  (initFlags W).flag j = decide (2 ≤ j)
  := by
  have hset : Flags.flag (fun _ => BitVec.allOnes W) j = true := by
    simp [Flags.flag, Nat.mod_lt j hW]
  rw [initFlags, Flags.flag_clear hW, Flags.flag_clear hW, hset, Bool.true_and, ← Bool.decide_and]
  apply decide_eq_decide.mpr
  omega

/-! ### The loops -/

/-- A `uint32_t`. -/
def u32 (n : ℕ) : ℕ := n % 2 ^ 32

/-- `for (uint32_t j = ...; j <= bound; j += p) is_prime[j] = false;` -/
def crossOut (bound p : ℕ) : ℕ → ℕ → Flags W → Option (Flags W)
  | 0, _, _ => none
  | fuel + 1, j, m =>
      if j ≤ bound then crossOut bound p fuel (u32 (j + p)) (m.clear j) else some m

/-- The loop of `init_prime` from `i` on. -/
def initFrom (limit : ℕ) : ℕ → ℕ → Flags W → List ℕ → Option (List ℕ)
  | 0, _, _, _ => none
  | fuel + 1, i, m, primes =>
      if i ≤ limit then
        if m.flag i then
          (crossOut limit i (limit + 2) (u32 (i * i)) m).bind fun m =>
            initFrom limit fuel (u32 (i + 1)) m (primes ++ [i])
        else initFrom limit fuel (u32 (i + 1)) m primes
      else some primes

/-- `init_prime`. -/
def initPrime (W limit : ℕ) : Option (List ℕ) := initFrom limit (limit + 2) 2 (initFlags W) []

/-- The loop of `find_primes_single_thread` over the primes. -/
def crossOutAll (bound : ℕ) : List ℕ → Flags W → Option (Flags W)
  | [], m => some m
  | p :: primes, m => (crossOut bound p (bound + 2) (u32 (p * p)) m).bind (crossOutAll bound primes)

/-- The flags `find_primes_single_thread` ends with. -/
def singleThread (W bound : ℕ) (primes : List ℕ) : Option (Flags W) :=
  crossOutAll bound primes (initFlags W)

/-! ### Crossing out -/

theorem u32_of_lt {n : ℕ} (h : n < 2 ^ 32) :
  u32 n = n
  := Nat.mod_eq_of_lt h

/-- The numbers `j`, `j + p`, ... are `j` and the numbers `j + p`, `j + p + p`, .... -/
theorem progression_step {p : ℕ} (hp : 0 < p) (j k : ℕ) :
  j ≤ k ∧ p ∣ k - j ↔ k = j ∨ j + p ≤ k ∧ p ∣ k - (j + p)
  := by
  constructor
  · rintro ⟨hle, hdvd⟩
    rcases Nat.eq_zero_or_pos (k - j) with hzero | hpos
    · left
      omega
    · right
      have hge := Nat.le_of_dvd hpos hdvd
      constructor
      · omega
      · rw [Nat.sub_add_eq]
        apply Nat.dvd_sub hdvd dvd_rfl
  · rintro (rfl | ⟨hle, hdvd⟩)
    · simp
    · constructor
      · omega
      · rw [show k - j = k - (j + p) + p by omega]
        apply Nat.dvd_add hdvd dvd_rfl

/-- The same for the numbers with `P`, if `j` is one of them. -/
theorem progression_within {p : ℕ} (hp : 0 < p) {P : ℕ → Prop} {j : ℕ} (hj : P j) (k : ℕ) :
  j ≤ k ∧ P k ∧ p ∣ k - j ↔ k = j ∨ j + p ≤ k ∧ P k ∧ p ∣ k - (j + p)
  := by
  have hstep := progression_step hp j k
  constructor
  · rintro ⟨hle, hk, hdvd⟩
    apply (hstep.mp ⟨hle, hdvd⟩).imp_right
    rintro ⟨hle, hdvd⟩
    exact ⟨hle, hk, hdvd⟩
  · intro hk
    have hP : P k := by
      rcases hk with rfl | hk
      · apply hj
      · apply hk.2.1
    obtain ⟨hle, hdvd⟩ := hstep.mpr (hk.imp_right fun hk => ⟨hk.1, hk.2.2⟩)
    exact ⟨hle, hP, hdvd⟩

/-- The loop clears the numbers `j`, `j + p`, ... up to the bound. -/
theorem crossOut_flags (hW : 0 < W) {bound p : ℕ} (hp : 0 < p) (hwrap : bound + p < 2 ^ 32)
    {fuel : ℕ} :
  ∀ {j : ℕ} {m : Flags W}, bound + 1 - j < fuel → ∃ m', crossOut bound p fuel j m = some m' ∧
    ∀ k, m'.flag k = true ↔ m.flag k = true ∧ ¬ (j ≤ k ∧ k ≤ bound ∧ p ∣ k - j)
  := by
  induction fuel with
  | zero =>
      intro j m hfuel
      cases Nat.not_lt_zero _ hfuel
  | succ fuel ih =>
      intro j m hfuel
      by_cases hj : j ≤ bound
      · obtain ⟨m', hcross, hflags⟩ := ih (j := j + p) (m := m.clear j) (by omega)
        refine ⟨m', ?_, ?_⟩
        · rw [crossOut, if_pos hj, u32_of_lt (by omega)]
          apply hcross
        · intro k
          rw [hflags, Flags.flag_clear hW, Bool.and_eq_true, decide_eq_true_eq,
            progression_within (P := fun k => k ≤ bound) hp hj, not_or, and_assoc]
      · refine ⟨m, ?_, ?_⟩
        · rw [crossOut, if_neg hj]
        · intro k
          have hout : ¬ (j ≤ k ∧ k ≤ bound ∧ p ∣ k - j) := by
            rintro ⟨hle, hk, -⟩
            apply hj (hle.trans hk)
          simp [hout]

/-- From its square on, the loop clears the multiples of `p`. -/
theorem crossOut_multiples (hW : 0 < W) {bound p : ℕ} (hp : 0 < p)
    (hwrap : bound + p < 2 ^ 32) (hsquare : p * p < 2 ^ 32) (m : Flags W) :
  ∃ m', crossOut bound p (bound + 2) (u32 (p * p)) m = some m' ∧
    ∀ k, m'.flag k = true ↔ m.flag k = true ∧ ¬ (p * p ≤ k ∧ k ≤ bound ∧ p ∣ k)
  := by
  rw [u32_of_lt hsquare]
  have hfuel : bound + 1 - p * p < bound + 2 := by omega
  obtain ⟨m', hcross, hflags⟩ := crossOut_flags hW hp hwrap (m := m) hfuel
  use m', hcross
  intro k
  have hdvd : p * p ≤ k → (p ∣ k - p * p ↔ p ∣ k) := by
    intro hle
    apply Nat.dvd_sub_iff_left hle (dvd_mul_right p p)
  rw [hflags]
  apply and_congr_right'
  apply not_congr
  apply and_congr_right
  intro hle
  rw [hdvd hle]

/-! ### The primes -/

/-- A number is composite if a prime with a square up to it divides it. -/
theorem exists_prime_sq_le {k : ℕ} (hk : 2 ≤ k) (hcomposite : ¬ k.Prime) :
  ∃ p, p.Prime ∧ p * p ≤ k ∧ p ∣ k
  := by
  use k.minFac, Nat.minFac_prime (by omega)
  constructor
  · rw [← Nat.pow_two]
    apply Nat.minFac_sq_le_self (by omega) hcomposite
  · apply Nat.minFac_dvd

theorem not_prime_of_sq_le {p k : ℕ} (hp : p.Prime) (hle : p * p ≤ k) (hdvd : p ∣ k) :
  ¬ k.Prime
  := by
  intro hk
  obtain rfl := (Nat.prime_dvd_prime_iff_eq hp hk).mp hdvd
  exact absurd hle (Nat.lt_mul_self_iff.mpr hp.one_lt).not_ge

/-- The state of the loop of `init_prime` at `i`: the primes below `i` have been found, and
their multiples have been crossed out. -/
structure Sieved (limit i : ℕ) (m : Flags W) (primes : List ℕ) : Prop where
  primes : primes = (List.range i).filter Nat.Prime
  flags : ∀ k ≤ limit, m.flag k = true ↔ 2 ≤ k ∧ ∀ p < i, p.Prime → p * p ≤ k → ¬ p ∣ k

/-- At its turn a number is still set if and only if it is prime. -/
theorem Sieved.flag_iff {limit i : ℕ} {m : Flags W} {primes : List ℕ}
    (h : Sieved limit i m primes) (hi : 2 ≤ i) (hle : i ≤ limit) :
  m.flag i = true ↔ i.Prime
  := by
  rw [h.flags i hle]
  constructor
  · rintro ⟨-, hnone⟩
    by_contra hcomposite
    obtain ⟨p, hp, hsq, hdvd⟩ := exists_prime_sq_le hi hcomposite
    apply hnone p _ hp hsq hdvd
    apply (Nat.lt_mul_self_iff.mpr hp.one_lt).trans_le hsq
  · intro hprime
    use hi
    intro p _ hp hsq hdvd
    apply not_prime_of_sq_le hp hsq hdvd hprime

theorem range_succ_filter (i : ℕ) :
  (List.range (i + 1)).filter Nat.Prime
    = (List.range i).filter Nat.Prime ++ if i.Prime then [i] else []
  := by
  rw [List.range_succ, List.filter_append]
  by_cases hi : i.Prime
  · simp [hi]
  · simp [hi]

/-- The turn of a prime. -/
theorem Sieved.prime {limit i : ℕ} {m m' : Flags W} {primes : List ℕ}
    (h : Sieved limit i m primes) (hi : i.Prime)
    (hflags : ∀ k, m'.flag k = true ↔ m.flag k = true ∧ ¬ (i * i ≤ k ∧ k ≤ limit ∧ i ∣ k)) :
  Sieved limit (i + 1) m' (primes ++ [i])
  := by
  constructor
  · rw [range_succ_filter, if_pos hi, h.primes]
  · intro k hk
    rw [hflags, h.flags k hk]
    constructor
    · rintro ⟨⟨htwo, hnone⟩, hout⟩
      use htwo
      intro p hp hprime hsq hdvd
      rcases Nat.lt_succ_iff_lt_or_eq.mp hp with hlt | rfl
      · apply hnone p hlt hprime hsq hdvd
      · apply hout ⟨hsq, hk, hdvd⟩
    · rintro ⟨htwo, hnone⟩
      refine ⟨⟨htwo, fun p hp => hnone p (Nat.lt_succ_of_lt hp)⟩, ?_⟩
      rintro ⟨hsq, -, hdvd⟩
      apply hnone i (Nat.lt_succ_self i) hi hsq hdvd

/-- The turn of a composite number. -/
theorem Sieved.composite {limit i : ℕ} {m : Flags W} {primes : List ℕ}
    (h : Sieved limit i m primes) (hi : ¬ i.Prime) :
  Sieved limit (i + 1) m primes
  := by
  constructor
  · rw [range_succ_filter, if_neg hi, List.append_nil, h.primes]
  · intro k hk
    rw [h.flags k hk]
    apply and_congr_right
    intro _
    constructor
    · intro hnone p hp hprime
      rcases Nat.lt_succ_iff_lt_or_eq.mp hp with hlt | rfl
      · apply hnone p hlt hprime
      · cases hi hprime
    · intro hnone p hp
      apply hnone p (Nat.lt_succ_of_lt hp)

theorem initFrom_eq (hW : 0 < W) {limit : ℕ} (hwrap : limit * limit + limit < 2 ^ 32)
    {fuel : ℕ} :
  ∀ {i : ℕ} {m : Flags W} {primes : List ℕ}, Sieved limit i m primes → 2 ≤ i → i ≤ limit + 1 →
    limit + 1 - i < fuel →
    initFrom limit fuel i m primes = some ((List.range (limit + 1)).filter Nat.Prime)
  := by
  induction fuel with
  | zero =>
      intro i m primes _ _ _ hfuel
      cases Nat.not_lt_zero _ hfuel
  | succ fuel ih =>
      intro i m primes h hi hle hfuel
      rw [initFrom]
      by_cases hlimit : i ≤ limit
      · have hsquare : i * i ≤ limit * limit := Nat.mul_le_mul hlimit hlimit
        have hlinear : limit ≤ limit * limit := Nat.le_mul_self limit
        have hflag := h.flag_iff hi hlimit
        rw [if_pos hlimit, u32_of_lt (by omega : i + 1 < 2 ^ 32)]
        by_cases hprime : i.Prime
        · obtain ⟨m', hcross, hflags⟩ := crossOut_multiples hW (Nat.pos_of_ne_zero (by omega))
            (by omega : limit + i < 2 ^ 32) (by omega : i * i < 2 ^ 32) m
          rw [if_pos (hflag.mpr hprime), hcross, Option.bind_some]
          apply ih (h.prime hprime hflags)
          all_goals omega
        · rw [if_neg (hflag.not.mpr hprime)]
          apply ih (h.composite hprime)
          all_goals omega
      · rw [if_neg hlimit, h.primes, show i = limit + 1 by omega]

/-- `init_prime` finds the primes up to the limit. -/
theorem initPrime_eq (hW : 0 < W) {limit : ℕ} (hlimit : 1 ≤ limit)
    (hwrap : limit * limit + limit < 2 ^ 32) :
  initPrime W limit = some ((List.range (limit + 1)).filter Nat.Prime)
  := by
  apply initFrom_eq hW hwrap _ le_rfl (by omega) (by omega)
  constructor
  · rfl
  · intro k _
    rw [flag_initFlags hW, decide_eq_true_eq]
    constructor
    · intro htwo
      use htwo
      intro p hp hprime
      exact absurd hp hprime.two_le.not_gt
    · rintro ⟨htwo, -⟩
      apply htwo

/-! ### The flags of one thread -/

theorem crossOutAll_flags (hW : 0 < W) {bound : ℕ} {primes : List ℕ} :
  ∀ {m : Flags W}, (∀ p ∈ primes, 0 < p ∧ p * p < 2 ^ 32 ∧ bound + p < 2 ^ 32) →
    ∃ m', crossOutAll bound primes m = some m' ∧ ∀ k, m'.flag k = true
      ↔ m.flag k = true ∧ ∀ p ∈ primes, ¬ (p * p ≤ k ∧ k ≤ bound ∧ p ∣ k)
  := by
  induction primes with
  | nil =>
      intro m _
      use m, rfl
      simp
  | cons p primes ih =>
      intro m hprimes
      obtain ⟨⟨hpos, hsquare, hwrap⟩, hrest⟩ := List.forall_mem_cons.mp hprimes
      obtain ⟨m₁, hcross, hflags₁⟩ := crossOut_multiples hW hpos hwrap hsquare m
      obtain ⟨m', hall, hflags⟩ := ih (m := m₁) hrest
      refine ⟨m', ?_, ?_⟩
      · rw [crossOutAll, hcross, Option.bind_some, hall]
      · intro k
        rw [hflags, hflags₁, List.forall_mem_cons, and_assoc]

/-- If the primes are primes, among them all with a square up to the bound, one thread
leaves the flags of the primes set. -/
theorem singleThread_flags (hW : 0 < W) {bound : ℕ} {primes : List ℕ}
    (hprimes : ∀ p ∈ primes, p.Prime ∧ p * p < 2 ^ 32 ∧ bound + p < 2 ^ 32)
    (hroot : ∀ p, p.Prime → p * p ≤ bound → p ∈ primes) :
  ∃ m, singleThread W bound primes = some m ∧
    ∀ k ≤ bound, m.flag k = true ↔ k.Prime
  := by
  obtain ⟨m, hall, hflags⟩ := crossOutAll_flags hW (m := initFlags W)
    (fun p hp => ⟨(hprimes p hp).1.pos, (hprimes p hp).2⟩)
  use m, hall
  intro k hk
  rw [hflags, flag_initFlags hW, decide_eq_true_eq]
  constructor
  · rintro ⟨htwo, hnone⟩
    by_contra hcomposite
    obtain ⟨p, hp, hsq, hdvd⟩ := exists_prime_sq_le htwo hcomposite
    apply hnone p (hroot p hp (hsq.trans hk)) ⟨hsq, hk, hdvd⟩
  · intro hprime
    use hprime.two_le
    rintro p hp ⟨hsq, -, hdvd⟩
    apply not_prime_of_sq_le (hprimes p hp).1 hsq hdvd hprime

end Sieve

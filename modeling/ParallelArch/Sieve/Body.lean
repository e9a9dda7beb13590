import ParallelArch.Sieve.SingleThread

/-!
# The body of the parallel sieve

`find_primes_tbb` hands half-open ranges to a body that crosses out the multiples of every
prime within its range.  The start is computed in `uint32_t` and kept in an `int`.
-/

namespace Sieve

/-- An `int`. -/
def s32 (x : ℤ) : ℤ := Int.bmod x (2 ^ 32)

/-- An `int` as the index of a `std::vector`. -/
def sizeT (x : ℤ) : ℕ := (x % 2 ^ 64).toNat

/-- `std::max(p * p, ((r.begin() + p - 1) / p) * p)`. -/
def start (p b : ℕ) : ℤ :=
  s32 (max (u32 (p * p)) (u32 (u32 (u32 (b + p) + (2 ^ 32 - 1)) / p * p)) : ℕ)

/-- The indices at which `for (int j = ...; j < r.end(); j += p)` clears a flag. -/
def indicesFrom (p e : ℕ) : ℕ → ℤ → Option (List ℕ)
  | 0, _ => none
  | fuel + 1, j =>
      if j < e then (indicesFrom p e fuel (s32 (j + p))).map fun js => sizeT j :: js
      else some []

/-- The indices at which the body clears a flag, in this order. -/
def body (b e : ℕ) : List ℕ → Option (List ℕ)
  | [] => some []
  | p :: primes =>
      (indicesFrom p e (e + 1) (start p b)).bind fun js => (body b e primes).map fun ks => js ++ ks

/-! ### Without overflow -/

theorem s32_of_lt {n : ℕ} (h : n < 2 ^ 31) :
  s32 n = n
  := by
  apply Int.bmod_eq_of_le
  · push_cast
    omega
  · push_cast
    omega

theorem sizeT_of_lt {n : ℕ} (h : n < 2 ^ 31) :
  sizeT n = n
  := by
  rw [sizeT, Int.emod_eq_of_lt (by omega) (by omega)]
  rfl

theorem start_eq {p b : ℕ} (hsquare : p * p < 2 ^ 31) (hb : b + p < 2 ^ 31) :
  start p b = (max (p * p) ((b + p - 1) / p * p) : ℕ)
  := by
  have hround : (b + p - 1) / p * p ≤ b + p - 1 := Nat.div_mul_le_self _ _
  have hmax : max (p * p) ((b + p - 1) / p * p) < 2 ^ 31 := by
    apply Nat.max_lt.mpr
    omega
  rcases Nat.eq_zero_or_pos p with rfl | hp
  · simp [start, u32, s32]
  · have hpred : u32 (u32 (b + p) + (2 ^ 32 - 1)) = b + p - 1 := by
      simp only [u32]
      omega
    rw [start, hpred, u32_of_lt (by omega), u32_of_lt (by omega), s32_of_lt hmax]

/-- The loop clears `j`, `j + p`, ... below the end of the range. -/
theorem mem_indicesFrom {p e : ℕ} (hp : 0 < p) (hwrap : e + p < 2 ^ 31) :
  ∀ {fuel j : ℕ}, e - j < fuel → ∃ js, indicesFrom p e fuel j = some js ∧
    ∀ k, k ∈ js ↔ j ≤ k ∧ k < e ∧ p ∣ k - j
  := by
  intro fuel
  induction fuel with
  | zero =>
      intro j hfuel
      cases Nat.not_lt_zero _ hfuel
  | succ fuel ih =>
      intro j hfuel
      rw [indicesFrom]
      by_cases hj : j < e
      · obtain ⟨js, hindices, hmem⟩ := ih (j := j + p) (by omega)
        rw [if_pos (by exact_mod_cast hj), ← Int.natCast_add, s32_of_lt (by omega), hindices,
          sizeT_of_lt (by omega)]
        refine ⟨j :: js, rfl, ?_⟩
        intro k
        rw [List.mem_cons, hmem, progression_within (P := fun k => k < e) hp hj]
      · rw [if_neg (by exact_mod_cast hj)]
        refine ⟨[], rfl, ?_⟩
        intro k
        apply iff_of_false List.not_mem_nil
        rintro ⟨hle, hlt, -⟩
        apply hj (hle.trans_lt hlt)

/-- The first multiple of `p` that is not below `b` and not below the square. -/
theorem start_le_iff {p b k : ℕ} (hp : 0 < p) (hdvd : p ∣ k) :
  max (p * p) ((b + p - 1) / p * p) ≤ k ↔ p * p ≤ k ∧ b ≤ k
  := by
  obtain ⟨q, rfl⟩ := hdvd
  have hround : (b + p - 1) / p * p ≤ p * q ↔ b ≤ p * q := by
    rw [Nat.mul_comm p q, Nat.mul_le_mul_right_iff hp, Nat.div_le_iff_le_mul_add_pred hp,
      Nat.mul_comm q p]
    omega
  rw [Nat.max_le, hround]

/-- The numbers from the start on, in steps of `p`, are the multiples of `p` from `b` and from
the square on. -/
theorem start_progression {p b k : ℕ} (hp : 0 < p) :
  max (p * p) ((b + p - 1) / p * p) ≤ k ∧ p ∣ k - max (p * p) ((b + p - 1) / p * p)
    ↔ b ≤ k ∧ p * p ≤ k ∧ p ∣ k
  := by
  have hmultiple : p ∣ max (p * p) ((b + p - 1) / p * p) := by
    rcases Nat.le_total (p * p) ((b + p - 1) / p * p) with hle | hle
    · rw [Nat.max_eq_right hle]
      apply Nat.dvd_mul_left
    · rw [Nat.max_eq_left hle]
      apply Nat.dvd_mul_right
  constructor
  · rintro ⟨hle, hdvd⟩
    have hk := (Nat.dvd_sub_iff_left hle hmultiple).mp hdvd
    obtain ⟨hsquare, hb⟩ := (start_le_iff hp hk).mp hle
    use hb, hsquare
  · rintro ⟨hb, hsquare, hk⟩
    have hle := (start_le_iff (b := b) hp hk).mpr ⟨hsquare, hb⟩
    use hle
    apply (Nat.dvd_sub_iff_left hle hmultiple).mpr hk

/-- The body clears the multiples in its range, from the squares on. -/
theorem mem_body {b e : ℕ} {primes : List ℕ} :
  (∀ p ∈ primes, 0 < p ∧ p * p < 2 ^ 31 ∧ b + p < 2 ^ 31 ∧ e + p < 2 ^ 31) →
    ∃ js, body b e primes = some js ∧
      ∀ k, k ∈ js ↔ k < e ∧ ∃ p ∈ primes, b ≤ k ∧ p * p ≤ k ∧ p ∣ k
  := by
  induction primes with
  | nil =>
      intro _
      use [], rfl
      simp
  | cons p primes ih =>
      intro hprimes
      obtain ⟨⟨hp, hsquare, hb, he⟩, hrest⟩ := List.forall_mem_cons.mp hprimes
      have hfuel : e - max (p * p) ((b + p - 1) / p * p) < e + 1 := by omega
      obtain ⟨js, hindices, hmem⟩ := mem_indicesFrom hp he hfuel
      obtain ⟨ks, hbody, hmem'⟩ := ih hrest
      use js ++ ks
      constructor
      · rw [body, start_eq hsquare hb, hindices, hbody]
        rfl
      · intro k
        simp only [List.mem_append, hmem, hmem', List.mem_cons, exists_eq_or_imp, and_or_left]
        rw [and_left_comm, start_progression hp]

/-- With the primes with a square up to `N`, the body clears the composite numbers in its range. -/
theorem body_composites {N : ℕ} {primes : List ℕ}
    (hprimes : ∀ p ∈ primes, p.Prime ∧ p * p < 2 ^ 31 ∧ N + 1 + p < 2 ^ 31)
    (hroot : ∀ p, p.Prime → p * p ≤ N → p ∈ primes) {b e : ℕ} (hb : 2 ≤ b) (hbe : b ≤ e)
    (he : e ≤ N + 1) :
  ∃ js, body b e primes = some js ∧ ∀ k, k ∈ js ↔ b ≤ k ∧ k < e ∧ ¬ k.Prime
  := by
  have hbounds : ∀ p ∈ primes, 0 < p ∧ p * p < 2 ^ 31 ∧ b + p < 2 ^ 31 ∧ e + p < 2 ^ 31 := by
    intro p hp
    obtain ⟨hpp, hsquare, hwrap⟩ := hprimes p hp
    use hpp.pos, hsquare
    omega
  obtain ⟨js, hbody, hmem⟩ := mem_body hbounds
  use js, hbody
  intro k
  rw [hmem]
  constructor
  · rintro ⟨hk, p, hp, hbk, hsquare, hdvd⟩
    use hbk, hk, not_prime_of_sq_le (hprimes p hp).1 hsquare hdvd
  · rintro ⟨hbk, hk, hcomposite⟩
    obtain ⟨p, hp, hsquare, hdvd⟩ := exists_prime_sq_le (hb.trans hbk) hcomposite
    use hk, p, hroot p hp (by omega), hbk, hsquare

end Sieve

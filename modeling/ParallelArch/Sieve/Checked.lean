import ParallelArch.Sieve.Body

/-!
# The sieves with checked arithmetic

The loops of the sieves once more, with arithmetic that fails where a `uint32_t` wraps around or
where an `int` does not keep its value.  Within the bounds the program relies on, no check
fails: the checked loops are the loops of the program.
-/

namespace Sieve.Checked

variable {W : ℕ}

/-! ### The checked loops -/

/-- A value of type `uint32_t`, unless it wraps around. -/
def u32 (n : ℕ) : Option ℕ := if n < 2 ^ 32 then some n else none

/-- A value of type `int`, unless it overflows. -/
def s32 (n : ℕ) : Option ℕ := if n < 2 ^ 31 then some n else none

/-- `crossOut`, with `j += p` checked. -/
def crossOut (bound p : ℕ) : ℕ → ℕ → Flags W → Option (Flags W)
  | 0, _, _ => none
  | fuel + 1, j, m =>
      if j ≤ bound then (u32 (j + p)).bind fun j' => crossOut bound p fuel j' (m.clear j)
      else some m

/-- `initFrom`, with `i * i`, `j += i` and `++i` checked. -/
def initFrom (limit : ℕ) : ℕ → ℕ → Flags W → List ℕ → Option (List ℕ)
  | 0, _, _, _ => none
  | fuel + 1, i, m, primes =>
      if i ≤ limit then
        if m.flag i then
          (u32 (i * i)).bind fun j => (crossOut limit i (limit + 2) j m).bind fun m =>
            (u32 (i + 1)).bind fun i' => initFrom limit fuel i' m (primes ++ [i])
        else (u32 (i + 1)).bind fun i' => initFrom limit fuel i' m primes
      else some primes

/-- `initPrime`, checked. -/
def initPrime (W limit : ℕ) : Option (List ℕ) := initFrom limit (limit + 2) 2 (initFlags W) []

/-- `crossOutAll`, with `p * p` and `j += p` checked. -/
def crossOutAll (bound : ℕ) : List ℕ → Flags W → Option (Flags W)
  | [], m => some m
  | p :: primes, m =>
      (u32 (p * p)).bind fun j =>
        (crossOut bound p (bound + 2) j m).bind (crossOutAll bound primes)

/-- `singleThread`, checked. -/
def singleThread (W bound : ℕ) (primes : List ℕ) : Option (Flags W) :=
  crossOutAll bound primes (initFlags W)

/-- `start`, with every operation checked.  The difference and the quotient need `p` to be
positive. -/
def start (p b : ℕ) : Option ℕ :=
  if 0 < p then
    (u32 (p * p)).bind fun square => (u32 (b + p)).bind fun sum =>
      (u32 ((sum - 1) / p * p)).bind fun rounded => s32 (max square rounded)
  else none

/-- `indicesFrom`, with `j += p` checked. -/
def indicesFrom (p e : ℕ) : ℕ → ℕ → Option (List ℕ)
  | 0, _ => none
  | fuel + 1, j =>
      if j < e then
        (s32 (j + p)).bind fun j' => (indicesFrom p e fuel j').map fun js => j :: js
      else some []

/-- `body`, checked. -/
def body (b e : ℕ) : List ℕ → Option (List ℕ)
  | [] => some []
  | p :: primes =>
      (start p b).bind fun j => (indicesFrom p e (e + 1) j).bind fun js =>
        (body b e primes).map fun ks => js ++ ks

/-! ### No check fails -/

theorem u32_of_lt {n : ℕ} (h : n < 2 ^ 32) :
  u32 n = some n
  := if_pos h

theorem s32_of_lt {n : ℕ} (h : n < 2 ^ 31) :
  s32 n = some n
  := if_pos h

theorem crossOut_eq {bound p : ℕ} (hwrap : bound + p < 2 ^ 32) {fuel : ℕ} :
  ∀ (j : ℕ) (m : Flags W), crossOut bound p fuel j m = Sieve.crossOut bound p fuel j m
  := by
  induction fuel with
  | zero =>
      intro j m
      rfl
  | succ fuel ih =>
      intro j m
      rw [crossOut, Sieve.crossOut]
      by_cases hj : j ≤ bound
      · have hnext : j + p < 2 ^ 32 := by omega
        rw [if_pos hj, if_pos hj, u32_of_lt hnext, Sieve.u32_of_lt hnext, Option.bind_some, ih]
      · rw [if_neg hj, if_neg hj]

theorem initFrom_eq {limit : ℕ} (hwrap : limit * limit + limit < 2 ^ 32) {fuel : ℕ} :
  ∀ (i : ℕ) (m : Flags W) (primes : List ℕ),
    initFrom limit fuel i m primes = Sieve.initFrom limit fuel i m primes
  := by
  induction fuel with
  | zero =>
      intro i m primes
      rfl
  | succ fuel ih =>
      intro i m primes
      rw [initFrom, Sieve.initFrom]
      by_cases hi : i ≤ limit
      · have hsquare : i * i ≤ limit * limit := Nat.mul_le_mul hi hi
        have hlinear : limit ≤ limit * limit := Nat.le_mul_self limit
        have hnext : u32 (i + 1) = some (i + 1) := u32_of_lt (by omega)
        have hcross : ∀ j, crossOut limit i (limit + 2) j m
            = Sieve.crossOut limit i (limit + 2) j m := by
          intro j
          apply crossOut_eq
          omega
        rw [if_pos hi, if_pos hi, u32_of_lt (by omega : i * i < 2 ^ 32), hnext,
          Sieve.u32_of_lt (by omega : i * i < 2 ^ 32), Sieve.u32_of_lt (by omega : i + 1 < 2 ^ 32)]
        simp only [Option.bind_some, hcross, ih]
      · rw [if_neg hi, if_neg hi]

/-- No step of `init_prime` wraps around. -/
theorem initPrime_eq {limit : ℕ} (hwrap : limit * limit + limit < 2 ^ 32) :
  initPrime W limit = Sieve.initPrime W limit
  := initFrom_eq hwrap _ _ _

theorem crossOutAll_eq {bound : ℕ} {primes : List ℕ} :
  ∀ (m : Flags W), (∀ p ∈ primes, p * p < 2 ^ 32 ∧ bound + p < 2 ^ 32) →
    crossOutAll bound primes m = Sieve.crossOutAll bound primes m
  := by
  induction primes with
  | nil =>
      intro m _
      rfl
  | cons p primes ih =>
      intro m hprimes
      obtain ⟨⟨hsquare, hwrap⟩, hrest⟩ := List.forall_mem_cons.mp hprimes
      rw [crossOutAll, Sieve.crossOutAll, u32_of_lt hsquare, Sieve.u32_of_lt hsquare,
        Option.bind_some, crossOut_eq hwrap]
      congr 1
      funext m'
      apply ih m' hrest

/-- No step of one thread wraps around. -/
theorem singleThread_eq {bound : ℕ} {primes : List ℕ}
    (hprimes : ∀ p ∈ primes, p * p < 2 ^ 32 ∧ bound + p < 2 ^ 32) :
  singleThread W bound primes = Sieve.singleThread W bound primes
  := crossOutAll_eq _ hprimes

theorem start_eq {p b : ℕ} (hp : 0 < p) (hsquare : p * p < 2 ^ 31) (hb : b + p < 2 ^ 31) :
  start p b = some (max (p * p) ((b + p - 1) / p * p))
  := by
  have hround : (b + p - 1) / p * p ≤ b + p - 1 := Nat.div_mul_le_self _ _
  rw [start, if_pos hp, u32_of_lt (by omega), u32_of_lt (by omega)]
  simp only [Option.bind_some]
  rw [u32_of_lt (by omega), Option.bind_some, s32_of_lt (Nat.max_lt.mpr (by omega))]

theorem indicesFrom_eq {p e : ℕ} (hwrap : e + p < 2 ^ 31) {fuel : ℕ} :
  ∀ j : ℕ, indicesFrom p e fuel j = Sieve.indicesFrom p e fuel j
  := by
  induction fuel with
  | zero =>
      intro j
      rfl
  | succ fuel ih =>
      intro j
      rw [indicesFrom, Sieve.indicesFrom]
      by_cases hj : j < e
      · have hnext : j + p < 2 ^ 31 := by omega
        rw [if_pos hj, if_pos (by exact_mod_cast hj), ← Int.natCast_add, s32_of_lt hnext,
          Sieve.s32_of_lt hnext, sizeT_of_lt (by omega), Option.bind_some, ih]
      · rw [if_neg hj, if_neg (by exact_mod_cast hj)]

/-- No step of the body wraps around or overflows. -/
theorem body_eq {b e : ℕ} {primes : List ℕ} :
  (∀ p ∈ primes, 0 < p ∧ p * p < 2 ^ 31 ∧ b + p < 2 ^ 31 ∧ e + p < 2 ^ 31) →
    body b e primes = Sieve.body b e primes
  := by
  induction primes with
  | nil =>
      intro _
      rfl
  | cons p primes ih =>
      intro hprimes
      obtain ⟨⟨hp, hsquare, hb, he⟩, hrest⟩ := List.forall_mem_cons.mp hprimes
      rw [body, Sieve.body, start_eq hp hsquare hb, Sieve.start_eq hsquare hb, Option.bind_some,
        indicesFrom_eq he, ih hrest]

end Sieve.Checked

import Mathlib.Data.Nat.ModEq
import Mathlib.Data.Int.ModEq

/-!
# What the queues share

The calls both queues answer and what an ideal queue answers to them, the arithmetic of
`size_t`, and the slots of a ring.

`SizeT` collects the operations on `size_t` that depend on the width of the type, so that
the same code can be read over 64 bits and over unbounded numbers.
-/

/-- A call to a queue. -/
inductive QueueCall (T : Type*) where
  | add (item : T)
  | remove
deriving DecidableEq

/-- What an ideal queue of capacity `c` that holds `q` answers to a sequence of calls:
nothing to an add, its item to a remove.  The first call that has to wait ends the
sequence. -/
def QueueCall.answers {T : Type*} (c : ℕ) : List T → List (QueueCall T) → List (Option T)
  | _, [] => []
  | q, .add item :: calls =>
      if q.length < c then none :: answers c (q ++ [item]) calls else []
  | [], .remove :: _ => []
  | out :: q, .remove :: calls => some out :: answers c q calls

/-- What an ideal queue of capacity `c` that holds `q` holds after a call, if the call does not
have to wait. -/
def QueueCall.after {T : Type*} (c : ℕ) (q : List T) : QueueCall T → Option (List T)
  | .add item => if q.length < c then some (q ++ [item]) else none
  | .remove =>
      match q with
      | [] => none
      | _ :: q => some q

/-- The arithmetic of `size_t`: bringing a sum into range, and the signed difference
`(intptr_t)seq - (intptr_t)pos`. -/
structure SizeT where
  wrap : ℕ → ℕ
  dif : ℕ → ℕ → ℤ

namespace SizeT

/-- Arithmetic modulo `2^64`, the difference in two's complement. -/
def bits64 : SizeT where
  wrap n := n % 2 ^ 64
  dif seq pos := Int.bmod ((seq : ℤ) - pos) (2 ^ 64)

/-- Arithmetic without a bound. -/
def unbounded : SizeT where
  wrap n := n
  dif seq pos := (seq : ℤ) - pos

theorem bits64_wrap {n : ℕ} (h : n < 2 ^ 64) :
  bits64.wrap n = n
  := Nat.mod_eq_of_lt h

theorem bits64_wrap_mod_add (a b : ℕ) :
  bits64.wrap (a % 2 ^ 64 + b) = (a + b) % 2 ^ 64
  := Nat.mod_add_mod a (2 ^ 64) b

/-- Adding `2^64 - 1` is subtracting one, unless the number is zero. -/
theorem bits64_wrap_pred {n : ℕ} (hpos : 0 < n) (h : n < 2 ^ 64) :
  bits64.wrap (n + (2 ^ 64 - 1)) = n - 1
  := by
  simp only [bits64]
  omega

theorem bits64_dif {seq pos : ℕ} (hseq : seq < 2 ^ 63) (hpos : pos ≤ 2 ^ 63) :
  bits64.dif seq pos = unbounded.dif seq pos
  := by
  apply Int.bmod_eq_of_le
  · push_cast
    omega
  · push_cast
    omega

/-- The difference is zero if the numbers are the same `size_t`. -/
theorem bits64_dif_eq_zero {seq pos : ℕ} :
  bits64.dif seq pos = 0 ↔ seq ≡ pos [MOD 2 ^ 64]
  := by
  calc bits64.dif seq pos = 0 ↔ ((2 ^ 64 : ℕ) : ℤ) ∣ seq - pos := Int.dvd_iff_bmod_eq_zero.symm
    _ ↔ pos ≡ seq [MOD 2 ^ 64] := Nat.modEq_iff_dvd.symm
    _ ↔ seq ≡ pos [MOD 2 ^ 64] := Nat.ModEq.comm

end SizeT

/-- Numbers less than a lap apart work on different slots of a ring. -/
theorem slot_ne {c k a : ℕ} (hlt : k < a) (hlap : a < k + c) :
  a % c ≠ k % c
  := by
  intro h
  have hdvd := (Nat.modEq_iff_dvd' (Nat.le_of_lt hlt)).mp h.symm
  have := Nat.le_of_dvd (Nat.sub_pos_of_lt hlt) hdvd
  omega

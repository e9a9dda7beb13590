import Mathlib.Data.Finset.Card
import Mathlib.Data.Finset.Range
import Mathlib.Data.Nat.ModEq

/-!
# Linear probing

A ring of `n` places, each vacant or holding a key with its value.  The search for a key
starts at its `home` and goes on from place to place until it meets the key or a vacant
place.  `Table n home slots f` says that the places `slots` hold the finite map `f` so that
every search that ends, ends in the right place; writing a key where its search ends keeps
this (`Table.insert`).  A search ends unless every place is taken (`scan_eq_none`).
-/

namespace Probing

variable {κ ν : Type*} {n : ℕ}

/-! ### Scans -/

/-- The first place from `i` on where `stop` holds, among the next `fuel` places. -/
def scan (n : ℕ) (stop : ℕ → Bool) : ℕ → ℕ → Option ℕ
  | 0, _ => none
  | fuel + 1, i => if stop (i % n) then some (i % n) else scan n stop fuel (i + 1)

/-- A scan depends on the place it starts from only. -/
theorem scan_modEq {stop : ℕ → Bool} {fuel i i' : ℕ} (h : i ≡ i' [MOD n]) :
  scan n stop fuel i = scan n stop fuel i'
  := by
  induction fuel generalizing i i' with
  | zero => rfl
  | succ fuel ih =>
      have hmod : i % n = i' % n := h
      simp only [scan, hmod, ih (h.add_right 1)]

theorem scan_eq_some {stop : ℕ → Bool} {fuel i j : ℕ} (h : scan n stop fuel i = some j) :
  ∃ d, d < fuel ∧ (i + d) % n = j ∧ stop j = true ∧ ∀ e, e < d → stop ((i + e) % n) = false
  := by
  induction fuel generalizing i with
  | zero => cases h
  | succ fuel ih =>
      simp only [scan] at h
      split_ifs at h with hstop
      · cases h
        exact ⟨0, Nat.succ_pos _, rfl, hstop, fun e he => absurd he (Nat.not_lt_zero e)⟩
      · obtain ⟨d, hd, hj, hstop', hbefore⟩ := ih h
        refine ⟨d + 1, Nat.succ_lt_succ hd, ?_, hstop', ?_⟩
        · rw [← hj, Nat.add_right_comm, Nat.add_assoc]
        · intro e he
          cases e with
          | zero => simpa using hstop
          | succ e =>
              have := hbefore e (Nat.lt_of_succ_lt_succ he)
              rwa [Nat.add_assoc, Nat.add_comm 1] at this

theorem scan_eq_none_of_forall {stop : ℕ → Bool} {fuel i : ℕ} :
  scan n stop fuel i = none ↔ ∀ d, d < fuel → stop ((i + d) % n) = false
  := by
  induction fuel generalizing i with
  | zero => simp [scan]
  | succ fuel ih =>
      simp only [scan]
      split_ifs with hstop
      · simp only [false_iff]
        intro hall
        have := hall 0 (Nat.succ_pos _)
        rw [Nat.add_zero, hstop] at this
        cases this
      · rw [ih]
        constructor
        · intro hall d hd
          cases d with
          | zero => simpa using hstop
          | succ d =>
              have := hall d (Nat.lt_of_succ_lt_succ hd)
              rwa [Nat.add_assoc, Nat.add_comm 1] at this
        · intro hall d hd
          have := hall (d + 1) (Nat.succ_lt_succ hd)
          rwa [Nat.add_comm d 1, ← Nat.add_assoc] at this

/-- Every place of the ring is met within `n` places. -/
theorem exists_offset (i : ℕ) {j : ℕ} (hj : j < n) :
  ∃ d, d < n ∧ (i + d) % n = j
  := by
  have hn : 0 < n := Nat.zero_lt_of_lt hj
  have hi := Nat.mod_lt i hn
  use (j + (n - i % n)) % n, Nat.mod_lt _ hn
  rw [Nat.add_mod_mod, ← Nat.mod_add_mod, show i % n + (j + (n - i % n)) = j + n by omega,
    Nat.add_mod_right, Nat.mod_eq_of_lt hj]

/-- A scan of the whole ring fails if it may stop nowhere. -/
theorem scan_eq_none {stop : ℕ → Bool} (hn : 0 < n) (i : ℕ) :
  scan n stop n i = none ↔ ∀ j, j < n → stop j = false
  := by
  rw [scan_eq_none_of_forall]
  constructor
  · intro hall j hj
    obtain ⟨d, hd, rfl⟩ := exists_offset i hj
    apply hall d hd
  · intro hall d _
    apply hall _ (Nat.mod_lt _ hn)

/-! ### Tables -/

variable [DecidableEq κ]

/-- The search for `k` ends in a place that holds it or is vacant. -/
def stops (slots : ℕ → Option (κ × ν)) (k : κ) (i : ℕ) : Bool :=
  match slots i with
  | none => true
  | some e => e.1 = k

/-- The places hold the map `f`, each key once and with no vacant place between its home and
its place. -/
structure Table (n : ℕ) (home : κ → ℕ) (slots : ℕ → Option (κ × ν)) (f : κ → Option ν) :
    Prop where
  path : ∀ i k v, i < n → slots i = some (k, v) →
    ∃ d, d < n ∧ (home k + d) % n = i ∧ ∀ e, e < d → slots ((home k + e) % n) ≠ none
  once : ∀ i j k v w, i < n → j < n → slots i = some (k, v) → slots j = some (k, w) → i = j
  holds : ∀ k v, f k = some v ↔ ∃ i, i < n ∧ slots i = some (k, v)

/-- The number of places taken. -/
def taken (n : ℕ) (slots : ℕ → Option (κ × ν)) : ℕ :=
  ((Finset.range n).filter fun i => (slots i).isSome).card

section Table

variable {home : κ → ℕ} {slots : ℕ → Option (κ × ν)} {f : κ → Option ν} {k : κ}

omit [DecidableEq κ] in
theorem Table.empty :
  Table n home (fun _ => (none : Option (κ × ν))) (fun _ => none)
  := by
  constructor
  · rintro i k v - ⟨⟩
  · rintro i j k v w - - ⟨⟩
  · simp

omit [DecidableEq κ] in
theorem taken_empty :
  taken n (fun _ => (none : Option (κ × ν))) = 0
  := by simp [taken]

/-- Where the search for a key ends: at the key, or at a vacant place if the map does not have
the key. -/
theorem Table.find (h : Table n home slots f) (hn : 0 < n) {j : ℕ}
    (hj : scan n (stops slots k) n (home k) = some j) :
  j < n ∧ slots j = (f k).map fun v => (k, v)
  := by
  obtain ⟨d, hd, rfl, hstop, hbefore⟩ := scan_eq_some hj
  have hlt : (home k + d) % n < n := Nat.mod_lt _ hn
  use hlt
  cases hslot : slots ((home k + d) % n) with
  | none =>
      cases hf : f k with
      | none => rfl
      | some v =>
          obtain ⟨i, hi, hheld⟩ := (h.holds k v).mp hf
          obtain ⟨d', hd', rfl, hpath⟩ := h.path i k v hi hheld
          rcases Nat.lt_trichotomy d d' with hlt | rfl | hgt
          · cases hpath d hlt hslot
          · rw [hslot] at hheld
            cases hheld
          · have := hbefore d' hgt
            simp [stops, hheld] at this
  | some e =>
      obtain ⟨k', v⟩ := e
      simp only [stops, hslot, decide_eq_true_eq] at hstop
      subst hstop
      rw [(h.holds k' v).mpr ⟨_, hlt, hslot⟩]
      rfl

/-- Writing a key with a value where the search for the key ends. -/
theorem Table.insert (h : Table n home slots f) (hn : 0 < n) {j : ℕ}
    (hj : scan n (stops slots k) n (home k) = some j) (v : ν) :
  Table n home (Function.update slots j (some (k, v))) (Function.update f k (some v))
  := by
  obtain ⟨hlt, hslot⟩ := h.find hn hj
  obtain ⟨d, hd, hdj, -, hbefore⟩ := scan_eq_some hj
  -- the key is held nowhere but, perhaps, at `j`
  have only : ∀ i w, i < n → slots i = some (k, w) → i = j := by
    intro i w hi hw
    rw [(h.holds k w).mpr ⟨i, hi, hw⟩] at hslot
    apply h.once i j k w w hi hlt hw hslot
  have taken' : ∀ i, slots i ≠ none → Function.update slots j (some (k, v)) i ≠ none := by
    intro i hi
    by_cases hij : i = j
    · subst hij
      simp
    · rwa [Function.update_of_ne hij]
  constructor
  · intro i k' v' hi hheld
    by_cases hij : i = j
    · subst hij
      rw [Function.update_self] at hheld
      cases hheld
      refine ⟨d, hd, hdj, ?_⟩
      intro e he
      apply taken'
      intro hnone
      have := hbefore e he
      simp [stops, hnone] at this
    · rw [Function.update_of_ne hij] at hheld
      obtain ⟨d', hd', hd'i, hpath⟩ := h.path i k' v' hi hheld
      exact ⟨d', hd', hd'i, fun e he => taken' _ (hpath e he)⟩
  · intro i i' k' v' w hi hi' hheld hheld'
    by_cases hij : i = j
    · by_cases hij' : i' = j
      · rw [hij, hij']
      · subst hij
        rw [Function.update_self] at hheld
        rw [Function.update_of_ne hij'] at hheld'
        cases hheld
        cases hij' (only i' w hi' hheld')
    · rw [Function.update_of_ne hij] at hheld
      by_cases hij' : i' = j
      · subst hij'
        rw [Function.update_self] at hheld'
        cases hheld'
        cases hij (only i v' hi hheld)
      · rw [Function.update_of_ne hij'] at hheld'
        apply h.once i i' k' v' w hi hi' hheld hheld'
  · intro k' v'
    by_cases hk : k' = k
    · subst hk
      rw [Function.update_self]
      constructor
      · rintro ⟨⟩
        use j, hlt
        rw [Function.update_self]
      · rintro ⟨i, hi, hheld⟩
        by_cases hij : i = j
        · subst hij
          rw [Function.update_self] at hheld
          cases hheld
          rfl
        · rw [Function.update_of_ne hij] at hheld
          cases hij (only i v' hi hheld)
    · rw [Function.update_of_ne hk, h.holds k' v']
      have hne : ∀ i, slots i = some (k', v') → i ≠ j := by
        rintro i hheld rfl
        rw [hslot, Option.map_eq_some_iff] at hheld
        obtain ⟨_, -, heq⟩ := hheld
        cases heq
        exact hk rfl
      constructor
      · rintro ⟨i, hi, hheld⟩
        use i, hi
        rw [Function.update_of_ne (hne i hheld), hheld]
      · rintro ⟨i, hi, hheld⟩
        use i, hi
        by_cases hij : i = j
        · subst hij
          rw [Function.update_self] at hheld
          cases hheld
          exact absurd rfl hk
        · rwa [Function.update_of_ne hij] at hheld

end Table

/-! ### Room -/

section Room

variable {slots : ℕ → Option (κ × ν)} {j : ℕ} {e : κ × ν}

omit [DecidableEq κ] in
theorem taken_update (hj : j < n) :
  taken n (Function.update slots j (some e)) = taken n slots + if slots j = none then 1 else 0
  := by
  have hupdate : (Finset.range n).filter (fun i => (Function.update slots j (some e) i).isSome)
      = insert j ((Finset.range n).filter fun i => (slots i).isSome) := by
    ext i
    by_cases hij : i = j
    · subst hij
      simp [hj]
    · simp [hij]
  rw [taken, hupdate, taken]
  split_ifs with hnone
  · rw [Finset.card_insert_of_notMem]
    simp [hnone]
  · rw [Finset.insert_eq_of_mem]
    · rfl
    · simpa [hj, Option.isSome_iff_ne_none] using hnone

omit [DecidableEq κ] in
theorem taken_succ (n : ℕ) (slots : ℕ → Option (κ × ν)) :
  taken (n + 1) slots = taken n slots + if slots n = none then 0 else 1
  := by
  rw [taken, Finset.range_add_one, Finset.filter_insert, taken]
  cases hslot : slots n with
  | none => simp
  | some e => simp

omit [DecidableEq κ] in
theorem taken_mono {m : ℕ} (h : m ≤ n) :
  taken m slots ≤ taken n slots
  := by
  apply Finset.card_le_card
  apply Finset.filter_subset_filter
  apply Finset.range_mono h

omit [DecidableEq κ] in
/-- A place is vacant if not all are taken. -/
theorem exists_vacant (h : taken n slots < n) :
  ∃ i, i < n ∧ slots i = none
  := by
  by_contra hfull
  push Not at hfull
  have hall : (Finset.range n).filter (fun i => (slots i).isSome) = Finset.range n := by
    apply Finset.filter_true_of_mem
    intro i hi
    apply Option.isSome_iff_ne_none.mpr (hfull i (Finset.mem_range.mp hi))
  rw [taken, hall, Finset.card_range] at h
  exact lt_irrefl _ h

/-- Every search ends if a place is vacant. -/
theorem exists_stop (h : taken n slots < n) (k : κ) (i : ℕ) :
  ∃ j, scan n (stops slots k) n i = some j
  := by
  obtain ⟨v, hv, hvacant⟩ := exists_vacant h
  apply Option.ne_none_iff_exists'.mp
  intro hnone
  have := (scan_eq_none (Nat.zero_lt_of_lt hv) i).mp hnone v hv
  simp [stops, hvacant] at this

end Room

end Probing

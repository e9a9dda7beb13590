import Mathlib.Data.List.GetD
import Mathlib.Order.Lattice

/-!
# Clock vectors

`ClockVector` has a clock for each of the first `num_threads` threads, and `0` for the others.
The constructor takes over the clocks of the parent and sets the one of its own thread; `merge`
is the elementwise maximum.
-/

/-- The array `clock`; `num_threads` is its length. -/
structure ClockVector where
  clock : List ℕ
deriving DecidableEq

namespace ClockVector

/-- `num_threads`. -/
def numThreads (cv : ClockVector) : ℕ := cv.clock.length

/-- `clock` with room for `num` threads. -/
def extend (cv : ClockVector) (num : ℕ) : List ℕ :=
  cv.clock ++ List.replicate (num - cv.numThreads) 0

/-- `ClockVector(parent, act)` for the action `act` of the thread `tid` with the sequence number
`seq`. -/
def new (parent : Option ClockVector) (tid seq : ℕ) : ClockVector :=
  match parent with
  | none => ⟨(List.replicate (tid + 1) 0).set tid seq⟩
  | some parent => ⟨(parent.extend (tid + 1)).set tid seq⟩

/-- One turn of the loop of `merge`. -/
def mergeAt (cv : ClockVector) (r : Bool × List ℕ) (i : ℕ) : Bool × List ℕ :=
  if cv.clock.getD i 0 > r.2.getD i 0 then (true, r.2.set i (cv.clock.getD i 0)) else r

/-- `merge`; whether a clock has changed. -/
def merge (this cv : ClockVector) : Bool × ClockVector :=
  let r := (List.range cv.numThreads).foldl (mergeAt cv) (false, this.extend cv.numThreads)
  (r.1, ⟨r.2⟩)

/-- Whether the action of `tid` with the sequence number `seq` is covered. -/
def synchronizedSince (this : ClockVector) (tid seq : ℕ) : Bool :=
  if tid < this.numThreads then seq ≤ this.clock.getD tid 0 else false

/-- `getClock`; a thread beyond `num_threads` has the clock `0`. -/
def getClock (this : ClockVector) (tid : ℕ) : ℕ :=
  if tid < this.numThreads then this.clock.getD tid 0 else 0

theorem getClock_eq (this : ClockVector) (tid : ℕ) :
  this.getClock tid = this.clock.getD tid 0
  := by
  rw [getClock]
  split_ifs with h
  · rfl
  · rw [List.getD_eq_default _ _ (Nat.le_of_not_lt h)]

/-- The clocks added are `0`. -/
theorem getD_extend (this : ClockVector) (num i : ℕ) :
  (this.extend num).getD i 0 = this.getClock i
  := by
  rw [getClock_eq, extend]
  by_cases h : i < this.clock.length
  · rw [List.getD_append _ _ _ _ h]
  · have hle : this.clock.length ≤ i := Nat.le_of_not_lt h
    rw [List.getD_append_right _ _ _ _ hle, List.getD_eq_default _ _ hle]
    simp

theorem length_extend (this : ClockVector) (num : ℕ) :
  num ≤ (this.extend num).length
  := by
  simp only [extend, numThreads, List.length_append, List.length_replicate]
  omega

theorem getD_set {l : List ℕ} {i : ℕ} (hi : i < l.length) (v t : ℕ) :
  (l.set i v).getD t 0 = if t = i then v else l.getD t 0
  := by
  rw [List.getD_eq_getElem?_getD, List.getElem?_set, List.getD_eq_getElem?_getD]
  by_cases ht : i = t
  · subst ht
    simp [hi]
  · simp [ht, Ne.symm ht]

/-- The clock of the own thread is set, the others are those of the parent. -/
theorem getClock_new (parent : Option ClockVector) (tid seq t : ℕ) :
  (new parent tid seq).getClock t
    = if t = tid then seq else (parent.map fun cv => cv.getClock t).getD 0
  := by
  rw [getClock_eq]
  cases parent with
  | none =>
      rw [new, getD_set (by simp)]
      split_ifs with ht
      · rfl
      · rw [List.getD_eq_getElem?_getD, List.getElem?_replicate]
        split_ifs
        · rfl
        · rfl
  | some parent =>
      rw [new, getD_set (Nat.lt_of_succ_le (parent.length_extend (tid + 1)))]
      split_ifs with ht
      · rfl
      · rw [getD_extend]
        rfl

/-- The loop of `merge` up to the thread `n`. -/
theorem merge_loop (this cv : ClockVector) {n : ℕ} (hn : n ≤ cv.numThreads) :
  ∃ changed clock, (List.range n).foldl (mergeAt cv) (false, this.extend cv.numThreads)
      = (changed, clock) ∧
    cv.numThreads ≤ clock.length ∧
    (∀ t, clock.getD t 0 = if t < n then max (this.getClock t) (cv.getClock t)
      else this.getClock t) ∧
    (changed = true ↔ ∃ t, t < n ∧ this.getClock t < cv.getClock t)
  := by
  induction n with
  | zero =>
      refine ⟨false, _, rfl, this.length_extend cv.numThreads, ?_, by simp⟩
      intro t
      rw [getD_extend, if_neg (Nat.not_lt_zero t)]
  | succ n ih =>
      obtain ⟨changed, clock, hfold, hlen, hclock, hchanged⟩ := ih (by omega)
      have hn' : clock.getD n 0 = this.getClock n := by
        rw [hclock, if_neg (Nat.lt_irrefl n)]
      rw [List.range_succ, List.foldl_append, hfold]
      simp only [List.foldl_cons, List.foldl_nil, mergeAt, hn', ← getClock_eq cv]
      have hcases : ∀ t, t < n + 1 ↔ t < n ∨ t = n := fun t => Nat.lt_succ_iff_lt_or_eq
      split_ifs with hlt
      · refine ⟨true, _, rfl, by simpa using hlen, ?_, ?_⟩
        · intro t
          rw [getD_set (by omega), hclock]
          by_cases ht : t = n
          · subst ht
            rw [if_pos rfl, if_pos (Nat.lt_succ_self t), Nat.max_eq_right hlt.le]
          · simp only [hcases, ht, or_false, if_false]
        · constructor
          · intro _
            exact ⟨n, Nat.lt_succ_self n, hlt⟩
          · intro _
            rfl
      · refine ⟨changed, clock, rfl, hlen, ?_, ?_⟩
        · intro t
          rw [hclock]
          by_cases ht : t = n
          · subst ht
            rw [if_neg (Nat.lt_irrefl t), if_pos (Nat.lt_succ_self t),
              Nat.max_eq_left (Nat.le_of_not_lt hlt)]
          · simp only [hcases, ht, or_false]
        · rw [hchanged]
          constructor
          · rintro ⟨t, ht, hlt'⟩
            exact ⟨t, ht.trans (Nat.lt_succ_self n), hlt'⟩
          · rintro ⟨t, ht, hlt'⟩
            rcases (hcases t).mp ht with hold | rfl
            · exact ⟨t, hold, hlt'⟩
            · cases hlt hlt'

/-- Beyond `num_threads`, all clocks are `0`. -/
theorem getClock_of_le {cv : ClockVector} {t : ℕ} (h : cv.numThreads ≤ t) :
  cv.getClock t = 0
  := by
  rw [getClock, if_neg]
  omega

/-- `merge` takes the larger clock of each thread. -/
theorem getClock_merge (this cv : ClockVector) (t : ℕ) :
  (this.merge cv).2.getClock t = max (this.getClock t) (cv.getClock t)
  := by
  obtain ⟨changed, clock, hfold, -, hclock, -⟩ := merge_loop this cv le_rfl
  rw [merge, hfold, getClock_eq]
  simp only [hclock]
  split_ifs with ht
  · rfl
  · rw [getClock_of_le (Nat.le_of_not_lt ht), Nat.max_zero]

/-- `merge` tells whether anything is new. -/
theorem merge_changed (this cv : ClockVector) :
  (this.merge cv).1 = true ↔ ∃ t, this.getClock t < cv.getClock t
  := by
  obtain ⟨changed, clock, hfold, -, -, hchanged⟩ := merge_loop this cv le_rfl
  rw [merge, hfold]
  simp only [hchanged]
  constructor
  · rintro ⟨t, -, hlt⟩
    exact ⟨t, hlt⟩
  · rintro ⟨t, hlt⟩
    refine ⟨t, ?_, hlt⟩
    by_contra hge
    rw [getClock_of_le (Nat.le_of_not_lt hge)] at hlt
    cases hlt

/-- An action of `tid` is covered if its sequence number is not beyond the clock. -/
theorem synchronizedSince_iff (this : ClockVector) {tid seq : ℕ} (hseq : 0 < seq) :
  this.synchronizedSince tid seq = true ↔ seq ≤ this.getClock tid
  := by
  rw [synchronizedSince, getClock]
  split_ifs with h
  · simp
  · simp
    omega

end ClockVector

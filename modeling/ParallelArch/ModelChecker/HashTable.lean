import Mathlib.Data.Nat.Bitwise
import ParallelArch.Containers.Probing

/-!
# The hash table of the model checker

`HashTable` keeps its bins in an array whose length is a power of two and looks for a key by
linear probing from `key >> _Shift` on.  The key `0` marks a vacant bin.  A put first doubles
the array if more than half of the bins are taken; `resize` reinserts all bins of the old
array, the vacant ones included.  An operation that gives `none` fails its assertion or never
returns.
-/

/-- A bin. -/
structure HashListNode (V : Type*) where
  key : ℕ
  val : V

/-- The fields of the table.  The load factor is the default `0.5`. -/
structure HashTable (V : Type*) where
  table : ℕ → HashListNode V
  capacity : ℕ
  size : ℕ
  capacitymask : ℕ
  threshold : ℕ

namespace HashTable

variable {V : Type*} [Zero V]

/-- The bins as `calloc` and `memset` leave them. -/
def zeroed : ℕ → HashListNode V := fun _ => ⟨0, 0⟩

/-- `HashTable(initialcapacity)`. -/
def new (initialcapacity : ℕ) : HashTable V where
  table := zeroed
  capacity := initialcapacity
  size := 0
  capacitymask := initialcapacity - 1
  threshold := initialcapacity / 2

/-- `reset`. -/
def reset (t : HashTable V) : HashTable V := { t with table := zeroed, size := 0 }

/-- `(unsigned int)(key >> _Shift)`. -/
def index (shift key : ℕ) : ℕ := (key >>> shift) % 2 ^ 32

omit [Zero V] in
/-- The loop over the bins from `index` on, until it meets `key` or a vacant bin.  The loop of
`resize`, which stops at vacant bins only, is the one for the key `0`. -/
def probe (table : ℕ → HashListNode V) (capacitymask key : ℕ) : ℕ → ℕ → Option ℕ
  | 0, _ => none
  | fuel + 1, index =>
      let index := index &&& capacitymask
      if (table index).key = key then some index
      else if (table index).key = 0 then some index
      else probe table capacitymask key fuel ((index + 1) % 2 ^ 32)

omit [Zero V] in
/-- One turn of the loop of `resize`: a bin of the old array goes to the new one. -/
def reinsert (shift newsize : ℕ) (table : ℕ → HashListNode V) (bin : HashListNode V) :
    Option (ℕ → HashListNode V) :=
  (probe table (newsize - 1) 0 newsize (index shift bin.key)).map fun i =>
    Function.update table i bin

/-- `resize`; `none` if a key finds no place. -/
def resize (shift newsize : ℕ) (t : HashTable V) : Option (HashTable V) :=
  ((List.range t.capacity).foldlM (fun table i => reinsert shift newsize table (t.table i))
      zeroed).map fun table =>
    { table, capacity := newsize, size := t.size, capacitymask := newsize - 1,
      threshold := newsize / 2 }

omit [Zero V] in
/-- `put` once there is room. -/
def store (shift key : ℕ) (val : V) (t : HashTable V) : Option (HashTable V) :=
  (probe t.table t.capacitymask key t.capacity (index shift key)).map fun i =>
    if (t.table i).key = key then
      { t with table := Function.update t.table i { t.table i with val := val } }
    else
      { t with table := Function.update t.table i ⟨key, val⟩, size := (t.size + 1) % 2 ^ 32 }

/-- `put`; `none` if it fails an assertion or does not return. -/
def put (shift key : ℕ) (val : V) (t : HashTable V) : Option (HashTable V) :=
  if key = 0 then none
  else if t.size > t.threshold then
    (t.resize shift (t.capacity <<< 1 % 2 ^ 32)).bind (store shift key val)
  else t.store shift key val

/-- `get`; `none` if it fails an assertion or does not return. -/
def get (shift key : ℕ) (t : HashTable V) : Option V :=
  if key = 0 then none
  else (probe t.table t.capacitymask key t.capacity (index shift key)).map fun i =>
    if (t.table i).key = key then (t.table i).val else 0

omit [Zero V] in
/-- `contains`; `none` if it fails an assertion or does not return. -/
def contains (shift key : ℕ) (t : HashTable V) : Option Bool :=
  if key = 0 then none
  else (probe t.table t.capacitymask key t.capacity (index shift key)).map fun i =>
    (t.table i).key = key

/-! ### The bins as places -/

omit [Zero V] in
/-- What a bin holds. -/
def slots (table : ℕ → HashListNode V) (i : ℕ) : Option (ℕ × V) :=
  if (table i).key = 0 then none else some ((table i).key, (table i).val)

omit [Zero V] in
theorem slots_update {table : ℕ → HashListNode V} {i : ℕ} {bin : HashListNode V}
    (hbin : bin.key ≠ 0) :
  slots (Function.update table i bin) = Function.update (slots table) i (some (bin.key, bin.val))
  := by
  funext j
  by_cases hj : j = i
  · subst hj
    simp [slots, hbin]
  · simp [slots, Function.update_of_ne hj]

omit [Zero V] in
theorem slots_eq_none {table : ℕ → HashListNode V} {i : ℕ} :
  slots table i = none ↔ (table i).key = 0
  := by simp [slots]

omit [Zero V] in
theorem slots_eq_some {table : ℕ → HashListNode V} {i key : ℕ} {val : V} :
  slots table i = some (key, val) ↔ key ≠ 0 ∧ table i = ⟨key, val⟩
  := by
  cases hbin : table i with
  | mk k v =>
      simp only [slots, hbin, ite_eq_iff, reduceCtorEq, and_false, false_or, Option.some.injEq,
        Prod.mk.injEq, HashListNode.mk.injEq]
      constructor
      · rintro ⟨hk, rfl, rfl⟩
        exact ⟨hk, rfl, rfl⟩
      · rintro ⟨hk, rfl, rfl⟩
        exact ⟨hk, rfl, rfl⟩

theorem slots_zeroed :
  slots (zeroed : ℕ → HashListNode V) = fun _ => none
  := rfl

omit [Zero V] in
/-- The loop of the code is the scan of a ring of `2 ^ k` places. -/
theorem probe_eq_scan {k : ℕ} (hk : k ≤ 32) (table : ℕ → HashListNode V) (key fuel i : ℕ) :
  probe table (2 ^ k - 1) key fuel i
    = Probing.scan (2 ^ k) (fun j => (table j).key = key ∨ (table j).key = 0) fuel i
  := by
  induction fuel generalizing i with
  | zero => rfl
  | succ fuel ih =>
      have hnext : (i % 2 ^ k + 1) % 2 ^ 32 ≡ i + 1 [MOD 2 ^ k] := by
        rw [Nat.ModEq, Nat.mod_mod_of_dvd _ (Nat.pow_dvd_pow 2 hk), Nat.mod_add_mod]
      simp only [probe, Probing.scan, Nat.and_two_pow_sub_one_eq_mod, ih,
        Probing.scan_modEq hnext]
      by_cases hkey : (table (i % 2 ^ k)).key = key
      · simp [hkey]
      · simp [hkey]

omit [Zero V] in
theorem stops_slots {table : ℕ → HashListNode V} {key : ℕ} :
  (fun j => decide ((table j).key = key ∨ (table j).key = 0)) = Probing.stops (slots table) key
  := by
  funext j
  by_cases hzero : (table j).key = 0
  · simp [Probing.stops, slots, hzero]
  · simp [Probing.stops, slots, hzero]

omit [Zero V] in
/-- The loop of `resize` stops where the search for any key the array does not hold stops. -/
theorem stops_vacant {table : ℕ → HashListNode V} {key : ℕ} {n : ℕ}
    (habsent : ∀ i, i < n → (table i).key ≠ key) (hn : 0 < n) (fuel i : ℕ) :
  Probing.scan n (fun j => (table j).key = 0 ∨ (table j).key = 0) fuel i
    = Probing.scan n (fun j => (table j).key = key ∨ (table j).key = 0) fuel i
  := by
  induction fuel generalizing i with
  | zero => rfl
  | succ fuel ih =>
      have hne := habsent (i % n) (Nat.mod_lt _ hn)
      rw [Probing.scan, Probing.scan, ih]
      simp only [hne, false_or, or_self]

/-! ### What the table holds -/

/-- The table holds the map `f` in `2 ^ k` bins, at least one of which is vacant. -/
structure Holds (shift : ℕ) (t : HashTable V) (f : ℕ → Option V) : Prop where
  bins : ∃ k, 2 ≤ k ∧ k ≤ 31 ∧ t.capacity = 2 ^ k
  capacitymask : t.capacitymask = t.capacity - 1
  threshold : t.threshold = t.capacity / 2
  table : Probing.Table t.capacity (index shift) (slots t.table) f
  size : Probing.taken t.capacity (slots t.table) = t.size
  room : t.size ≤ t.threshold + 1

section Holds

variable {shift key : ℕ} {t : HashTable V} {f : ℕ → Option V}

theorem Holds.zeroed {k : ℕ} (hk : 2 ≤ k) (hk' : k ≤ 31) (ht : t.table = zeroed)
    (hsize : t.size = 0) (hcapacity : t.capacity = 2 ^ k)
    (hmask : t.capacitymask = t.capacity - 1) (hthreshold : t.threshold = t.capacity / 2) :
  Holds shift t (fun _ => none)
  := by
  constructor
  · use k
  · apply hmask
  · apply hthreshold
  · rw [ht]
    apply Probing.Table.empty
  · rw [ht, hsize]
    apply Probing.taken_empty
  · rw [hsize]
    apply Nat.zero_le

omit [Zero V] in
/-- A search ends, at the key or at a vacant bin. -/
theorem Holds.probe (h : Holds shift t f) :
  ∃ i, probe t.table t.capacitymask key t.capacity (index shift key) = some i ∧
    Probing.scan t.capacity (Probing.stops (slots t.table) key) t.capacity (index shift key)
      = some i ∧
    i < t.capacity ∧ slots t.table i = (f key).map fun v => (key, v)
  := by
  obtain ⟨k, hk, hk', hcapacity⟩ := h.bins
  have hfour : 4 ≤ t.capacity := by
    rw [hcapacity]
    apply Nat.pow_le_pow_right (n := 2) (by omega) hk
  have hroom : Probing.taken t.capacity (slots t.table) < t.capacity := by
    have := h.size
    have := h.room
    have := h.threshold
    omega
  obtain ⟨i, hi⟩ := Probing.exists_stop hroom key (index shift key)
  refine ⟨i, ?_, hi, h.table.find (by omega) hi⟩
  rw [h.capacitymask, hcapacity, probe_eq_scan (by omega), ← hcapacity, stops_slots]
  apply hi

omit [Zero V] in
/-- At the end of a search the bin has the key if and only if the map has it. -/
theorem key_eq_iff {i : ℕ} (hkey : key ≠ 0)
    (hslot : slots t.table i = (f key).map fun v => (key, v)) :
  (t.table i).key = key ↔ (f key).isSome
  := by
  cases hf : f key with
  | none =>
      rw [hf] at hslot
      rw [slots_eq_none.mp hslot]
      simpa using hkey.symm
  | some v =>
      rw [hf] at hslot
      rw [(slots_eq_some.mp hslot).2]
      simp

/-- `get` returns the value of the key, or `0`. -/
theorem Holds.get (h : Holds shift t f) (hkey : key ≠ 0) :
  t.get shift key = some ((f key).getD 0)
  := by
  obtain ⟨i, hprobe, -, -, hslot⟩ := h.probe
  rw [HashTable.get, if_neg hkey, hprobe]
  simp only [Option.map_some, key_eq_iff hkey hslot]
  cases hf : f key with
  | none => rfl
  | some v =>
      rw [hf] at hslot
      rw [(slots_eq_some.mp hslot).2]
      rfl

omit [Zero V] in
/-- `contains` tells whether the key has a value. -/
theorem Holds.contains (h : Holds shift t f) (hkey : key ≠ 0) :
  t.contains shift key = some (f key).isSome
  := by
  obtain ⟨i, hprobe, -, -, hslot⟩ := h.probe
  rw [HashTable.contains, if_neg hkey, hprobe]
  simp only [Option.map_some, key_eq_iff hkey hslot, Bool.decide_eq_true]

omit [Zero V] in
/-- A value is stored under a key if there is room for one more. -/
theorem Holds.store (h : Holds shift t f) (hkey : key ≠ 0) (hroom : t.size ≤ t.threshold)
    (hsize : t.size < 2 ^ 30) (val : V) :
  ∃ t', t.store shift key val = some t' ∧ Holds shift t' (Function.update f key (some val)) ∧
    t'.size ≤ t.size + 1
  := by
  obtain ⟨i, hprobe, hscan, hi, hslot⟩ := h.probe
  obtain ⟨k, hk, hk', hcapacity⟩ := h.bins
  have hpos : 0 < t.capacity := Nat.zero_lt_of_lt hi
  have htable := h.table.insert hpos hscan val
  have htaken : Probing.taken t.capacity (Function.update (slots t.table) i (some (key, val)))
      = Probing.taken t.capacity (slots t.table) + if slots t.table i = none then 1 else 0 :=
    Probing.taken_update hi
  rw [HashTable.store, hprobe]
  simp only [Option.map_some]
  split_ifs with hfound
  · refine ⟨_, rfl, ?_, Nat.le_succ _⟩
    have hslots : slots (Function.update t.table i { t.table i with val := val })
        = Function.update (slots t.table) i (some (key, val)) := by
      rw [slots_update (by rw [hfound]; exact hkey), hfound]
    have hheld : slots t.table i ≠ none := by
      rw [Ne, slots_eq_none, hfound]
      apply hkey
    refine ⟨h.bins, h.capacitymask, h.threshold, ?_, ?_, h.room⟩
    · rw [hslots]
      apply htable
    · rw [hslots, htaken, if_neg hheld]
      apply h.size
  · have hsucc : (t.size + 1) % 2 ^ 32 = t.size + 1 := Nat.mod_eq_of_lt (by omega)
    refine ⟨_, rfl, ?_, le_of_eq hsucc⟩
    have hslots : slots (Function.update t.table i ⟨key, val⟩)
        = Function.update (slots t.table) i (some (key, val)) := slots_update hkey
    have hvacant : slots t.table i = none := by
      rw [hslot, Option.map_eq_none_iff, ← Option.not_isSome_iff_eq_none]
      rwa [key_eq_iff hkey hslot] at hfound
    refine ⟨h.bins, h.capacitymask, h.threshold, ?_, ?_, ?_⟩
    · rw [hslots]
      apply htable
    · rw [hslots, htaken, if_pos hvacant, h.size]
      exact hsucc.symm
    · rw [hsucc]
      apply Nat.succ_le_succ hroom

/-! ### Resizing -/

/-- The new array holds what the first `j` bins of the old array hold. -/
structure Rehashed (shift newsize : ℕ) (old : ℕ → HashListNode V) (j : ℕ)
    (new : ℕ → HashListNode V) : Prop where
  table : ∃ g, Probing.Table newsize (index shift) (slots new) g ∧
    ∀ k v, g k = some v ↔ ∃ i, i < j ∧ slots old i = some (k, v)
  taken : Probing.taken newsize (slots new) = Probing.taken j (slots old)

omit [Zero V] in
/-- A vacant bin of the old array is written to a vacant bin of the new one. -/
theorem Rehashed.vacant {k j : ℕ} {old new : ℕ → HashListNode V} (hk : k ≤ 32)
    (h : Rehashed shift (2 ^ k) old j new)
    (hroom : Probing.taken (2 ^ k) (slots new) < 2 ^ k) (hkey : (old j).key = 0) :
  ∃ new', reinsert shift (2 ^ k) new (old j) = some new' ∧
    Rehashed shift (2 ^ k) old (j + 1) new'
  := by
  obtain ⟨g, htable, hg⟩ := h.table
  obtain ⟨v, hv, hvacant⟩ := Probing.exists_vacant hroom
  have hnone : slots old j = none := slots_eq_none.mpr hkey
  obtain ⟨i, hi⟩ : ∃ i, HashTable.probe new (2 ^ k - 1) 0 (2 ^ k) (index shift (old j).key)
      = some i := by
    apply Option.ne_none_iff_exists'.mp
    rw [probe_eq_scan hk, Ne, Probing.scan_eq_none (Nat.two_pow_pos k)]
    intro hall
    have := hall v hv
    simp [slots_eq_none.mp hvacant] at this
  have hzero : (new i).key = 0 := by
    rw [probe_eq_scan hk] at hi
    obtain ⟨d, -, -, hstop, -⟩ := Probing.scan_eq_some hi
    simpa using hstop
  have hslots : slots (Function.update new i (old j)) = slots new := by
    funext i'
    by_cases hi' : i' = i
    · subst hi'
      simp [slots, hkey, hzero]
    · simp [slots, Function.update_of_ne hi']
  refine ⟨Function.update new i (old j), ?_, ?_, ?_⟩
  · rw [reinsert, hi]
    rfl
  · rw [hslots]
    use g, htable
    intro k' v'
    rw [hg k' v']
    constructor
    · rintro ⟨i', hi', hheld⟩
      use i', Nat.lt_succ_of_lt hi', hheld
    · rintro ⟨i', hi', hheld⟩
      rcases Nat.lt_succ_iff_lt_or_eq.mp hi' with hlt | rfl
      · use i', hlt, hheld
      · rw [hnone] at hheld
        cases hheld
  · rw [hslots, h.taken, Probing.taken_succ, if_pos hnone]
    rfl

omit [Zero V] in
/-- A key of the old array is written where the search for it ends in the new one. -/
theorem Rehashed.occupied {k j : ℕ} {old new : ℕ → HashListNode V} (hk : k ≤ 32)
    (h : Rehashed shift (2 ^ k) old j new)
    (hroom : Probing.taken (2 ^ k) (slots new) < 2 ^ k) (hkey : (old j).key ≠ 0)
    (hfresh : ∀ i v, i < j → slots old i ≠ some ((old j).key, v)) :
  ∃ new', reinsert shift (2 ^ k) new (old j) = some new' ∧
    Rehashed shift (2 ^ k) old (j + 1) new'
  := by
  obtain ⟨g, htable, hg⟩ := h.table
  have hheld : slots old j = some ((old j).key, (old j).val) := slots_eq_some.mpr ⟨hkey, rfl⟩
  have hpos : 0 < 2 ^ k := Nat.two_pow_pos k
  have habsent : g (old j).key = none := by
    apply Option.eq_none_iff_forall_ne_some.mpr
    intro v hv
    obtain ⟨i, hi, hslot⟩ := (hg _ _).mp hv
    apply hfresh i v hi hslot
  have hkeys : ∀ i, i < 2 ^ k → (new i).key ≠ (old j).key := by
    intro i hi heq
    have hslot : slots new i = some ((old j).key, (new i).val) :=
      slots_eq_some.mpr ⟨hkey, by rw [← heq]⟩
    rw [(htable.holds _ _).mpr ⟨i, hi, hslot⟩] at habsent
    cases habsent
  obtain ⟨i, hi⟩ := Probing.exists_stop hroom (old j).key (index shift (old j).key)
  obtain ⟨hlt, hslot⟩ := htable.find hpos hi
  rw [habsent] at hslot
  have hslots : slots (Function.update new i (old j))
      = Function.update (slots new) i (some ((old j).key, (old j).val)) := slots_update hkey
  refine ⟨Function.update new i (old j), ?_, ?_, ?_⟩
  · rw [← stops_slots] at hi
    rw [reinsert, probe_eq_scan hk, stops_vacant hkeys hpos, hi]
    rfl
  · rw [hslots]
    use Function.update g (old j).key (some (old j).val), htable.insert hpos hi _
    intro k' v'
    by_cases hk' : k' = (old j).key
    · subst hk'
      rw [Function.update_self]
      constructor
      · rintro ⟨⟩
        use j, Nat.lt_succ_self j, hheld
      · rintro ⟨i', hi', hheld'⟩
        rcases Nat.lt_succ_iff_lt_or_eq.mp hi' with hlt' | rfl
        · cases hfresh i' v' hlt' hheld'
        · rw [hheld] at hheld'
          cases hheld'
          rfl
    · rw [Function.update_of_ne hk', hg k' v']
      constructor
      · rintro ⟨i', hi', hheld'⟩
        use i', Nat.lt_succ_of_lt hi', hheld'
      · rintro ⟨i', hi', hheld'⟩
        rcases Nat.lt_succ_iff_lt_or_eq.mp hi' with hlt' | rfl
        · use i', hlt', hheld'
        · rw [hheld] at hheld'
          cases hheld'
          exact absurd rfl hk'
  · have hvacant : slots new i = none := hslot
    rw [hslots, Probing.taken_update hlt, if_pos hvacant, h.taken, Probing.taken_succ, if_neg]
    rw [hheld]
    rintro ⟨⟩

/-- The loop of `resize`. -/
theorem rehash {k n : ℕ} {old : ℕ → HashListNode V} (hk : k ≤ 32)
    (hold : Probing.Table n (index shift) (slots old) f)
    (hroom : Probing.taken n (slots old) < 2 ^ k) {j : ℕ} (hj : j ≤ n) :
  ∃ new, (List.range j).foldlM (fun table i => reinsert shift (2 ^ k) table (old i)) zeroed
      = some new ∧ Rehashed shift (2 ^ k) old j new
  := by
  induction j with
  | zero =>
      refine ⟨zeroed, rfl, ⟨fun _ => none, Probing.Table.empty, ?_⟩, ?_⟩
      · simp
      · rw [slots_zeroed, Probing.taken_empty]
        rfl
  | succ j ih =>
      obtain ⟨new, hfold, hnew⟩ := ih (Nat.le_of_succ_le hj)
      have hroom' : Probing.taken (2 ^ k) (slots new) < 2 ^ k := by
        rw [hnew.taken]
        apply Nat.lt_of_le_of_lt _ hroom
        apply Probing.taken_mono (Nat.le_of_succ_le hj)
      have hnext : ∃ new', reinsert shift (2 ^ k) new (old j) = some new' ∧
          Rehashed shift (2 ^ k) old (j + 1) new' := by
        by_cases hkey : (old j).key = 0
        · apply hnew.vacant hk hroom' hkey
        · apply hnew.occupied hk hroom' hkey
          intro i v hi hslot
          have := hold.once i j _ v (old j).val (by omega) (by omega) hslot
            (slots_eq_some.mpr ⟨hkey, rfl⟩)
          omega
      obtain ⟨new', hreinsert, hnew'⟩ := hnext
      use new'
      rw [List.range_succ, List.foldlM_append, hfold]
      exact ⟨by simp [hreinsert], hnew'⟩

/-- Resizing to twice the bins keeps what the table holds. -/
theorem Holds.resize (h : Holds shift t f) (hfull : t.threshold < t.size)
    (hsize : t.size < 2 ^ 30) :
  ∃ t', t.resize shift (t.capacity <<< 1 % 2 ^ 32) = some t' ∧ Holds shift t' f ∧
    t'.size = t.size ∧ t'.size ≤ t'.threshold
  := by
  obtain ⟨k, hk, hk', hcapacity⟩ := h.bins
  have hthreshold := h.threshold
  have hroom := h.room
  rw [hcapacity] at hthreshold
  have hk'' : k ≤ 30 := by
    by_contra hge
    have hle : 2 ^ 31 ≤ 2 ^ k := Nat.pow_le_pow_right (by omega) (by omega)
    omega
  have hdouble : t.capacity <<< 1 % 2 ^ 32 = 2 ^ (k + 1) := by
    have hle : 2 ^ (k + 1) ≤ 2 ^ 31 := Nat.pow_le_pow_right (by omega) (by omega)
    rw [hcapacity, Nat.shiftLeft_eq, ← Nat.pow_add]
    apply Nat.mod_eq_of_lt
    omega
  have hfour : 2 ^ 2 ≤ 2 ^ k := Nat.pow_le_pow_right (by omega) hk
  have hsucc : 2 ^ (k + 1) = 2 * 2 ^ k := Nat.pow_succ'
  have hvacant : Probing.taken t.capacity (slots t.table) < 2 ^ (k + 1) := by
    rw [h.size]
    omega
  obtain ⟨new, hfold, hnew⟩ := rehash (by omega) h.table hvacant le_rfl
  rw [HashTable.resize, hdouble, hfold]
  refine ⟨_, rfl, ⟨⟨k + 1, by omega, by omega, rfl⟩, rfl, rfl, ?_, ?_, ?_⟩, rfl, ?_⟩
  · obtain ⟨g, htable, hg⟩ := hnew.table
    have hsame : g = f := by
      funext key
      apply Option.ext
      intro v
      exact (hg key v).trans (h.table.holds key v).symm
    rw [← hsame]
    apply htable
  · exact hnew.taken.trans h.size
  · show t.size ≤ 2 ^ (k + 1) / 2 + 1
    omega
  · show t.size ≤ 2 ^ (k + 1) / 2
    omega

/-- `put` returns, with one value changed. -/
theorem Holds.put (h : Holds shift t f) (hkey : key ≠ 0) (hsize : t.size < 2 ^ 30) (val : V) :
  ∃ t', t.put shift key val = some t' ∧ Holds shift t' (Function.update f key (some val)) ∧
    t'.size ≤ t.size + 1
  := by
  rw [HashTable.put, if_neg hkey]
  split_ifs with hfull
  · obtain ⟨t', hresize, ht', hsame, hroom⟩ := h.resize hfull hsize
    obtain ⟨t'', hstore, ht'', hle⟩ := ht'.store hkey hroom (by omega) val
    refine ⟨t'', ?_, ht'', by omega⟩
    rw [hresize]
    apply hstore
  · apply h.store hkey (Nat.le_of_not_lt hfull) hsize

/-- After `reset`, no key has a value. -/
theorem Holds.reset (h : Holds shift t f) :
  Holds shift t.reset (fun _ => none)
  := by
  obtain ⟨k, hk, hk', hcapacity⟩ := h.bins
  apply Holds.zeroed (t := t.reset) hk hk' rfl rfl hcapacity h.capacitymask h.threshold

/-- In a new table, no key has a value. -/
theorem Holds.new {k : ℕ} (hk : 2 ≤ k) (hk' : k ≤ 31) :
  Holds shift (HashTable.new (2 ^ k) : HashTable V) (fun _ => none)
  := Holds.zeroed hk hk' rfl rfl rfl rfl rfl

end Holds

/-! ### Sequences of operations -/

/-- The operations that change the table. -/
inductive Op (V : Type*) where
  | put (key : ℕ) (val : V)
  | reset

/-- The operations one after another. -/
def run (shift : ℕ) (t : HashTable V) : List (Op V) → Option (HashTable V)
  | [] => some t
  | .put key val :: ops => (t.put shift key val).bind fun t => run shift t ops
  | .reset :: ops => run shift t.reset ops

omit [Zero V] in
/-- What a map holds after the operations. -/
def after (f : ℕ → Option V) : List (Op V) → ℕ → Option V
  | [] => f
  | .put key val :: ops => after (Function.update f key (some val)) ops
  | .reset :: ops => after (fun _ => none) ops

omit [Zero V] in
/-- No put has the key `0`. -/
def Keyed (ops : List (Op V)) : Prop :=
  ∀ val, .put 0 val ∉ ops

/-- All operations return, and the table is the map they make. -/
theorem Holds.run {shift : ℕ} {ops : List (Op V)} {t : HashTable V} {f : ℕ → Option V}
    (h : Holds shift t f) (hkeys : Keyed ops) (hlen : t.size + ops.length ≤ 2 ^ 30) :
  ∃ t', t.run shift ops = some t' ∧ Holds shift t' (after f ops)
  := by
  induction ops generalizing t f with
  | nil => exact ⟨t, rfl, h⟩
  | cons op ops ih =>
      rw [List.length_cons] at hlen
      have hkeys' : Keyed ops := fun val hmem => hkeys val (List.mem_cons_of_mem _ hmem)
      cases op with
      | put key val =>
          have hkey : key ≠ 0 := by
            rintro rfl
            apply hkeys val List.mem_cons_self
          obtain ⟨t', hput, ht', hle⟩ := h.put hkey (by omega) val
          simp only [HashTable.run, hput, Option.bind_some]
          apply ih ht' hkeys' (by omega)
      | reset =>
          apply ih h.reset hkeys'
          show 0 + ops.length ≤ 2 ^ 30
          omega

/-- From four bins on, the table is a finite map: whatever is put into it, through any number
of doublings and resets, every operation returns, `get` finds the value last put under a key,
or `0`, and `contains` tells whether there is one. -/
theorem finite_map {shift k : ℕ} (hk : 2 ≤ k) (hk' : k ≤ 31) {ops : List (Op V)}
    (hkeys : Keyed ops) (hlen : ops.length ≤ 2 ^ 30) :
  ∃ t, (new (2 ^ k) : HashTable V).run shift ops = some t ∧ ∀ key, key ≠ 0 →
    t.get shift key = some ((after (fun _ => none) ops key).getD 0) ∧
      t.contains shift key = some (after (fun _ => none) ops key).isSome
  := by
  obtain ⟨t, hrun, ht⟩ := (Holds.new hk hk').run hkeys (f := fun _ => none)
    (by simpa [new] using hlen)
  use t, hrun
  intro key hkey
  exact ⟨ht.get hkey, ht.contains hkey⟩

/-! ### Full tables -/

omit [Zero V] in
/-- A loop that has not ended after one turn of the ring never ends. -/
theorem probe_never {k key i : ℕ} (hk : k ≤ 32) {table : ℕ → HashListNode V}
    (h : probe table (2 ^ k - 1) key (2 ^ k) i = none) (fuel : ℕ) :
  probe table (2 ^ k - 1) key fuel i = none
  := by
  rw [probe_eq_scan hk, Probing.scan_eq_none (Nat.two_pow_pos k)] at h
  rw [probe_eq_scan hk, Probing.scan_eq_none_of_forall]
  intro d _
  apply h _ (Nat.mod_lt _ (Nat.two_pow_pos k))

/-- The search for a key that a full table does not hold never ends. -/
theorem get_full {shift k key : ℕ} {t : HashTable V} (hk : k ≤ 32) (hcapacity : t.capacity = 2 ^ k)
    (hmask : t.capacitymask = t.capacity - 1)
    (hfull : ∀ i, i < t.capacity → (t.table i).key ≠ key ∧ (t.table i).key ≠ 0) :
  t.get shift key = none
  := by
  rw [get]
  split_ifs
  · rfl
  · rw [hmask, hcapacity, probe_eq_scan hk, (Probing.scan_eq_none (Nat.two_pow_pos k) _).mpr]
    · rfl
    · intro i hi
      simp [hfull i (hcapacity ▸ hi)]

/-- A table of one bin is full after one key; the search for another does not end. -/
theorem one_bin (shift : ℕ) :
  ∃ t, (new (2 ^ 0) : HashTable V).run shift [.put 1 0] = some t ∧ t.get shift 2 = none
  := by
  refine ⟨⟨Function.update zeroed 0 ⟨1, 0⟩, 1, 1, 0, 0⟩, ?_, ?_⟩
  · simp [run, put, new, store, probe, zeroed]
  · apply get_full (k := 0) (by omega) rfl rfl
    intro i hi
    simp [Nat.lt_one_iff.mp hi]

/-- A table of two bins is full after two keys; the search for a third does not end. -/
theorem two_bins (shift : ℕ) :
  ∃ t, (new (2 ^ 1) : HashTable V).run shift [.put 1 0, .put 2 0] = some t ∧
    t.get shift 3 = none
  := by
  have hloop : ∀ i j, i < 2 → j = 1 - i →
      (⟨Function.update (Function.update zeroed i ⟨1, 0⟩) j ⟨2, 0⟩, 2, 2, 1, 1⟩ :
        HashTable V).get shift 3 = none := by
    rintro i _ hi rfl
    apply get_full (k := 1) (by omega) rfl rfl
    intro l hl
    have hij : i ≠ 1 - i := by omega
    by_cases hli : l = 1 - i
    · simp [hli]
    · have hl' : l = i := by
        change l < 2 at hl
        omega
      simp [hl', Function.update_of_ne hij]
  rcases Nat.mod_two_eq_zero_or_one (index shift 1) with h₁ | h₁
  · refine ⟨_, ?_, hloop 0 1 (by omega) rfl⟩
    rcases Nat.mod_two_eq_zero_or_one (index shift 2) with h₂ | h₂
    · simp [run, put, new, store, probe, zeroed, h₁, h₂]
    · simp [run, put, new, store, probe, zeroed, h₁, h₂]
  · refine ⟨_, ?_, hloop 1 0 (by omega) rfl⟩
    rcases Nat.mod_two_eq_zero_or_one (index shift 2) with h₂ | h₂
    · simp [run, put, new, store, probe, zeroed, h₁, h₂]
    · simp [run, put, new, store, probe, zeroed, h₁, h₂]

/-- The searches of a table end, whatever is put into it, if and only if it starts with four
bins or more. -/
theorem searches_end_iff {shift k : ℕ} (hk : k ≤ 31) :
  (∀ ops : List (Op V), Keyed ops → ops.length ≤ 2 ^ 30 → ∀ t,
      (new (2 ^ k) : HashTable V).run shift ops = some t → ∀ key, key ≠ 0 →
        t.get shift key ≠ none)
    ↔ 2 ≤ k
  := by
  constructor
  · intro hends
    by_contra hlt
    have hcases : k = 0 ∨ k = 1 := by omega
    rcases hcases with rfl | rfl
    · obtain ⟨t, hrun, hget⟩ := one_bin (V := V) shift
      apply hends [.put 1 0] _ _ t hrun 2 (by omega) hget
      · simp [Keyed]
      · simp
    · obtain ⟨t, hrun, hget⟩ := two_bins (V := V) shift
      apply hends [.put 1 0, .put 2 0] _ _ t hrun 3 (by omega) hget
      · simp [Keyed]
      · simp
  · intro hk' ops hkeys hlen t hrun key hkey
    obtain ⟨t', hrun', hfinds⟩ := @finite_map V _ shift k hk' hk ops hkeys hlen
    rw [hrun] at hrun'
    obtain rfl := Option.some.inj hrun'
    rw [(hfinds key hkey).1]
    rintro ⟨⟩

theorem searches_end_two :
  ¬ ∀ ops : List (Op ℕ), Keyed ops → ops.length ≤ 2 ^ 30 → ∀ t,
      (new (2 ^ 1) : HashTable ℕ).run 4 ops = some t → ∀ key, key ≠ 0 → t.get 4 key ≠ none
  := by
  intro hends
  have hle := (@searches_end_iff ℕ _ 4 1 (by omega)).mp hends
  omega

/-- Four bins, a doubling and a reset. -/
theorem finite_map_four :
  ∃ t, (new (2 ^ 2) : HashTable ℕ).run 4
      [.put 16 1, .reset, .put 32 2, .put 96 3, .put 32 4, .put 7 5, .put 9 6] = some t ∧
    t.get 4 32 = some 4 ∧ t.contains 4 16 = some false
  := by
  obtain ⟨t, hrun, hfinds⟩ := @finite_map ℕ _ 4 2 le_rfl (by omega)
    [.put 16 1, .reset, .put 32 2, .put 96 3, .put 32 4, .put 7 5, .put 9 6] (by simp [Keyed])
    (by simp)
  use t, hrun, (hfinds 32 (by omega)).1, (hfinds 16 (by omega)).2

end HashTable

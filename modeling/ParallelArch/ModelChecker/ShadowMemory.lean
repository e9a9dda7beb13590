import ParallelArch.ModelChecker.RaceRecord

/-!
# The shadow memory of the race detector

The records of all addresses are in tables of two levels below `root`, each selected by 16 bits
of the address; a table is made when it is first needed.  Two addresses have one entry if and
only if they agree in the lowest 48 bits, and a check changes the entry of its own address only
(`raceCheckAt_some`).
-/

/-- The tables; a pointer to one is its number, and `0` is `NULL`. -/
structure ShadowMemory where
  root : ℕ → ℕ
  table : ℕ → ℕ → ℕ
  base : ℕ → ℕ → Shadow
  next : ℕ

namespace ShadowMemory

/-- `initRaceDetector`. -/
def new : ShadowMemory where
  root _ := 0
  table _ _ := 0
  base _ _ := .word 0
  next := 1

/-- `table_calloc`: a new table, with zeros. -/
def tableCalloc (m : ShadowMemory) : ShadowMemory :=
  { m with
    table := Function.update m.table m.next fun _ => 0
    base := Function.update m.base m.next fun _ => .word 0
    next := m.next + 1 }

/-- `root->array[i] = pointer`. -/
def setRoot (m : ShadowMemory) (i pointer : ℕ) : ShadowMemory :=
  { m with root := Function.update m.root i pointer }

/-- `currtable->array[j] = pointer`, where `currtable` is the table `t`. -/
def setTable (m : ShadowMemory) (t j pointer : ℕ) : ShadowMemory :=
  { m with table := Function.update m.table t (Function.update (m.table t) j pointer) }

/-- The table of the first level for the upper bits `i` is there after this. -/
def currTable (m : ShadowMemory) (i : ℕ) : ShadowMemory :=
  if m.root i = 0 then m.tableCalloc.setRoot i m.next else m

/-- The table of the second level for the middle bits `j` is there after this. -/
def baseTable (m : ShadowMemory) (t j : ℕ) : ShadowMemory :=
  if m.table t j = 0 then m.tableCalloc.setTable t j m.next else m

/-- The bits of an address that select from `root`. -/
def upper (address : ℕ) : ℕ := (address >>> 32) &&& 0xffff

/-- The bits that select from a table of the first level. -/
def middle (address : ℕ) : ℕ := (address >>> 16) &&& 0xffff

/-- The bits that select the entry. -/
def lower (address : ℕ) : ℕ := address &&& 0xffff

/-- The tables for `address` are there after this. -/
def lookupAddressEntry (m : ShadowMemory) (address : ℕ) : ShadowMemory :=
  let m := m.currTable (upper address)
  m.baseTable (m.root (upper address)) (middle address)

/-- The table of the second level with the entry of `address`. -/
def pointer (m : ShadowMemory) (address : ℕ) : ℕ :=
  m.table (m.root (upper address)) (middle address)

/-- `*shadow` after the lookup; the entries of tables that are not there are `0`. -/
def entry (m : ShadowMemory) (address : ℕ) : Shadow :=
  if m.root (upper address) = 0 ∨ m.pointer address = 0 then .word 0
  else m.base (m.pointer address) (lower address)

/-- The assignment to `*shadow`. -/
def setEntry (m : ShadowMemory) (address : ℕ) (shadow : Shadow) : ShadowMemory :=
  { m with
    base := Function.update m.base (m.pointer address)
      (Function.update (m.base (m.pointer address)) (lower address) shadow) }

/-- `raceCheckRead` or `raceCheckWrite`. -/
def raceCheckAt (m : ShadowMemory) (a : Access) : List DataRace × Option ShadowMemory :=
  let m := m.lookupAddressEntry a.location
  let (races, shadow) := Shadow.raceCheck a (m.base (m.pointer a.location) (lower a.location))
  (races, shadow.map (m.setEntry a.location))

/-! ### Addresses -/

/-- The mask keeps the lower 16 bits. -/
theorem and_mask16 (x : ℕ) :
  x &&& 0xffff = x % 2 ^ 16
  := Nat.and_two_pow_sub_one_eq_mod x 16

/-- The tables use the lowest 48 bits of an address. -/
theorem same_entry_iff {address address' : ℕ} :
  (upper address = upper address' ∧ middle address = middle address' ∧
      lower address = lower address')
    ↔ address % 2 ^ 48 = address' % 2 ^ 48
  := by
  simp only [upper, middle, lower, and_mask16, Nat.shiftRight_eq_div_pow]
  omega

/-! ### Lookups -/

/-- The tables are different ones. -/
structure Separate (m : ShadowMemory) : Prop where
  next_pos : 0 < m.next
  root_lt : ∀ i, m.root i < m.next
  table_lt : ∀ t j, m.table t j < m.next
  root_inj : ∀ i i', m.root i = m.root i' → m.root i ≠ 0 → i = i'
  table_inj : ∀ t j t' j', m.table t j = m.table t' j' → m.table t j ≠ 0 → t = t' ∧ j = j'

/-- In the empty memory there are no tables to share. -/
theorem separate_new :
  new.Separate
  := by
  constructor
  · apply Nat.one_pos
  · intro i
    apply Nat.one_pos
  · intro t j
    apply Nat.one_pos
  · intro i i' _ hne
    cases hne rfl
  · intro t j t' j' _ hne
    cases hne rfl

section Lookups

variable {m : ShadowMemory}

/-- An allocation leaves the root table alone. -/
@[simp]
theorem tableCalloc_root (m : ShadowMemory) :
  m.tableCalloc.root = m.root
  := rfl

/-- An allocation uses up one address. -/
@[simp]
theorem tableCalloc_next (m : ShadowMemory) :
  m.tableCalloc.next = m.next + 1
  := rfl

/-- The new table is zero. -/
@[simp]
theorem tableCalloc_table (m : ShadowMemory) (t j : ℕ) :
  m.tableCalloc.table t j = if t = m.next then 0 else m.table t j
  := by
  rw [tableCalloc]
  split_ifs with ht
  · simp [ht]
  · simp [ht]

/-- The new base table has no accesses. -/
@[simp]
theorem tableCalloc_base (m : ShadowMemory) (t k : ℕ) :
  m.tableCalloc.base t k = if t = m.next then .word 0 else m.base t k
  := by
  rw [tableCalloc]
  split_ifs with ht
  · simp [ht]
  · simp [ht]

/-- One entry of the root table changes. -/
@[simp]
theorem setRoot_root (m : ShadowMemory) (i p i' : ℕ) :
  (m.setRoot i p).root i' = if i' = i then p else m.root i'
  := Function.update_apply m.root i p i'

/-- The tables below the root stay. -/
@[simp]
theorem setRoot_rest (m : ShadowMemory) (i p : ℕ) :
  (m.setRoot i p).table = m.table ∧ (m.setRoot i p).base = m.base ∧
    (m.setRoot i p).next = m.next
  := ⟨rfl, rfl, rfl⟩

/-- One entry of one table changes. -/
@[simp]
theorem setTable_table (m : ShadowMemory) (t j p t' j' : ℕ) :
  (m.setTable t j p).table t' j' = if t' = t ∧ j' = j then p else m.table t' j'
  := by
  rw [setTable]
  by_cases ht : t' = t
  · subst ht
    by_cases hj : j' = j
    · simp [hj]
    · simp [hj]
  · simp [ht]

/-- The root and the base tables stay. -/
@[simp]
theorem setTable_rest (m : ShadowMemory) (t j p : ℕ) :
  (m.setTable t j p).root = m.root ∧ (m.setTable t j p).base = m.base ∧
    (m.setTable t j p).next = m.next
  := ⟨rfl, rfl, rfl⟩

/-- An address without a table has no accesses. -/
theorem entry_null {address : ℕ} (h : m.root (upper address) = 0 ∨ m.pointer address = 0) :
  m.entry address = .word 0
  := by rw [entry, if_pos h]

/-- An address with its tables has the shadow in its base table. -/
theorem entry_base {address : ℕ} (h : ¬ (m.root (upper address) = 0 ∨ m.pointer address = 0)) :
  m.entry address = m.base (m.pointer address) (lower address)
  := by rw [entry, if_neg h]

/-- The upper 16 bits of an address are not looked at. -/
theorem entry_same {address address' : ℕ} (h : address % 2 ^ 48 = address' % 2 ^ 48) :
  m.entry address = m.entry address'
  := by
  obtain ⟨hupper, hmiddle, hlower⟩ := same_entry_iff.mpr h
  have hpointer : m.pointer address = m.pointer address' := by
    rw [pointer, pointer, hupper, hmiddle]
  rw [entry, entry, hupper, hpointer, hlower]

/-- An entry depends on the path to it only. -/
theorem entry_congr {m' : ShadowMemory} {address : ℕ}
    (hroot : m'.root (upper address) = m.root (upper address))
    (hpointer : m'.pointer address = m.pointer address)
    (hbase : m'.base (m.pointer address) (lower address)
      = m.base (m.pointer address) (lower address)) :
  m'.entry address = m.entry address
  := by
  by_cases h : m.root (upper address) = 0 ∨ m.pointer address = 0
  · rw [entry_null h, entry_null]
    rw [hroot, hpointer]
    apply h
  · rw [entry_base h, entry_base, hpointer, hbase]
    rw [hroot, hpointer]
    apply h

/-- A missing table is allocated without a change to any entry. -/
theorem Separate.currTable (h : m.Separate) (i : ℕ) :
  (m.currTable i).Separate ∧ (m.currTable i).root i ≠ 0 ∧
    ∀ address, (m.currTable i).entry address = m.entry address
  := by
  rw [ShadowMemory.currTable]
  split_ifs with hnull
  · obtain ⟨htable, hbase, hnext⟩ := m.tableCalloc.setRoot_rest i m.next
    generalize hm' : m.tableCalloc.setRoot i m.next = m' at htable hbase hnext
    have hroot : ∀ i', m'.root i' = if i' = i then m.next else m.root i' := by
      intro i'
      rw [← hm', setRoot_root, tableCalloc_root]
    have hpointer : ∀ t j, m'.table t j = if t = m.next then 0 else m.table t j := by
      intro t j
      rw [htable, tableCalloc_table]
    rw [tableCalloc_next] at hnext
    refine ⟨⟨by omega, ?_, ?_, ?_, ?_⟩, ?_, ?_⟩
    · intro i'
      have := h.root_lt i'
      rw [hroot]
      split_ifs
      · omega
      · omega
    · intro t j
      have := h.table_lt t j
      rw [hpointer]
      split_ifs
      · omega
      · omega
    · intro i' i'' heq hne
      simp only [hroot] at heq hne
      split_ifs at heq hne with hi hi' hi'
      · rw [hi, hi']
      · cases (h.root_lt i'').ne heq.symm
      · cases (h.root_lt i').ne heq
      · apply h.root_inj i' i'' heq hne
    · intro t j t' j' heq hne
      simp only [hpointer] at heq hne
      split_ifs at heq hne
      · cases hne rfl
      · cases hne rfl
      · cases hne heq
      · apply h.table_inj t j t' j' heq hne
    · rw [hroot, if_pos rfl]
      apply h.next_pos.ne'
    · intro address
      have hroot' := hroot (upper address)
      by_cases hi : upper address = i
      · rw [if_pos hi] at hroot'
        rw [← hi] at hnull
        rw [entry_null (.inl hnull), entry_null]
        right
        rw [pointer, hroot', hpointer, if_pos rfl]
      · rw [if_neg hi] at hroot'
        apply entry_congr hroot'
        · rw [pointer, hroot', hpointer, if_neg (h.root_lt _).ne]
          rfl
        · rw [hbase, tableCalloc_base]
          apply if_neg (h.table_lt _ _).ne
  · exact ⟨h, hnull, fun _ => rfl⟩

/-- A missing base table is allocated without a change to any entry. -/
theorem Separate.baseTable (h : m.Separate) (t j : ℕ) :
  (m.baseTable t j).Separate ∧ (m.baseTable t j).root = m.root ∧
    (m.baseTable t j).table t j ≠ 0 ∧
    ∀ address, (m.baseTable t j).entry address = m.entry address
  := by
  rw [ShadowMemory.baseTable]
  split_ifs with hnull
  · obtain ⟨hroot, hbase, hnext⟩ := m.tableCalloc.setTable_rest t j m.next
    generalize hm' : m.tableCalloc.setTable t j m.next = m' at hroot hbase hnext
    have htable : ∀ t' j', m'.table t' j' = if t' = t ∧ j' = j then m.next
        else if t' = m.next then 0 else m.table t' j' := by
      intro t' j'
      rw [← hm', setTable_table, tableCalloc_table]
    rw [tableCalloc_next] at hnext
    rw [tableCalloc_root] at hroot
    refine ⟨⟨by omega, ?_, ?_, ?_, ?_⟩, hroot, ?_, ?_⟩
    · intro i
      have := h.root_lt i
      rw [hroot]
      omega
    · intro t' j'
      have := h.table_lt t' j'
      rw [htable]
      split_ifs
      · omega
      · omega
      · omega
    · rw [hroot]
      apply h.root_inj
    · intro t' j' t'' j'' heq hne
      have hlt := h.table_lt t' j'
      have hlt' := h.table_lt t'' j''
      simp only [htable] at heq hne
      split_ifs at heq hne with hown hown' _ _ hown'
      · constructor
        · rw [hown.1, hown'.1]
        · rw [hown.2, hown'.2]
      · cases hne heq
      · cases hlt'.ne heq.symm
      · cases hne rfl
      · cases hne rfl
      · cases hne rfl
      · cases hlt.ne heq
      · cases hne heq
      · apply h.table_inj t' j' t'' j'' heq hne
    · rw [htable, if_pos ⟨rfl, rfl⟩]
      apply h.next_pos.ne'
    · intro address
      have hpointer : m'.pointer address
          = if m.root (upper address) = t ∧ middle address = j then m.next
            else m.pointer address := by
        rw [pointer, hroot, htable, if_neg (h.root_lt _).ne]
        rfl
      by_cases hown : m.root (upper address) = t ∧ middle address = j
      · rw [if_pos hown] at hpointer
        have hzero : m.pointer address = 0 := by rw [pointer, hown.1, hown.2, hnull]
        rw [entry_null (.inr hzero), entry]
        split_ifs
        · rfl
        · rw [hpointer, hbase, tableCalloc_base, if_pos rfl]
      · rw [if_neg hown] at hpointer
        apply entry_congr _ hpointer
        · rw [hbase, tableCalloc_base]
          apply if_neg (h.table_lt _ _).ne
        · rw [hroot]
  · exact ⟨h, rfl, hnull, fun _ => rfl⟩

/-- A lookup makes the tables of its address and changes no entry. -/
theorem Separate.lookupAddressEntry (h : m.Separate) (address : ℕ) :
  (m.lookupAddressEntry address).Separate ∧
    (m.lookupAddressEntry address).root (upper address) ≠ 0 ∧
    (m.lookupAddressEntry address).pointer address ≠ 0 ∧
    ∀ address', (m.lookupAddressEntry address).entry address' = m.entry address'
  := by
  obtain ⟨hcurr, hroot, hentry⟩ := h.currTable (upper address)
  obtain ⟨hbase, hroot', htable, hentry'⟩ :=
    hcurr.baseTable _ (middle address)
  rw [ShadowMemory.lookupAddressEntry]
  refine ⟨hbase, ?_, ?_, ?_⟩
  · rw [hroot']
    apply hroot
  · rw [pointer, hroot']
    apply htable
  · intro address'
    rw [hentry', hentry]

/-- Only the entries of the same lowest 48 bits are set. -/
theorem Separate.entry_setEntry (h : m.Separate) {address : ℕ}
    (hroot : m.root (upper address) ≠ 0) (hpointer : m.pointer address ≠ 0) (shadow : Shadow)
    (address' : ℕ) :
  (m.setEntry address shadow).entry address'
    = if address' % 2 ^ 48 = address % 2 ^ 48 then shadow else m.entry address'
  := by
  by_cases hnull : m.root (upper address') = 0 ∨ m.pointer address' = 0
  · rw [entry_null hnull, entry_null (m := m.setEntry address shadow) hnull, if_neg]
    intro hsame
    obtain ⟨hupper, hmiddle, -⟩ := same_entry_iff.mpr hsame
    rw [pointer, hupper, hmiddle] at hnull
    rcases hnull with hnull | hnull
    · cases hroot hnull
    · cases hpointer hnull
  · rw [entry_base hnull, entry_base (m := m.setEntry address shadow) hnull]
    change Function.update m.base (m.pointer address) _ (m.pointer address') _ = _
    split_ifs with hsame
    · obtain ⟨hupper, hmiddle, hlower⟩ := same_entry_iff.mpr hsame
      have heq : m.pointer address' = m.pointer address := by
        rw [pointer, pointer, hupper, hmiddle]
      rw [heq, hlower, Function.update_self, Function.update_self]
    · rw [not_or] at hnull
      by_cases heq : m.pointer address' = m.pointer address
      · obtain ⟨hroots, hmiddle⟩ := h.table_inj _ _ _ _ heq hnull.2
        have hupper := h.root_inj _ _ hroots hnull.1
        have hlower : lower address' ≠ lower address := by
          intro hlower
          apply hsame (same_entry_iff.mp ⟨hupper, hmiddle, hlower⟩)
        rw [heq, Function.update_self, Function.update_of_ne hlower]
      · rw [Function.update_of_ne heq]

/-- Writing an entry keeps the tables apart. -/
theorem Separate.setEntry (h : m.Separate) (address : ℕ) (shadow : Shadow) :
  (m.setEntry address shadow).Separate
  := ⟨h.next_pos, h.root_lt, h.table_lt, h.root_inj, h.table_inj⟩

/-- A check is one of the entry of its address. -/
theorem raceCheckAt_eq (h : m.Separate) (a : Access) :
  m.raceCheckAt a = ((Shadow.raceCheck a (m.entry a.location)).1,
    (Shadow.raceCheck a (m.entry a.location)).2.map
      ((m.lookupAddressEntry a.location).setEntry a.location))
  := by
  obtain ⟨-, hroot, hpointer, hentry⟩ := h.lookupAddressEntry a.location
  have hbase : (m.lookupAddressEntry a.location).base
      ((m.lookupAddressEntry a.location).pointer a.location) (lower a.location)
        = m.entry a.location := by
    rw [← hentry, entry_base]
    rw [not_or]
    exact ⟨hroot, hpointer⟩
  simp only [raceCheckAt, hbase]

/-- A check changes no other entry. -/
theorem raceCheckAt_some (h : m.Separate) {a : Access} {m' : ShadowMemory}
    (hcheck : (m.raceCheckAt a).2 = some m') :
  ∃ shadow, (Shadow.raceCheck a (m.entry a.location)).2 = some shadow ∧ m'.Separate ∧
    ∀ address, m'.entry address
      = if address % 2 ^ 48 = a.location % 2 ^ 48 then shadow else m.entry address
  := by
  obtain ⟨hlookup, hroot, hpointer, hentry⟩ := h.lookupAddressEntry a.location
  rw [raceCheckAt_eq h] at hcheck
  obtain ⟨shadow, hshadow, rfl⟩ := Option.map_eq_some_iff.mp hcheck
  refine ⟨shadow, hshadow, hlookup.setEntry a.location shadow, ?_⟩
  intro address
  rw [hlookup.entry_setEntry hroot hpointer, hentry]

end Lookups

end ShadowMemory

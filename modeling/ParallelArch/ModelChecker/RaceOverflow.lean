import ParallelArch.ModelChecker.RaceRecord

/-!
# Writes beyond the arrays of the race detector

A word without a read becomes a full record with arrays of length `0`, and doubling does not
make them longer.  A read then writes beyond them.  This happens if and only if the record
outgrew its word at an access after which no read was in it, and a read follows
(`overflow_iff`).
-/

namespace Shadow

open Access

section Runs

variable {as : List Access} {a : Access} {shadow : Shadow}

/-- A word suffices for the accesses: their threads and clocks are small, and each read comes
after the reads that are remembered. -/
def Short (as : List Access) : Prop :=
  ∀ pre a, pre ++ [a] <+: as →
    ¬ a.Large ∧ (a.isWrite = false → ∀ r, r ∈ (last pre).reads → Before r a)

/-- At the first of the accesses `rest` the word became a full record, without a read in it. -/
def Bare (as rest : List Access) : Prop :=
  ∃ pre a post, as = pre ++ rest ∧ rest = a :: post ∧ Short pre ∧ a.Large ∧
    (last pre).reads = []

/-- With one more access a word suffices still, iff the access is small and, being a read, comes
after the reads that are remembered. -/
theorem short_append :
  Short (as ++ [a]) ↔
    Short as ∧ ¬ a.Large ∧ (a.isWrite = false → ∀ r, r ∈ (last as).reads → Before r a)
  := by
  constructor
  · intro h
    constructor
    · intro pre x hpre
      apply h pre x (hpre.trans (List.prefix_append as [a]))
    · apply h as a List.prefix_rfl
  · rintro ⟨hold, hnew⟩ pre x hpre
    rcases List.prefix_concat_iff.mp hpre with heq | hpre
    · obtain ⟨rfl, rfl⟩ := List.append_singleton_inj.mp heq
      apply hnew
    · apply hold pre x hpre

/-- The last access made the record, or the ones before it did. -/
theorem bare_append {rest : List Access} :
  Bare (as ++ [a]) rest ↔
    rest = [a] ∧ Short as ∧ a.Large ∧ (last as).reads = [] ∨
      ∃ rest', rest = rest' ++ [a] ∧ Bare as rest'
  := by
  constructor
  · rintro ⟨pre, x, post, has, rfl, hshort, hlarge, hreads⟩
    rcases List.eq_nil_or_concat post with rfl | ⟨post', y, rfl⟩
    · left
      obtain ⟨rfl, rfl⟩ := List.append_singleton_inj.mp has
      exact ⟨rfl, hshort, hlarge, hreads⟩
    · right
      rw [List.concat_eq_append, ← List.cons_append, ← List.append_assoc] at has
      obtain ⟨rfl, rfl⟩ := List.append_singleton_inj.mp has
      refine ⟨x :: post', by simp, pre, x, post', rfl, rfl, hshort, hlarge, hreads⟩
  · rintro (⟨rfl, hshort, hlarge, hreads⟩ | ⟨rest', rfl, pre, x, post, rfl, rfl, hrest⟩)
    · exact ⟨as, a, [], rfl, rfl, hshort, hlarge, hreads⟩
    · exact ⟨pre, x, post ++ [a], by simp, by simp, hrest⟩

/-- What the form of a record says about the accesses. -/
structure Formed (as : List Access) (shadow : Shadow) : Prop where
  short : (∃ shadowval, shadow = word shadowval) ↔ Short as
  bare : ∀ rest, Bare as rest →
    (∀ a, a ∈ rest → a.isWrite = true) ∧ ∃ r, shadow = record r ∧ r.capacity = 0
  empty : ∀ r, shadow = record r → r.capacity = 0 → ∃ rest, Bare as rest

/-- A location never accessed is a word. -/
theorem formed_new :
  Formed [] (word 0)
  := by
  constructor
  · constructor
    · rintro - pre a hpre
      simp at hpre
    · intro _
      exact ⟨0, rfl⟩
  · rintro rest ⟨pre, a, post, has, rfl, -⟩
    simp at has
  · rintro r ⟨⟩

/-- A word has the read clock `0` iff it holds no reads. -/
theorem Holds.readVector_eq_zero {shadowval : ℕ} {s : LastAccess Access}
    (h : (word shadowval).Holds s) :
  readVector shadowval = 0 ↔ s.reads = []
  := by
  have hreads := h.reads
  rw [Shadow.reads] at hreads
  split_ifs at hreads with hzero
  · simpa [hzero] using hreads.symm
  · constructor
    · intro h
      cases hzero h
    · intro hnil
      simp [hnil] at hreads

/-- A word suffices for one more access. -/
theorem Holds.stays_word {shadowval : ℕ} {s : LastAccess Access} (h : (word shadowval).Holds s) :
  clockMayRace a.currClock a.thread (readVector shadowval) (rdThreadId shadowval) = false ↔
    ∀ r, r ∈ s.reads → Before r a
  := by
  have hreads := h.reads
  rw [Shadow.reads] at hreads
  split_ifs at hreads with hzero
  · have hnil : s.reads = [] := h.readVector_eq_zero.mp hzero
    simp [hnil, hzero, clockMayRace]
  · obtain ⟨r, hr, heq⟩ := List.map_eq_singleton_iff.mp hreads.symm
    obtain ⟨hclock, hthread⟩ := Prod.ext_iff.mp heq
    change r.ourClock = _ at hclock
    change r.thread = _ at hthread
    simp [hr, Before, hclock, hthread]

/-- A full record stays one, and its arrays get longer only if they have a length. -/
theorem raceCheck_record {r : RaceRecord} (hfits : (record r).Fits)
    (h : (raceCheck a (record r)).2 = some shadow) :
  ∃ r', shadow = record r' ∧ (r'.capacity = 0 ↔ r.capacity = 0) ∧
    (r'.capacity = 0 → a.isWrite = true)
  := by
  rw [raceCheck] at h
  split_ifs at h with hwrite
  · cases h
    exact ⟨_, rfl, Iff.rfl, fun _ => hwrite⟩
  · have hroom : r.capacity ≠ 0 := by
      intro hzero
      rw [(raceCheckRead_none hfits).mpr hzero] at h
      cases h
    obtain ⟨r', heq, -, -, -, hroom'⟩ := fullRaceCheckRead_spec a hfits hroom
    change (fullRaceCheckRead a r).2.map record = some shadow at h
    rw [heq] at h
    cases h
    refine ⟨r', rfl, by simp [hroom, hroom'], ?_⟩
    intro hzero
    cases hroom' hzero

/-- A word stays one as long as it suffices. -/
theorem raceCheck_word {shadowval : ℕ} (hlarge : ¬ a.Large)
    (hrace : a.isWrite = false →
      clockMayRace a.currClock a.thread (readVector shadowval) (rdThreadId shadowval) = false)
    (h : (raceCheck a (word shadowval)).2 = some shadow) :
  ∃ shadowval', shadow = word shadowval'
  := by
  rw [raceCheck] at h
  split_ifs at h with hwrite
  · rw [raceCheckWrite, if_neg hlarge] at h
    cases h
    exact ⟨_, rfl⟩
  · rw [raceCheckRead, if_neg hlarge, if_neg (by simpa using hrace (by simpa using hwrite))] at h
    cases h
    exact ⟨_, rfl⟩

/-- Otherwise it becomes a full record. -/
theorem raceCheck_expand {shadowval : ℕ}
    (hexpand : ¬ a.Large → a.isWrite = false ∧
      clockMayRace a.currClock a.thread (readVector shadowval) (rdThreadId shadowval) = true)
    (h : (raceCheck a (word shadowval)).2 = some shadow) :
  ∃ r', shadow = record r' ∧ (r'.capacity = 0 ↔ readVector shadowval = 0) ∧
    (r'.capacity = 0 → a.isWrite = true)
  := by
  rw [raceCheck] at h
  split_ifs at h with hwrite
  · have hlarge : a.Large := by
      by_contra hsmall
      rw [(hexpand hsmall).1] at hwrite
      cases hwrite
    rw [raceCheckWrite, if_pos hlarge] at h
    cases h
    exact ⟨_, rfl, capacity_expandRecord shadowval, fun _ => hwrite⟩
  · have hroom : readVector shadowval ≠ 0 := by
      intro hzero
      by_cases hlarge : a.Large
      · have hfits : (word shadowval).Fits := trivial
        rw [(raceCheckRead_none hfits).mpr ⟨hlarge, hzero⟩] at h
        cases h
      · have hrace := (hexpand hlarge).2
        simp [clockMayRace, hzero] at hrace
    have hcapacity : (expandRecord shadowval).capacity ≠ 0 := by
      rw [Ne, capacity_expandRecord]
      apply hroom
    obtain ⟨r', heq, -, -, -, hroom'⟩ :=
      fullRaceCheckRead_spec a (fits_expandRecord shadowval) hcapacity
    have hexpanded : (fullRaceCheckRead a (expandRecord shadowval)).2.map record
        = some shadow := by
      rw [raceCheckRead] at h
      split_ifs at h with hlarge hrace
      · apply h
      · apply h
      · cases hrace (hexpand hlarge).2
    rw [heq] at hexpanded
    cases hexpanded
    refine ⟨r', rfl, by simp [hroom, hroom'], ?_⟩
    intro hzero
    cases hroom' hzero

/-- A check that returns leaves a shadow of the form that the accesses say. -/
theorem Formed.check (h : Formed as shadow) (hholds : shadow.Holds (last as))
    {shadow' : Shadow} (hcheck : (raceCheck a shadow).2 = some shadow') :
  Formed (as ++ [a]) shadow'
  := by
  cases shadow with
  | record r =>
      have hshort : ¬ Short as := by
        intro hshort
        obtain ⟨_, heq⟩ := h.short.mpr hshort
        cases heq
      obtain ⟨r', rfl, hcapacity, hwrite⟩ := raceCheck_record hholds.fits hcheck
      constructor
      · constructor
        · rintro ⟨_, ⟨⟩⟩
        · intro hshort'
          cases hshort (short_append.mp hshort').1
      · intro rest hbare
        rcases bare_append.mp hbare with ⟨-, hshort', -⟩ | ⟨rest', rfl, hbare'⟩
        · cases hshort hshort'
        · obtain ⟨hwrites, r₀, ⟨⟩, hzero⟩ := h.bare rest' hbare'
          have hzero' := hcapacity.mpr hzero
          refine ⟨?_, r', rfl, hzero'⟩
          intro x hx
          rcases List.mem_append.mp hx with hold | hnew
          · apply hwrites x hold
          · rw [List.mem_singleton.mp hnew]
            apply hwrite hzero'
      · rintro _ ⟨⟩ hzero
        obtain ⟨rest, hbare⟩ := h.empty r rfl (hcapacity.mp hzero)
        exact ⟨rest ++ [a], bare_append.mpr (.inr ⟨rest, rfl, hbare⟩)⟩
  | word shadowval =>
      have hshort : Short as := h.short.mp ⟨shadowval, rfl⟩
      have hold : ∀ rest, ¬ Bare as rest := by
        intro rest hbare
        obtain ⟨-, _, ⟨⟩, -⟩ := h.bare rest hbare
      by_cases hnew : ¬ a.Large ∧ (a.isWrite = false → ∀ r, r ∈ (last as).reads → Before r a)
      · obtain ⟨shadowval', rfl⟩ := raceCheck_word hnew.1
          (fun hread => hholds.stays_word.mpr (hnew.2 hread)) hcheck
        constructor
        · constructor
          · intro _
            apply short_append.mpr ⟨hshort, hnew⟩
          · intro _
            exact ⟨shadowval', rfl⟩
        · intro rest hbare
          rcases bare_append.mp hbare with ⟨-, -, hlarge, -⟩ | ⟨rest', -, hbare'⟩
          · cases hnew.1 hlarge
          · cases hold rest' hbare'
        · rintro _ ⟨⟩
      · have hexpand : ¬ a.Large → a.isWrite = false ∧
            clockMayRace a.currClock a.thread (readVector shadowval) (rdThreadId shadowval)
              = true := by
          intro hsmall
          simp only [hsmall, not_false_eq_true, true_and, Classical.not_imp] at hnew
          rw [← hholds.stays_word, Bool.not_eq_false] at hnew
          apply hnew
        obtain ⟨r', rfl, hcapacity, hwrite⟩ := raceCheck_expand hexpand hcheck
        constructor
        · constructor
          · rintro ⟨_, ⟨⟩⟩
          · intro hshort'
            cases hnew (short_append.mp hshort').2
        · intro rest hbare
          rcases bare_append.mp hbare with ⟨rfl, -, -, hreads⟩ | ⟨rest', -, hbare'⟩
          · have hzero := hcapacity.mpr (hholds.readVector_eq_zero.mpr hreads)
            refine ⟨?_, r', rfl, hzero⟩
            intro x hx
            rw [List.mem_singleton.mp hx]
            apply hwrite hzero
          · cases hold rest' hbare'
        · rintro _ ⟨⟩ hzero
          have hzero' := hcapacity.mp hzero
          have hlarge : a.Large := by
            by_contra hsmall
            have hrace := (hexpand hsmall).2
            simp [clockMayRace, hzero'] at hrace
          refine ⟨[a], bare_append.mpr (.inl ⟨rfl, hshort, hlarge, ?_⟩)⟩
          apply hholds.readVector_eq_zero.mp hzero'

/-- Only a read overflows, where there is no room. -/
theorem raceCheck_none (hfits : shadow.Fits) :
  (raceCheck a shadow).2 = none ↔ a.isWrite = false ∧ shadow.NoRoom a
  := by
  rw [raceCheck]
  split_ifs with hwrite
  · simp [hwrite]
  · rw [raceCheckRead_none hfits]
    simp [hwrite]

/-- A check overflows exactly on a read in a record without arrays. -/
theorem Formed.check_none (h : Formed as shadow) (hholds : shadow.Holds (last as)) :
  (raceCheck a shadow).2 = none ↔
    ∃ rest, Bare (as ++ [a]) rest ∧ ∃ x, x ∈ rest ∧ x.isWrite = false
  := by
  rw [raceCheck_none hholds.fits]
  constructor
  · rintro ⟨hread, hroom⟩
    cases shadow with
    | record r =>
        obtain ⟨rest, hbare⟩ := h.empty r rfl hroom
        refine ⟨rest ++ [a], bare_append.mpr (.inr ⟨rest, rfl, hbare⟩), a, by simp, hread⟩
    | word shadowval =>
        obtain ⟨hlarge, hzero⟩ := hroom
        refine ⟨[a], bare_append.mpr (.inl ⟨rfl, ?_, hlarge, ?_⟩), a, by simp, hread⟩
        · apply h.short.mp ⟨shadowval, rfl⟩
        · apply hholds.readVector_eq_zero.mp hzero
  · rintro ⟨rest, hbare, x, hx, hread⟩
    rcases bare_append.mp hbare with ⟨rfl, hshort, hlarge, hreads⟩ | ⟨rest', rfl, hbare'⟩
    · rw [List.mem_singleton.mp hx] at hread
      obtain ⟨shadowval, rfl⟩ := h.short.mpr hshort
      exact ⟨hread, hlarge, hholds.readVector_eq_zero.mpr hreads⟩
    · obtain ⟨hwrites, r, rfl, hzero⟩ := h.bare rest' hbare'
      rcases List.mem_append.mp hx with hold | hnew
      · rw [hwrites x hold] at hread
        cases hread
      · rw [List.mem_singleton.mp hnew] at hread
        exact ⟨hread, hzero⟩

/-- The shadow has the form that the accesses checked so far say. -/
theorem checks_formed (hpos : ∀ a, a ∈ as → 0 < a.ourClock)
    (h : checks as = some shadow) :
  Formed as shadow
  := by
  induction as using List.reverseRecOn generalizing shadow with
  | nil =>
      cases h
      apply formed_new
  | append_singleton as a ih =>
      rw [checks_append] at h
      obtain ⟨shadow₀, hchecks, hcheck⟩ := Option.bind_eq_some_iff.mp h
      have hpos' : ∀ x, x ∈ as → 0 < x.ourClock := fun x hx =>
        hpos x (List.mem_append_left _ hx)
      apply (ih hpos' hchecks).check (checks_holds hpos' hchecks) hcheck

/-- The checks write beyond the arrays if and only if a word without a read becomes a full
record and a read follows. -/
theorem overflow_iff (hpos : ∀ a, a ∈ as → 0 < a.ourClock) :
  checks as = none ↔ ∃ rest, Bare as rest ∧ ∃ a, a ∈ rest ∧ a.isWrite = false
  := by
  induction as using List.reverseRecOn with
  | nil =>
      constructor
      · rintro ⟨⟩
      · rintro ⟨rest, ⟨pre, a, post, has, rfl, -⟩, -⟩
        simp at has
  | append_singleton as a ih =>
      have hpos' : ∀ x, x ∈ as → 0 < x.ourClock := fun x hx =>
        hpos x (List.mem_append_left _ hx)
      rw [checks_append]
      cases hchecks : checks as with
      | none =>
          obtain ⟨rest, hbare, x, hx, hread⟩ := (ih hpos').mp hchecks
          simp only [Option.bind_none, true_iff]
          refine ⟨rest ++ [a], bare_append.mpr (.inr ⟨rest, rfl, hbare⟩), x, ?_, hread⟩
          apply List.mem_append_left _ hx
      | some shadow =>
          rw [Option.bind_some]
          apply (checks_formed hpos' hchecks).check_none (checks_holds hpos' hchecks)

end Runs

end Shadow

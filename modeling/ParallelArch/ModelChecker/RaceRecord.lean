import Mathlib.Data.Nat.Bitwise
import ParallelArch.Concurrency.LastAccess
import ParallelArch.ModelChecker.ClockVector

/-!
# The records of the race detector

For each address the race detector keeps a record: a word of 64 bits with the last write and at
most one read, or, where that does not do, a `RaceRecord` with the last write and an array of
reads.  The two report the same, and what they report are the races by the last accesses
(`raceCheck_races`).  A check is described by the races it reports one after the other and by
the record it leaves if no report ends it.
-/

/-- A race that was found; `newaction` is the last action of the thread of the new access. -/
structure DataRace where
  oldthread : ℕ
  oldclock : ℕ
  isoldwrite : Bool
  newaction : ℕ
  isnewwrite : Bool
  address : ℕ
deriving DecidableEq

/-- A full record; the arrays `readClock` and `thread` have the length `capacity`. -/
structure RaceRecord where
  readClock : ℕ → ℕ
  thread : ℕ → ℕ
  capacity : ℕ
  numReads : ℕ
  writeThread : ℕ
  writeClock : ℕ

/-- An entry of the shadow table: `0` or a word with the lowest bit set, or else a pointer. -/
inductive Shadow where
  | word (shadowval : ℕ)
  | record (record : RaceRecord)

/-- The arguments of a check, with the current clock vector of the thread and its last
action. -/
structure Access where
  thread : ℕ
  location : ℕ
  isWrite : Bool
  currClock : ClockVector
  action : ℕ
deriving DecidableEq

namespace Shadow

/-! ### Words -/

/-- `RDTHREADID`. -/
def rdThreadId (x : ℕ) : ℕ := (x >>> 1) &&& 0xff

/-- `READVECTOR`. -/
def readVector (x : ℕ) : ℕ := (x >>> 9) &&& 0x07fffff

/-- `WRTHREADID`. -/
def wrThreadId (x : ℕ) : ℕ := (x >>> 32) &&& 0xff

/-- `WRITEVECTOR`. -/
def writeVector (x : ℕ) : ℕ := (x >>> 40) &&& 0x07fffff

/-- `ENCODEOP`; the parts of the read are computed in 32 bits. -/
def encodeOp (rdthread rdtime wrthread wrtime : ℕ) : ℕ :=
  0x1 ||| rdthread <<< 1 % 2 ^ 32 ||| rdtime <<< 9 % 2 ^ 32 ||| wrthread <<< 32 % 2 ^ 64
    ||| wrtime <<< 40 % 2 ^ 64

/-- `MAXTHREADID`. -/
def maxThreadId : ℕ := 0xff - 1

/-- `MAXWRITEVECTOR`. -/
def maxWriteVector : ℕ := 0x07fffff - 1

end Shadow

namespace Access

/-- `clock_may_race`. -/
def clockMayRace (clock1 : ClockVector) (tid1 clock2 tid2 : ℕ) : Bool :=
  tid1 ≠ tid2 ∧ clock2 ≠ 0 ∧ clock1.getClock tid2 ≤ clock2

/-- The clock of the own thread. -/
def ourClock (a : Access) : ℕ := a.currClock.getClock a.thread

/-- The race to report because of an older access, if there may be one. -/
def against (a : Access) (isoldwrite : Bool) (clock tid : ℕ) : List DataRace :=
  if clockMayRace a.currClock a.thread clock tid then
    [⟨tid, clock, isoldwrite, a.action, a.isWrite, a.location⟩]
  else []

/-- The thread id or the clock does not fit in a word. -/
def Large (a : Access) : Prop := a.thread > Shadow.maxThreadId ∨ a.ourClock > Shadow.maxWriteVector

instance (a : Access) : Decidable a.Large := inferInstanceAs (Decidable (_ ∨ _))

end Access

namespace Shadow

open Access

/-! ### Full records -/

/-- `expandRecord`; without a read there are no arrays. -/
def expandRecord (shadowval : ℕ) : RaceRecord :=
  let readClock := readVector shadowval
  let record : RaceRecord :=
    { readClock _ := 0, thread _ := 0, capacity := 0, numReads := 0,
      writeThread := wrThreadId shadowval, writeClock := writeVector shadowval }
  if readClock ≠ 0 then
    { record with capacity := 4, numReads := 1,
                  thread := Function.update record.thread 0 (rdThreadId shadowval),
                  readClock := Function.update record.readClock 0 readClock }
  else record

/-- `fullRaceCheckWrite`. -/
def fullRaceCheckWrite (a : Access) (record : RaceRecord) : List DataRace × RaceRecord :=
  ((List.range record.numReads).flatMap
      (fun i => a.against false (record.readClock i) (record.thread i))
        ++ a.against true record.writeClock record.writeThread,
    { record with numReads := 0, writeThread := a.thread, writeClock := a.ourClock })

/-- One turn of the loop that shortens the arrays; `r.2` is `copytoindex`. -/
def shorten (a : Access) (r : RaceRecord × ℕ) (i : ℕ) : RaceRecord × ℕ :=
  if clockMayRace a.currClock a.thread (r.1.readClock i) (r.1.thread i) then
    if r.2 ≠ i then
      ({ r.1 with readClock := Function.update r.1.readClock r.2 (r.1.readClock i),
                  thread := Function.update r.1.thread r.2 (r.1.thread i) }, r.2 + 1)
    else (r.1, r.2 + 1)
  else r

/-- `fullRaceCheckRead`; `none` if the arrays are written beyond their end. -/
def fullRaceCheckRead (a : Access) (record : RaceRecord) : List DataRace × Option RaceRecord :=
  let races := a.against true record.writeClock record.writeThread
  let (record, copytoindex) := (List.range record.numReads).foldl (shorten a) (record, 0)
  let record :=
    if copytoindex ≥ record.capacity then { record with capacity := record.capacity * 2 }
    else record
  (races,
    if copytoindex < record.capacity then
      some { record with thread := Function.update record.thread copytoindex a.thread,
                         readClock := Function.update record.readClock copytoindex a.ourClock,
                         numReads := copytoindex + 1 }
    else none)

/-! ### Checks -/

/-- `raceCheckWrite`, with the entry that was looked up. -/
def raceCheckWrite (a : Access) : Shadow → List DataRace × Shadow
  | record r =>
      let (races, r) := fullRaceCheckWrite a r
      (races, record r)
  | word shadowval =>
      if a.Large then
        let (races, r) := fullRaceCheckWrite a (expandRecord shadowval)
        (races, record r)
      else
        (a.against false (readVector shadowval) (rdThreadId shadowval)
            ++ a.against true (writeVector shadowval) (wrThreadId shadowval),
          word (encodeOp 0 0 a.thread a.ourClock))

/-- `raceCheckRead`, with the entry that was looked up. -/
def raceCheckRead (a : Access) : Shadow → List DataRace × Option Shadow
  | record r =>
      let (races, r) := fullRaceCheckRead a r
      (races, r.map record)
  | word shadowval =>
      if a.Large then
        let (races, r) := fullRaceCheckRead a (expandRecord shadowval)
        (races, r.map record)
      else
        let races := a.against true (writeVector shadowval) (wrThreadId shadowval)
        if clockMayRace a.currClock a.thread (readVector shadowval) (rdThreadId shadowval) then
          let (races', r) := fullRaceCheckRead a (expandRecord shadowval)
          (races ++ races', r.map record)
        else
          (races, some (word (encodeOp a.thread a.ourClock (wrThreadId shadowval)
            (writeVector shadowval))))

/-- The check of an access. -/
def raceCheck (a : Access) (shadow : Shadow) : List DataRace × Option Shadow :=
  if a.isWrite then
    let (races, shadow) := raceCheckWrite a shadow
    (races, some shadow)
  else raceCheckRead a shadow

/-- What the checks of the accesses `as` to one address leave. -/
def checks (as : List Access) : Option Shadow :=
  as.foldlM (fun shadow a => (raceCheck a shadow).2) (word 0)

/-! ### Encoding -/

section Encoding

variable {rdthread rdtime wrthread wrtime : ℕ}

/-- Where the four fields fit, `encodeOp` puts them side by side over the bit that marks a word.
-/
theorem encodeOp_eq (hrdthread : rdthread < 2 ^ 8) (hrdtime : rdtime < 2 ^ 23)
    (hwrthread : wrthread < 2 ^ 8) (hwrtime : wrtime < 2 ^ 23) :
  encodeOp rdthread rdtime wrthread wrtime
    = wrtime * 2 ^ 40 + (wrthread * 2 ^ 32 + (rdtime * 2 ^ 9 + (rdthread * 2 + 1)))
  := by
  have hor : ∀ {i b : ℕ} (a : ℕ), b < 2 ^ i → b ||| a <<< i = a * 2 ^ i + b := by
    intro i b a hb
    rw [Nat.or_comm, ← Nat.shiftLeft_add_eq_or_of_lt hb, Nat.shiftLeft_eq]
  rw [encodeOp, Nat.mod_eq_of_lt (a := rdthread <<< 1) (by rw [Nat.shiftLeft_eq]; omega),
    Nat.mod_eq_of_lt (a := rdtime <<< 9) (by rw [Nat.shiftLeft_eq]; omega),
    Nat.mod_eq_of_lt (a := wrthread <<< 32) (by rw [Nat.shiftLeft_eq]; omega),
    Nat.mod_eq_of_lt (a := wrtime <<< 40) (by rw [Nat.shiftLeft_eq]; omega),
    hor rdthread (by omega), hor rdtime (by omega), hor wrthread (by omega),
    hor wrtime (by omega), pow_one]

/-- The masks keep the lower 8 and 23 bits. -/
theorem and_mask (x : ℕ) :
  x &&& 0xff = x % 2 ^ 8 ∧ x &&& 0x07fffff = x % 2 ^ 23
  := ⟨Nat.and_two_pow_sub_one_eq_mod x 8, Nat.and_two_pow_sub_one_eq_mod x 23⟩

/-- Each part of a word is read back. -/
theorem decode (hrdthread : rdthread < 2 ^ 8) (hrdtime : rdtime < 2 ^ 23)
    (hwrthread : wrthread < 2 ^ 8) (hwrtime : wrtime < 2 ^ 23) :
  rdThreadId (encodeOp rdthread rdtime wrthread wrtime) = rdthread ∧
    readVector (encodeOp rdthread rdtime wrthread wrtime) = rdtime ∧
    wrThreadId (encodeOp rdthread rdtime wrthread wrtime) = wrthread ∧
    writeVector (encodeOp rdthread rdtime wrthread wrtime) = wrtime
  := by
  rw [encodeOp_eq hrdthread hrdtime hwrthread hwrtime]
  simp only [rdThreadId, readVector, wrThreadId, writeVector, and_mask, Nat.shiftRight_eq_div_pow]
  omega

/-- The thread field of a word is 8 bits wide. -/
theorem wrThreadId_lt (x : ℕ) :
  wrThreadId x < 2 ^ 8
  := by
  rw [wrThreadId, (and_mask _).1]
  apply Nat.mod_lt _ (Nat.two_pow_pos 8)

/-- The clock field of a word is 23 bits wide. -/
theorem writeVector_lt (x : ℕ) :
  writeVector x < 2 ^ 23
  := by
  rw [writeVector, (and_mask _).2]
  apply Nat.mod_lt _ (Nat.two_pow_pos 23)

end Encoding

/-! ### What is in a record -/

/-- The clocks and threads of the reads. -/
def reads : Shadow → List (ℕ × ℕ)
  | word shadowval =>
      if readVector shadowval = 0 then [] else [(readVector shadowval, rdThreadId shadowval)]
  | record r => (List.range r.numReads).map fun i => (r.readClock i, r.thread i)

/-- The clock and thread of the write; the clock is `0` if there is none. -/
def write : Shadow → ℕ × ℕ
  | word shadowval => (writeVector shadowval, wrThreadId shadowval)
  | record r => (r.writeClock, r.writeThread)

/-- Expanding a word keeps its reads. -/
theorem reads_expandRecord (shadowval : ℕ) :
  (record (expandRecord shadowval)).reads = (word shadowval).reads
  := by
  rw [reads, reads, expandRecord]
  by_cases h : readVector shadowval = 0
  · simp [h]
  · simp [h]

/-- Expanding a word keeps its last write. -/
theorem write_expandRecord (shadowval : ℕ) :
  (record (expandRecord shadowval)).write = (word shadowval).write
  := by
  rw [write, write, expandRecord]
  split_ifs
  · rfl
  · rfl

/-- Whether there may be a race of `a` with an access of the thread `x.2`. -/
def mayRace (a : Access) (x : ℕ × ℕ) : Bool :=
  clockMayRace a.currClock a.thread x.1 x.2

/-- An ordered pair is not reported. -/
theorem against_of_not {a : Access} {isoldwrite : Bool} {clock tid : ℕ}
    (h : ¬ clockMayRace a.currClock a.thread clock tid = true) :
  a.against isoldwrite clock tid = []
  := by rw [against, if_neg h]

/-- The loop that shortens the arrays up to the read `n`. -/
theorem shorten_loop (a : Access) (r : RaceRecord) (n : ℕ) :
  ∃ r' copytoindex, (List.range n).foldl (shorten a) (r, 0) = (r', copytoindex) ∧
    copytoindex ≤ n ∧
    (List.range copytoindex).map (fun i => (r'.readClock i, r'.thread i))
      = ((List.range n).map fun i => (r.readClock i, r.thread i)).filter (mayRace a) ∧
    (∀ i, n ≤ i → r'.readClock i = r.readClock i ∧ r'.thread i = r.thread i) ∧
    r'.capacity = r.capacity ∧ r'.writeClock = r.writeClock ∧ r'.writeThread = r.writeThread
  := by
  induction n with
  | zero => exact ⟨r, 0, rfl, le_rfl, rfl, fun i _ => ⟨rfl, rfl⟩, rfl, rfl, rfl⟩
  | succ n ih =>
      obtain ⟨r', c, hfold, hle, hreads, hrest, hcapacity, hclock, hthread⟩ := ih
      have hn := hrest n le_rfl
      rw [List.range_succ, List.foldl_append, hfold]
      simp only [List.foldl_cons, List.foldl_nil, shorten, hn.1, hn.2, List.map_append,
        List.map_cons, List.map_nil, List.filter_append]
      split_ifs with hrace hne
      · refine ⟨_, _, rfl, by omega, ?_, ?_, hcapacity, hclock, hthread⟩
        · have hold : (List.range c).map (fun i =>
              (Function.update r'.readClock c (r.readClock n) i,
                Function.update r'.thread c (r.thread n) i))
              = (List.range c).map fun i => (r'.readClock i, r'.thread i) := by
            apply List.map_congr_left
            intro i hi
            have hi : i ≠ c := (List.mem_range.mp hi).ne
            rw [Function.update_of_ne hi, Function.update_of_ne hi]
          have hkeep : mayRace a (r.readClock n, r.thread n) = true := hrace
          rw [List.range_succ, List.map_append, hold, hreads]
          simp [hkeep]
        · intro i hi
          have hic : i ≠ c := by omega
          simp only [Function.update_of_ne hic]
          apply hrest i (by omega)
      · have hc : c = n := not_not.mp hne
        refine ⟨_, _, rfl, by omega, ?_, fun i hi => hrest i (by omega), hcapacity, hclock,
          hthread⟩
        have hkeep : mayRace a (r.readClock n, r.thread n) = true := hrace
        rw [List.range_succ, List.map_append, hreads]
        simp [hkeep, hc, hn.1, hn.2]
      · refine ⟨_, _, rfl, by omega, ?_, fun i hi => hrest i (by omega), hcapacity, hclock,
          hthread⟩
        have hdrop : ¬ mayRace a (r.readClock n, r.thread n) = true := hrace
        rw [hreads]
        simp [hdrop]

/-- The arrays of a record are long enough. -/
def Fits : Shadow → Prop
  | word _ => True
  | record r => r.numReads ≤ r.capacity

/-- There is no room for the read `a`. -/
def NoRoom (a : Access) : Shadow → Prop
  | word shadowval => a.Large ∧ readVector shadowval = 0
  | record r => r.capacity = 0

/-- An expanded word has room for what it holds. -/
theorem fits_expandRecord (shadowval : ℕ) :
  (record (expandRecord shadowval)).Fits
  := by
  rw [Fits, expandRecord]
  split_ifs
  · simp
  · simp

/-- A word without a read is expanded to a record without arrays. -/
theorem capacity_expandRecord (shadowval : ℕ) :
  (expandRecord shadowval).capacity = 0 ↔ readVector shadowval = 0
  := by
  rw [expandRecord]
  split_ifs with h
  · simp [h]
  · simpa using h

/-- A read checked against a record with arrays keeps the reads that may race with it and adds
itself. -/
theorem fullRaceCheckRead_spec (a : Access) {r : RaceRecord} (hfits : (record r).Fits)
    (hroom : r.capacity ≠ 0) :
  ∃ r', (fullRaceCheckRead a r).2 = some r' ∧
    (record r').reads = (record r).reads.filter (mayRace a) ++ [(a.ourClock, a.thread)] ∧
    (record r').write = (record r).write ∧ (record r').Fits ∧ r'.capacity ≠ 0
  := by
  obtain ⟨r', c, hfold, hle, hreads, -, hcapacity, hclock, hthread⟩ :=
    shorten_loop a r r.numReads
  have hc : c ≤ r.capacity := hle.trans hfits
  have hkept : ∀ capacity, (record
      { r' with capacity, thread := Function.update r'.thread c a.thread,
                readClock := Function.update r'.readClock c a.ourClock,
                numReads := c + 1 }).reads
      = (record r).reads.filter (mayRace a) ++ [(a.ourClock, a.thread)] := by
    intro capacity
    have hold : (List.range c).map (fun i =>
        (Function.update r'.readClock c a.ourClock i, Function.update r'.thread c a.thread i))
        = (List.range c).map fun i => (r'.readClock i, r'.thread i) := by
      apply List.map_congr_left
      intro i hi
      have hi : i ≠ c := (List.mem_range.mp hi).ne
      rw [Function.update_of_ne hi, Function.update_of_ne hi]
    simp only [reads, List.range_succ, List.map_append, hold, hreads]
    simp
  have hwrite : (r'.writeClock, r'.writeThread) = (record r).write := by
    rw [hclock, hthread]
    rfl
  simp only [fullRaceCheckRead, hfold, hcapacity]
  by_cases hfull : c ≥ r.capacity
  · rw [if_pos hfull, if_pos (show c < r.capacity * 2 by omega)]
    refine ⟨_, rfl, hkept _, hwrite, ?_, ?_⟩
    · change c + 1 ≤ r.capacity * 2
      omega
    · change r.capacity * 2 ≠ 0
      omega
  · rw [if_neg hfull, if_pos (show c < r'.capacity by omega)]
    refine ⟨_, rfl, hkept _, hwrite, ?_, ?_⟩
    · change c + 1 ≤ r'.capacity
      omega
    · change r'.capacity ≠ 0
      omega

/-- A read checked against a record without arrays is written past the end of an array. -/
theorem fullRaceCheckRead_none (a : Access) {r : RaceRecord} (hfull : r.capacity = 0) :
  (fullRaceCheckRead a r).2 = none
  := by
  obtain ⟨r', c, hfold, -, -, -, hcapacity, -⟩ := shorten_loop a r r.numReads
  simp only [fullRaceCheckRead, hfold, hcapacity, hfull]
  rw [if_pos (Nat.zero_le c)]
  apply if_neg
  simp

/-- A write is reported against the racing reads and the racing last write of the record. -/
theorem fullRaceCheckWrite_races (a : Access) (r : RaceRecord) :
  (fullRaceCheckWrite a r).1
    = (record r).reads.flatMap (fun x => a.against false x.1 x.2)
      ++ a.against true (record r).write.1 (record r).write.2
  := by
  rw [reads, List.flatMap_map]
  rfl

/-- A word has one read to report, or none. -/
theorem reads_word_races (a : Access) (shadowval : ℕ) :
  (word shadowval).reads.flatMap (fun x => a.against false x.1 x.2)
    = a.against false (readVector shadowval) (rdThreadId shadowval)
  := by
  rw [reads]
  split_ifs with h
  · rw [against_of_not]
    · rfl
    · simp [clockMayRace, h]
  · simp

/-! ### Checks of one access -/

section Checks

variable {a : Access} {shadow shadow' : Shadow}

/-- The access fits into a word. -/
theorem Small.lt (h : ¬ a.Large) :
  a.thread < 2 ^ 8 ∧ a.ourClock < 2 ^ 23
  := by
  simp only [Access.Large, maxThreadId, maxWriteVector, not_or] at h
  omega

/-- After a write, the shadow holds that write and no reads. -/
theorem raceCheckWrite_spec (a : Access) (shadow : Shadow) :
  (raceCheckWrite a shadow).2.reads = [] ∧
    (raceCheckWrite a shadow).2.write = (a.ourClock, a.thread) ∧
    (raceCheckWrite a shadow).2.Fits
  := by
  have hfull : ∀ r, (record (fullRaceCheckWrite a r).2).reads = [] ∧
      (record (fullRaceCheckWrite a r).2).write = (a.ourClock, a.thread) ∧
      (record (fullRaceCheckWrite a r).2).Fits := fun r => ⟨rfl, rfl, Nat.zero_le _⟩
  cases shadow with
  | record r => apply hfull
  | word shadowval =>
      rw [raceCheckWrite]
      split_ifs with hlarge
      · apply hfull
      · obtain ⟨hthread, hclock⟩ := Small.lt hlarge
        obtain ⟨-, hreadVector, hwrThreadId, hwriteVector⟩ :=
          decode (Nat.two_pow_pos 8) (Nat.two_pow_pos 23) hthread hclock
        refine ⟨?_, ?_, trivial⟩
        · rw [reads, if_pos hreadVector]
        · rw [write, hwriteVector, hwrThreadId]

/-- The races of a write are those with the reads and with the write in the record. -/
theorem raceCheckWrite_races (a : Access) (shadow : Shadow) :
  (raceCheckWrite a shadow).1 = shadow.reads.flatMap (fun x => a.against false x.1 x.2)
    ++ a.against true shadow.write.1 shadow.write.2
  := by
  cases shadow with
  | record r => apply fullRaceCheckWrite_races
  | word shadowval =>
      rw [raceCheckWrite]
      split_ifs with hlarge
      · rw [← reads_expandRecord, ← write_expandRecord]
        apply fullRaceCheckWrite_races
      · rw [reads_word_races]
        rfl

/-- After a read that returns, the shadow holds the reads that may race with it, and the read. -/
theorem raceCheckRead_spec (hpos : 0 < a.ourClock) (hfits : shadow.Fits)
    (h : (raceCheckRead a shadow).2 = some shadow') :
  shadow'.reads = shadow.reads.filter (mayRace a) ++ [(a.ourClock, a.thread)] ∧
    shadow'.write = shadow.write ∧ shadow'.Fits
  := by
  have hfull : ∀ {r : RaceRecord}, (record r).Fits →
      (fullRaceCheckRead a r).2.map record = some shadow' →
      shadow'.reads = (record r).reads.filter (mayRace a) ++ [(a.ourClock, a.thread)] ∧
        shadow'.write = (record r).write ∧ shadow'.Fits := by
    intro r hfits hr
    have hroom : r.capacity ≠ 0 := by
      intro hzero
      rw [fullRaceCheckRead_none a hzero] at hr
      cases hr
    obtain ⟨r', heq, hreads, hwrite, hfits', -⟩ := fullRaceCheckRead_spec a hfits hroom
    rw [heq] at hr
    cases hr
    exact ⟨hreads, hwrite, hfits'⟩
  cases shadow with
  | record r => apply hfull hfits h
  | word shadowval =>
      rw [raceCheckRead] at h
      split_ifs at h with hlarge hrace
      · rw [← reads_expandRecord, ← write_expandRecord]
        apply hfull (fits_expandRecord shadowval) h
      · rw [← reads_expandRecord, ← write_expandRecord]
        apply hfull (fits_expandRecord shadowval) h
      · cases h
        obtain ⟨hthread, hclock⟩ := Small.lt hlarge
        obtain ⟨hrdThreadId, hreadVector, hwrThreadId, hwriteVector⟩ :=
          decode hthread hclock (wrThreadId_lt shadowval) (writeVector_lt shadowval)
        have hsubsumed : (word shadowval).reads.filter (mayRace a) = [] := by
          rw [reads]
          split_ifs
          · rfl
          · simp [mayRace, hrace]
        refine ⟨?_, ?_, trivial⟩
        · rw [hsubsumed, reads, hreadVector, hrdThreadId, if_neg hpos.ne']
          rfl
        · rw [write, hwriteVector, hwrThreadId]
          rfl

/-- The races of a read are those with the write in the record. -/
theorem raceCheckRead_races (a : Access) (shadow : Shadow) (d : DataRace) :
  d ∈ (raceCheckRead a shadow).1 ↔ d ∈ a.against true shadow.write.1 shadow.write.2
  := by
  have hfull : ∀ r : RaceRecord, (fullRaceCheckRead a r).1
      = a.against true (record r).write.1 (record r).write.2 := fun _ => rfl
  cases shadow with
  | record r => rfl
  | word shadowval =>
      rw [raceCheckRead]
      split_ifs with hlarge hrace
      · simp only [hfull, write_expandRecord]
      · simp only [hfull, write_expandRecord, List.mem_append]
        apply or_self_iff
      · rfl

/-- A read overflows exactly where the shadow has no room for it. -/
theorem raceCheckRead_none (hfits : shadow.Fits) :
  (raceCheckRead a shadow).2 = none ↔ shadow.NoRoom a
  := by
  have hfull : ∀ {r : RaceRecord}, (record r).Fits →
      ((fullRaceCheckRead a r).2.map record = none ↔ r.capacity = 0) := by
    intro r hfits
    rw [Option.map_eq_none_iff]
    constructor
    · intro hnone
      by_contra hroom
      obtain ⟨r', heq, -⟩ := fullRaceCheckRead_spec a hfits hroom
      rw [heq] at hnone
      cases hnone
    · apply fullRaceCheckRead_none
  cases shadow with
  | record r => apply hfull hfits
  | word shadowval =>
      rw [raceCheckRead, NoRoom]
      split_ifs with hlarge hrace
      · rw [hfull (fits_expandRecord shadowval), capacity_expandRecord]
        simp [hlarge]
      · rw [hfull (fits_expandRecord shadowval), capacity_expandRecord]
        have hread : readVector shadowval ≠ 0 := by
          intro hzero
          simp [clockMayRace, hzero] at hrace
        simp [hread, hlarge]
      · simp [hlarge]

/-! ### The last accesses -/

/-- The access `x` rules out a race with `a`. -/
def Before (x a : Access) : Prop := ¬ clockMayRace a.currClock a.thread x.ourClock x.thread

instance : DecidableRel Before := fun _ _ => inferInstanceAs (Decidable (¬ _))

/-- The race reported at `a` because of `x`. -/
def raceWith (a x : Access) : DataRace :=
  ⟨x.thread, x.ourClock, x.isWrite, a.action, a.isWrite, a.location⟩

/-- A record has the last accesses in it. -/
structure Holds (shadow : Shadow) (s : LastAccess Access) : Prop where
  reads : shadow.reads = s.reads.map fun r => (r.ourClock, r.thread)
  unwritten : s.write = none → shadow.write.1 = 0
  written : ∀ w, s.write = some w → shadow.write = (w.ourClock, w.thread)
  isRead : ∀ r, r ∈ s.reads → r.isWrite = false
  isWrite : ∀ w, s.write = some w → w.isWrite = true
  fits : shadow.Fits

/-- The shadow of a location never accessed holds no access. -/
theorem holds_new :
  (word 0).Holds ⟨none, []⟩
  := by
  constructor
  · rfl
  · intro _
    rfl
  · rintro w ⟨⟩
  · rintro r ⟨⟩
  · rintro w ⟨⟩
  · trivial

/-- What is reported against one recorded access. -/
theorem mem_against {isoldwrite : Bool} {clock tid : ℕ} {d : DataRace} :
  d ∈ a.against isoldwrite clock tid ↔
    clockMayRace a.currClock a.thread clock tid = true ∧
      d = ⟨tid, clock, isoldwrite, a.action, a.isWrite, a.location⟩
  := by
  rw [against]
  split_ifs with h
  · simp [h]
  · simp [h]

/-- What is reported because of the last write. -/
theorem Holds.mem_against_write {s : LastAccess Access} (h : shadow.Holds s) {d : DataRace} :
  d ∈ a.against true shadow.write.1 shadow.write.2 ↔
    ∃ w, s.write = some w ∧ ¬ Before w a ∧ d = raceWith a w
  := by
  rw [mem_against]
  cases hw : s.write with
  | none => simp [h.unwritten hw, clockMayRace]
  | some w => simp [h.written w hw, Before, raceWith, h.isWrite w hw]

/-- What is reported because of the reads. -/
theorem Holds.mem_against_reads {s : LastAccess Access} (h : shadow.Holds s) {d : DataRace} :
  d ∈ shadow.reads.flatMap (fun x => a.against false x.1 x.2) ↔
    ∃ r, r ∈ s.reads ∧ ¬ Before r a ∧ d = raceWith a r
  := by
  rw [h.reads, List.mem_flatMap]
  constructor
  · rintro ⟨x, hx, hd⟩
    obtain ⟨r, hr, rfl⟩ := List.mem_map.mp hx
    obtain ⟨hrace, rfl⟩ := mem_against.mp hd
    refine ⟨r, hr, not_not.mpr hrace, ?_⟩
    rw [raceWith, h.isRead r hr]
  · rintro ⟨r, hr, hrace, rfl⟩
    refine ⟨_, List.mem_map_of_mem hr, mem_against.mpr ⟨not_not.mp hrace, ?_⟩⟩
    rw [raceWith, h.isRead r hr]

/-- A check reports the races with the last accesses. -/
theorem raceCheck_races {s : LastAccess Access} (hholds : shadow.Holds s) (a : Access)
    (d : DataRace) :
  d ∈ (raceCheck a shadow).1 ↔
    ∃ p, p ∈ s.reported Before Access.isWrite a ∧ d = raceWith p.2 p.1
  := by
  have hreported : (∃ p, p ∈ s.reported Before Access.isWrite a ∧ d = raceWith p.2 p.1) ↔
      ∃ x, x ∈ s.rivals Access.isWrite a ∧ ¬ Before x a ∧ d = raceWith a x := by
    simp only [LastAccess.reported, List.mem_map, List.mem_filter, decide_eq_true_eq]
    constructor
    · rintro ⟨p, ⟨x, ⟨hx, hrace⟩, rfl⟩, hd⟩
      exact ⟨x, hx, hrace, hd⟩
    · rintro ⟨x, hx, hrace, hd⟩
      exact ⟨_, ⟨x, ⟨hx, hrace⟩, rfl⟩, hd⟩
  simp only [hreported, LastAccess.mem_rivals]
  rw [raceCheck]
  split_ifs with hwrite
  · change d ∈ (raceCheckWrite a shadow).1 ↔ _
    rw [raceCheckWrite_races, List.mem_append, hholds.mem_against_reads, hholds.mem_against_write]
    constructor
    · rintro (⟨r, hr, hrace, hd⟩ | ⟨w, hw, hrace, hd⟩)
      · exact ⟨r, .inr ⟨hwrite, hr⟩, hrace, hd⟩
      · exact ⟨w, .inl hw, hrace, hd⟩
    · rintro ⟨x, hw | ⟨-, hr⟩, hrace, hd⟩
      · exact .inr ⟨x, hw, hrace, hd⟩
      · exact .inl ⟨x, hr, hrace, hd⟩
  · rw [raceCheckRead_races, hholds.mem_against_write]
    simp [hwrite]

/-- A check records its own access. -/
theorem raceCheck_holds {s : LastAccess Access} (hpos : 0 < a.ourClock) (hholds : shadow.Holds s)
    (h : (raceCheck a shadow).2 = some shadow') :
  shadow'.Holds (s.remember Before Access.isWrite a)
  := by
  rw [raceCheck] at h
  rw [LastAccess.remember]
  split_ifs at h ⊢ with hwrite
  · obtain ⟨hreads, hwritten, hfits⟩ := raceCheckWrite_spec a shadow
    rw [Option.some_inj] at h
    rw [h] at hreads hwritten hfits
    constructor
    · apply hreads
    · rintro ⟨⟩
    · rintro w ⟨⟩
      apply hwritten
    · rintro r ⟨⟩
    · rintro w ⟨⟩
      apply hwrite
    · apply hfits
  · obtain ⟨hreads, hwritten, hfits⟩ := raceCheckRead_spec hpos hholds.fits h
    constructor
    · rw [hreads, hholds.reads, List.filter_map, List.map_append]
      congr 2
      apply List.filter_congr
      intro r hr
      simp [Before, mayRace]
    · rw [hwritten]
      apply hholds.unwritten
    · rw [hwritten]
      apply hholds.written
    · intro r hr
      rcases List.mem_append.mp hr with hold | hnew
      · apply hholds.isRead r (List.mem_filter.mp hold).1
      · rw [List.mem_singleton.mp hnew]
        simpa using hwrite
    · apply hholds.isWrite
    · apply hfits

end Checks

/-! ### Checks of all accesses -/

section Runs

variable {as : List Access} {shadow : Shadow}

/-- The last accesses. -/
abbrev last (as : List Access) : LastAccess Access :=
  (LastAccess.run Before Access.isWrite as).1

/-- The accesses are checked one after the other. -/
theorem checks_append (as : List Access) (a : Access) :
  checks (as ++ [a]) = (checks as).bind fun shadow => (raceCheck a shadow).2
  := by simp [checks]

/-- After the checks the record has the last accesses in it. -/
theorem checks_holds (hpos : ∀ a, a ∈ as → 0 < a.ourClock) (h : checks as = some shadow) :
  shadow.Holds (last as)
  := by
  induction as using List.reverseRecOn generalizing shadow with
  | nil =>
      cases h
      apply holds_new
  | append_singleton as a ih =>
      rw [checks_append] at h
      obtain ⟨shadow₀, hchecks, hcheck⟩ := Option.bind_eq_some_iff.mp h
      have hholds := ih (fun x hx => hpos x (List.mem_append_left _ hx)) hchecks
      rw [last, LastAccess.run_append]
      apply raceCheck_holds (hpos a (by simp)) hholds hcheck

end Runs

end Shadow

import Mathlib.Data.Fintype.Basic
import ParallelArch.Concurrency.Threads

/-!
# Packed flags

Flags packed in words of `W` bits.  A thread that clears a flag loads its word and then
stores the word with one bit cleared; between the two another thread may store the same
word, and what it has cleared is lost.  `clearing` is the machine of threads that clear
lists of flags in this way.  If no word has flags of two threads no clear is lost
(`flag_of_ended`); if some word has, a run loses one (`lost_clear`).
-/

/-- Flags packed in words of `W` bits. -/
abbrev Flags (W : ℕ) := ℕ → BitVec W

namespace Flags

variable {W : ℕ}

/-! ### Clearing one flag -/

/-- A word with one bit cleared. -/
def clearBit (word : BitVec W) (k : ℕ) : BitVec W := word &&& ~~~(1#W <<< k)

/-- The flag `j`. -/
def flag (m : Flags W) (j : ℕ) : Bool := (m (j / W)).getLsbD (j % W)

/-- The store of a word with the flag `j` cleared. -/
def store (m : Flags W) (j : ℕ) (word : BitVec W) : Flags W :=
  Function.update m (j / W) (clearBit word (j % W))

/-- The flags with the flag `j` cleared. -/
def clear (m : Flags W) (j : ℕ) : Flags W := m.store j (m (j / W))

theorem getLsbD_clearBit (word : BitVec W) {k : ℕ} (b : ℕ) (hk : k < W) :
  (clearBit word b).getLsbD k = (word.getLsbD k && decide (k ≠ b))
  := by
  rcases eq_or_ne k b with rfl | hne
  · simp [clearBit, hk]
  · have hbit : k < b ∨ ¬ k - b = 0 := by omega
    simp [clearBit, hk, hne, hbit]

/-- The other flags of the stored word are as they were loaded. -/
theorem flag_store_of_word (hW : 0 < W) (m : Flags W) {j k : ℕ} (word : BitVec W)
    (hword : k / W = j / W) :
  (m.store j word).flag k = (word.getLsbD (k % W) && decide (k ≠ j))
  := by
  have hbit : k % W = j % W ↔ k = j := by
    constructor
    · intro heq
      rw [← Nat.div_add_mod k W, hword, heq, Nat.div_add_mod]
    · rintro rfl
      rfl
  rw [flag, store, hword, Function.update_self, getLsbD_clearBit _ _ (Nat.mod_lt k hW)]
  simp only [ne_eq, hbit]

theorem flag_store_of_ne (m : Flags W) {j k : ℕ} (word : BitVec W) (hword : k / W ≠ j / W) :
  (m.store j word).flag k = m.flag k
  := by
  rw [flag, store, Function.update_of_ne hword, flag]

theorem flag_clear (hW : 0 < W) (m : Flags W) (j k : ℕ) :
  (m.clear j).flag k = (m.flag k && decide (k ≠ j))
  := by
  rcases eq_or_ne (k / W) (j / W) with hword | hword
  · rw [clear, flag_store_of_word hW m _ hword, flag, hword]
  · have hne : k ≠ j := by
      rintro rfl
      apply hword rfl
    rw [clear, flag_store_of_ne m _ hword, decide_eq_true hne, Bool.and_true]

/-- The flags with all the given flags cleared. -/
def clearAll (m : Flags W) (js : List ℕ) : Flags W := js.foldl clear m

theorem flag_clearAll (hW : 0 < W) {js : List ℕ} :
  ∀ (m : Flags W) (k : ℕ), (m.clearAll js).flag k = true ↔ m.flag k = true ∧ k ∉ js
  := by
  induction js with
  | nil =>
      intro m k
      simp [clearAll]
  | cons j js ih =>
      intro m k
      have hrest := ih (m.clear j) k
      rw [flag_clear hW, Bool.and_eq_true, decide_eq_true_eq, and_assoc] at hrest
      rw [List.mem_cons, not_or]
      apply hrest

/-! ### Threads that clear flags -/

/-- A thread with flags left to clear: before the load of the word of the first of them, or
before the store of the word it has loaded for the flag `j`. -/
inductive Clearer (W : ℕ) where
  | load (todo : List ℕ)
  | store (j : ℕ) (word : BitVec W) (rest : List ℕ)

/-- The flags a thread has left to clear. -/
def Clearer.todo : Clearer W → List ℕ
  | .load todo => todo
  | .store j _ rest => j :: rest

/-- The load and the store by which a thread clears its next flag. -/
def clearStep (m : Flags W) : Clearer W → Option (Outcome (Flags W) (Clearer W) Empty)
  | .load [] => none
  | .load (j :: rest) => some { mem := m, loc := .store j (m (j / W)) rest }
  | .store j word rest => some { mem := m.store j word, loc := .load rest }

variable {ι : Type*} [DecidableEq ι]

/-- The threads clear the flags of their lists. -/
def clearing (m₀ : Flags W) (todo : ι → List ℕ) :
    Machine (Global ι (Flags W) (Clearer W)) (ι × Unit) (ι × Empty) :=
  threads (fun m l => m = m₀ ∧ ∀ i, l i = .load (todo i)) fun _ m t _ => clearStep m t

/-- A step that loads the word of the flag `j`, or stores it. -/
theorem clearStep_cases {m : Flags W} {t : Clearer W} {o : Outcome (Flags W) (Clearer W) Empty}
    (h : clearStep m t = some o) :
  (∃ j rest, t = .load (j :: rest) ∧ o.mem = m ∧ o.loc = .store j (m (j / W)) rest)
    ∨ ∃ j word rest, t = .store j word rest ∧ o.mem = m.store j word ∧ o.loc = .load rest
  := by
  cases t with
  | load todo =>
      cases todo with
      | nil => cases h
      | cons j rest =>
          obtain rfl := Option.some.inj h
          left
          exact ⟨j, rest, rfl, rfl, rfl⟩
  | store j word rest =>
      obtain rfl := Option.some.inj h
      right
      exact ⟨j, word, rest, rfl, rfl, rfl⟩

/-! ### No lost clear -/

/-- The threads have cleared the flags `done`, and a word that has been loaded is still in
memory. -/
structure Cleared (m₀ : Flags W) (todo : ι → List ℕ) (m : Flags W) (l : ι → Clearer W)
    (done : ι → List ℕ) : Prop where
  split : ∀ i, done i ++ (l i).todo = todo i
  word : ∀ i j word rest, l i = .store j word rest → word = m (j / W)
  flag : ∀ k, m.flag k = true ↔ m₀.flag k = true ∧ ∀ i, k ∉ done i

/-- No word has flags of two threads. -/
def Apart (W : ℕ) (todo : ι → List ℕ) : Prop :=
  ∀ i i' j j', i ≠ i' → j ∈ todo i → j' ∈ todo i' → j / W ≠ j' / W

variable {m₀ : Flags W} {todo : ι → List ℕ}

/-- After a load the word is in memory. -/
theorem Cleared.load {m : Flags W} {l : ι → Clearer W} {done : ι → List ℕ}
    (h : Cleared m₀ todo m l done) {i : ι} {j : ℕ} {rest : List ℕ} (hi : l i = .load (j :: rest)) :
  Cleared m₀ todo m (Function.update l i (.store j (m (j / W)) rest)) done
  := by
  constructor
  · intro k
    rcases eq_or_ne k i with rfl | hne
    · rw [← h.split k, hi, Function.update_self]
      rfl
    · rw [Function.update_of_ne hne, h.split k]
  · intro k j' word rest' hk
    rcases eq_or_ne k i with rfl | hne
    · rw [Function.update_self] at hk
      cases hk
      rfl
    · rw [Function.update_of_ne hne] at hk
      apply h.word k j' word rest' hk
  · apply h.flag

/-- A store clears its flag, and leaves the words the other threads have loaded. -/
theorem Cleared.store (hW : 0 < W) (hapart : Apart W todo) {m : Flags W} {l : ι → Clearer W}
    {done : ι → List ℕ} (h : Cleared m₀ todo m l done) {i : ι} {j : ℕ} {word : BitVec W}
    {rest : List ℕ} (hi : l i = .store j word rest) :
  Cleared m₀ todo (m.store j word) (Function.update l i (.load rest))
    (Function.update done i (done i ++ [j]))
  := by
  obtain rfl := h.word i j word rest hi
  have hsplit := h.split i
  rw [hi] at hsplit
  constructor
  · intro k
    rcases eq_or_ne k i with rfl | hne
    · rw [Function.update_self, Function.update_self, List.append_assoc, ← hsplit]
      rfl
    · rw [Function.update_of_ne hne, Function.update_of_ne hne, h.split k]
  · intro k j' word' rest' hk
    rcases eq_or_ne k i with rfl | hne
    · rw [Function.update_self] at hk
      cases hk
    · rw [Function.update_of_ne hne] at hk
      have hword : j' / W ≠ j / W := by
        apply hapart k i j' j hne
        · rw [← h.split k, hk]
          apply List.mem_append_right _ List.mem_cons_self
        · rw [← hsplit]
          apply List.mem_append_right _ List.mem_cons_self
      rw [h.word k j' word' rest' hk, Flags.store, Function.update_of_ne hword]
  · intro k
    rw [← clear, flag_clear hW, Bool.and_eq_true, h.flag, decide_eq_true_eq, and_assoc]
    apply and_congr_right
    intro _
    constructor
    · rintro ⟨hdone, hne⟩ i'
      rcases eq_or_ne i' i with rfl | hi'
      · rw [Function.update_self, List.mem_append, List.mem_singleton, not_or]
        use hdone i'
      · rw [Function.update_of_ne hi']
        apply hdone
    · intro hdone
      have hlast := hdone i
      rw [Function.update_self, List.mem_append, List.mem_singleton, not_or] at hlast
      constructor
      · intro i'
        rcases eq_or_ne i' i with rfl | hi'
        · apply hlast.1
        · have hother := hdone i'
          rw [Function.update_of_ne hi'] at hother
          apply hother
      · apply hlast.2

/-- If no word has flags of two threads, no clear is lost in any run. -/
theorem clearing_cleared (hW : 0 < W) (hapart : Apart W todo) {h : List (ι × Empty)}
    {s : Global ι (Flags W) (Clearer W)}
    (hs : (clearing m₀ todo).Reachable Machine.Free h s) :
  ∃ done, Cleared m₀ todo s.mem s.loc done
  := by
  apply threads_invariant (I := fun m l _ => ∃ done, Cleared m₀ todo m l done) _ _ hs
  · rintro m l ⟨rfl, hl⟩
    use fun _ => []
    constructor
    · intro i
      rw [hl i]
      rfl
    · intro i j word rest hi
      rw [hl i] at hi
      cases hi
    · simp
  · rintro m l h i - o ⟨done, hcleared⟩ - hstep
    obtain ⟨j, rest, hi, hm, ho⟩ | ⟨j, word, rest, hi, hm, ho⟩ := clearStep_cases hstep
    · rw [hm, ho]
      use done
      apply hcleared.load hi
    · rw [hm, ho]
      use Function.update done i (done i ++ [j])
      apply hcleared.store hW hapart hi

theorem flag_of_ended (hW : 0 < W) (hapart : Apart W todo) {h : List (ι × Empty)}
    {s : Global ι (Flags W) (Clearer W)} (hs : (clearing m₀ todo).Reachable Machine.Free h s)
    (hend : ∀ i, s.loc i = .load []) (k : ℕ) :
  s.mem.flag k = true ↔ m₀.flag k = true ∧ ∀ i, k ∉ todo i
  := by
  obtain ⟨done, hcleared⟩ := clearing_cleared hW hapart hs
  have hdone : done = todo := by
    funext i
    rw [← hcleared.split i, hend i]
    exact (List.append_nil _).symm
  rw [hcleared.flag k, hdone]

/-- The flag `k` is `v`, also in every word that a thread has loaded. -/
structure Keeps (k : ℕ) (v : Bool) (m : Flags W) (l : ι → Clearer W) : Prop where
  flag : m.flag k = v
  untouched : v = true → ∀ i, k ∉ (l i).todo
  loaded : ∀ i j word rest, l i = .store j word rest → k / W = j / W →
    word.getLsbD (k % W) = v

/-- A flag that is not set, or that no thread clears, stays as it is, whatever words the threads
share. -/
theorem clearing_keeps (hW : 0 < W) {k : ℕ} {v : Bool} (hflag : m₀.flag k = v)
    (hout : v = true → ∀ i, k ∉ todo i) {h : List (ι × Empty)}
    {s : Global ι (Flags W) (Clearer W)} (hs : (clearing m₀ todo).Reachable Machine.Free h s) :
  s.mem.flag k = v
  := by
  have hkeeps : Keeps k v s.mem s.loc := by
    apply threads_invariant (I := fun m l _ => Keeps k v m l) _ _ hs
    · rintro m l ⟨rfl, hl⟩
      constructor
      · apply hflag
      · intro hv i
        rw [hl i]
        apply hout hv
      · intro i j word rest hi
        rw [hl i] at hi
        cases hi
    · rintro m l h i - o hkeeps - hstep
      obtain ⟨j, rest, hi, hm, ho⟩ | ⟨j, word, rest, hi, hm, ho⟩ := clearStep_cases hstep
      · rw [hm, ho]
        constructor
        · apply hkeeps.flag
        · intro hv i'
          rcases eq_or_ne i' i with rfl | hne
          · have hown := hkeeps.untouched hv i'
            rw [hi] at hown
            rw [Function.update_self]
            apply hown
          · rw [Function.update_of_ne hne]
            apply hkeeps.untouched hv
        · intro i' j' word' rest' hi' hword
          rcases eq_or_ne i' i with rfl | hne
          · rw [Function.update_self] at hi'
            cases hi'
            rw [← hword]
            apply hkeeps.flag
          · rw [Function.update_of_ne hne] at hi'
            apply hkeeps.loaded i' j' word' rest' hi' hword
      · have hown : v = true → k ≠ j ∧ k ∉ rest := by
          intro hv
          have hown := hkeeps.untouched hv i
          rw [hi, Clearer.todo, List.mem_cons, not_or] at hown
          apply hown
        rw [hm, ho]
        constructor
        · rcases eq_or_ne (k / W) (j / W) with hword | hword
          · rw [flag_store_of_word hW m word hword, hkeeps.loaded i j word rest hi hword]
            cases v with
            | false => rfl
            | true => rw [decide_eq_true (hown rfl).1, Bool.and_true]
          · rw [flag_store_of_ne m word hword]
            apply hkeeps.flag
        · intro hv i'
          rcases eq_or_ne i' i with rfl | hne
          · rw [Function.update_self]
            apply (hown hv).2
          · rw [Function.update_of_ne hne]
            apply hkeeps.untouched hv
        · intro i' j' word' rest' hi' hword
          rcases eq_or_ne i' i with rfl | hne
          · rw [Function.update_self] at hi'
            cases hi'
          · rw [Function.update_of_ne hne] at hi'
            apply hkeeps.loaded i' j' word' rest' hi' hword
  apply hkeeps.flag

/-! ### A lost clear -/

theorem load_run {m : Flags W} {l : ι → Clearer W} {i : ι} {j : ℕ} {rest : List ℕ}
    (hi : l i = .load (j :: rest)) :
  (clearing m₀ todo).Run Machine.Free ⟨m, l⟩ []
    ⟨m, Function.update l i (.store j (m (j / W)) rest)⟩
  := by
  apply Machine.Run.single (a := (i, ())) trivial
  apply threads_next.mpr
  use { mem := m, loc := .store j (m (j / W)) rest }
  simp [hi, clearStep]

theorem store_run {m : Flags W} {l : ι → Clearer W} {i : ι} {j : ℕ} {word : BitVec W}
    {rest : List ℕ} (hi : l i = .store j word rest) :
  (clearing m₀ todo).Run Machine.Free ⟨m, l⟩ []
    ⟨m.store j word, Function.update l i (.load rest)⟩
  := by
  apply Machine.Run.single (a := (i, ())) trivial
  apply threads_next.mpr
  use { mem := m.store j word, loc := .load rest }
  simp [hi, clearStep]

/-- A thread alone clears the first of its flags. -/
theorem clear_run {i : ι} {js rest : List ℕ} :
  ∀ {m : Flags W} {l : ι → Clearer W}, l i = .load (js ++ rest) →
    (clearing m₀ todo).Run Machine.Free ⟨m, l⟩ [] ⟨m.clearAll js, Function.update l i (.load rest)⟩
  := by
  induction js with
  | nil =>
      intro m l hi
      rw [← List.nil_append rest, ← hi, Function.update_eq_self]
      apply Machine.Run.nil
  | cons j js ih =>
      intro m l hi
      have hload : (clearing m₀ todo).Run Machine.Free ⟨m, l⟩ [] ⟨m, _⟩ := load_run hi
      have hstore : (clearing m₀ todo).Run Machine.Free ⟨m, _⟩ [] ⟨m.clear j, _⟩ :=
        store_run (Function.update_self i (.store j (m (j / W)) (js ++ rest)) l)
      have hrest := ih (m := m.clear j) (Function.update_self i (.load (js ++ rest)) l)
      rw [Function.update_idem] at hstore hrest
      apply (hload.trans hstore).trans hrest

/-- Threads that are not before a store can run to the end, one after the other, and leave a
flag set that none of them clears. -/
theorem end_run (hW : 0 < W) {m : Flags W} {l : ι → Clearer W} {k : ℕ} (hset : m.flag k = true)
    (hload : ∀ i, ∃ js, l i = .load js ∧ k ∉ js) (S : Finset ι) :
  ∃ m' l', (clearing m₀ todo).Run Machine.Free ⟨m, l⟩ [] ⟨m', l'⟩ ∧ m'.flag k = true ∧
    (∀ i ∈ S, l' i = .load []) ∧ ∀ i, i ∉ S → l' i = l i
  := by
  induction S using Finset.induction_on with
  | empty =>
      use m, l, Machine.Run.nil, hset
      simp
  | insert a S ha ih =>
      obtain ⟨m', l', hrun, hflag, hend, hrest⟩ := ih
      obtain ⟨js, hjs, hk⟩ := hload a
      have hl' : l' a = .load (js ++ []) := by rw [hrest a ha, hjs, List.append_nil]
      use m'.clearAll js, Function.update l' a (.load []), hrun.trans (clear_run hl'),
        (flag_clearAll hW m' k).mpr ⟨hflag, hk⟩
      constructor
      · intro i hi
        rcases eq_or_ne i a with rfl | hne
        · apply Function.update_self
        · rw [Function.update_of_ne hne]
          apply hend i (Finset.mem_of_mem_insert_of_ne hi hne)
      · intro i hi
        rw [Finset.mem_insert, not_or] at hi
        rw [Function.update_of_ne hi.1]
        apply hrest i hi.2

/-- The thread `i` loads the word of `j`, the thread `i'` runs to the end, and `i` stores the
word it has loaded. -/
theorem stale_store_run {m : Flags W} {l : ι → Clearer W} {i i' : ι} {j : ℕ}
    {js done rest : List ℕ} (hne : i ≠ i') (hi : l i = .load (done ++ j :: rest))
    (hi' : l i' = .load js) :
  (clearing m₀ todo).Run Machine.Free ⟨m, l⟩ []
    ⟨((m.clearAll done).clearAll js).store j (m.clearAll done (j / W)),
      Function.update (Function.update l i (.load rest)) i' (.load [])⟩
  := by
  have hload : (clearing m₀ todo).Run Machine.Free ⟨m.clearAll done, _⟩ [] ⟨m.clearAll done, _⟩ :=
    load_run (Function.update_self i (.load (j :: rest)) l)
  rw [Function.update_idem] at hload
  have hother : Function.update l i (.store j (m.clearAll done (j / W)) rest) i'
      = .load (js ++ []) := by
    rw [Function.update_of_ne hne.symm, hi', List.append_nil]
  have hloaded : Function.update (Function.update l i (.store j (m.clearAll done (j / W)) rest)) i'
      (.load []) i = .store j (m.clearAll done (j / W)) rest := by
    rw [Function.update_of_ne hne, Function.update_self]
  have hstore : (clearing m₀ todo).Run Machine.Free ⟨(m.clearAll done).clearAll js, _⟩ [] _ :=
    store_run hloaded
  rw [Function.update_comm hne.symm, Function.update_idem] at hstore
  apply (((clear_run hi).trans hload).trans (clear_run hother)).trans hstore

/-- The clear of `j'` is lost if its word is loaded before and stored after it. -/
theorem lost_clear [Fintype ι] (hW : 0 < W) {i i' : ι} {j j' : ℕ} (hne : i ≠ i')
    (hj : j ∈ todo i) (hset : m₀.flag j' = true) (honly : ∀ k, j' ∈ todo k → k = i')
    (hword : j' / W = j / W) :
  ∃ s, (clearing m₀ todo).Reachable Machine.Free [] s ∧ (∀ k, s.loc k = .load []) ∧
    s.mem.flag j' = true
  := by
  obtain ⟨done, rest, htodo⟩ := List.append_of_mem hj
  have hout : j' ∉ todo i := fun h => hne (honly i h)
  rw [htodo, List.mem_append, List.mem_cons, not_or, not_or] at hout
  obtain ⟨hdone, hne', hrest⟩ := hout
  have hstale : (clearing m₀ todo).Run Machine.Free ⟨m₀, fun k => .load (todo k)⟩ [] ⟨_, _⟩ :=
    stale_store_run hne (congrArg Clearer.load htodo) rfl
  have hflag : (((m₀.clearAll done).clearAll (todo i')).store j (m₀.clearAll done (j / W))).flag j'
      = true := by
    have hloaded := (flag_clearAll hW m₀ j').mpr ⟨hset, hdone⟩
    rw [flag, hword] at hloaded
    rw [flag_store_of_word hW _ _ hword, hloaded, decide_eq_true hne', Bool.true_and]
  have hload : ∀ k, ∃ js, Function.update (Function.update (fun k => Clearer.load (todo k)) i
      (.load rest)) i' (.load []) k = (.load js : Clearer W) ∧ j' ∉ js := by
    intro k
    rcases eq_or_ne k i' with rfl | hk'
    · use [], Function.update_self ..
      apply List.not_mem_nil
    · rw [Function.update_of_ne hk']
      rcases eq_or_ne k i with rfl | hk
      · use rest, Function.update_self ..
      · rw [Function.update_of_ne hk]
        use todo k, rfl
        intro h
        apply hk' (honly k h)
  obtain ⟨m', l', hrun, hset', hend, -⟩ := end_run hW hflag hload Finset.univ
  use ⟨m', l'⟩, ⟨⟨m₀, _⟩, ⟨rfl, fun _ => rfl⟩, hstale.trans hrun⟩
  use fun k => hend k (Finset.mem_univ k)

end Flags

import Mathlib.Data.List.Induction

/-!
# Races found by the last accesses

Of the accesses to a variable a detector remembers only the last write and, since then, the
reads that came before no later read.  It reports an access with each conflicting access
remembered that does not come before it, as far as it knows then.  More may turn out to be
ordered later.  Where the order that is known in the end is transitive along the accesses, it
orders all pairs reported if and only if it orders all accesses that conflict
(`reports_ordered_iff`).
-/

/-- The accesses remembered. -/
structure LastAccess (α : Type*) where
  write : Option α
  reads : List α

namespace LastAccess

variable {α : Type*} (before : α → α → Prop) [DecidableRel before] (isWrite : α → Bool)

/-- The accesses remembered that `a` conflicts with. -/
def rivals (s : LastAccess α) (a : α) : List α :=
  if isWrite a then s.reads ++ s.write.toList else s.write.toList

/-- The pairs reported at `a`. -/
def reported (s : LastAccess α) (a : α) : List (α × α) :=
  ((s.rivals isWrite a).filter fun x => ¬ before x a).map fun x => (x, a)

/-- What is remembered after `a`. -/
def remember (s : LastAccess α) (a : α) : LastAccess α :=
  if isWrite a then ⟨some a, []⟩
  else { s with reads := s.reads.filter (fun x => ¬ before x a) ++ [a] }

/-- The accesses remembered after `as`, and the pairs reported. -/
def run (as : List α) : LastAccess α × List (α × α) :=
  as.foldl (fun r a => (r.1.remember before isWrite a, r.2 ++ r.1.reported before isWrite a))
    (⟨none, []⟩, [])

@[simp]
theorem run_append (as : List α) (a : α) :
  run before isWrite (as ++ [a])
    = ((run before isWrite as).1.remember before isWrite a,
        (run before isWrite as).2 ++ (run before isWrite as).1.reported before isWrite a)
  := by simp [run]

/-- Two accesses that conflict, in this order, do not race. -/
def Calm (x y : α) : Prop := isWrite x = true ∨ isWrite y = true → before x y

variable {before isWrite}

theorem mem_rivals {s : LastAccess α} {a x : α} :
  x ∈ s.rivals isWrite a ↔ s.write = some x ∨ isWrite a = true ∧ x ∈ s.reads
  := by
  rw [rivals]
  split_ifs with ha
  · simp [ha, or_comm]
  · simp [ha]

/-- What is remembered are accesses. -/
structure Kept (isWrite : α → Bool) (as : List α) (s : LastAccess α) : Prop where
  write : ∀ w, s.write = some w → w ∈ as ∧ isWrite w = true
  reads : ∀ r, r ∈ s.reads → r ∈ as ∧ isWrite r = false

theorem kept (as : List α) :
  Kept isWrite as (run before isWrite as).1
  := by
  induction as using List.reverseRecOn with
  | nil =>
      constructor
      · rintro w ⟨⟩
      · rintro r ⟨⟩
  | append_singleton as a ih =>
      rw [run_append, remember]
      split_ifs with ha
      · constructor
        · rintro w ⟨⟩
          simp [ha]
        · rintro r ⟨⟩
      · constructor
        · intro w hw
          obtain ⟨hmem, hwrite⟩ := ih.write w hw
          exact ⟨List.mem_append_left _ hmem, hwrite⟩
        · intro r hr
          rcases List.mem_append.mp hr with hold | hnew
          · obtain ⟨hmem, hread⟩ := ih.reads r (List.mem_filter.mp hold).1
            exact ⟨List.mem_append_left _ hmem, hread⟩
          · rw [List.mem_singleton.mp hnew]
            simpa using ha

/-- What is reported is a race. -/
theorem mem_reports {as : List α} {p : α × α} (hp : p ∈ (run before isWrite as).2) :
  [p.1, p.2].Sublist as ∧ (isWrite p.1 = true ∨ isWrite p.2 = true) ∧ ¬ before p.1 p.2
  := by
  induction as using List.reverseRecOn with
  | nil => cases hp
  | append_singleton as a ih =>
      rw [run_append] at hp
      rcases List.mem_append.mp hp with hold | hnew
      · obtain ⟨hsub, hrest⟩ := ih hold
        exact ⟨hsub.trans (List.sublist_append_left as [a]), hrest⟩
      · obtain ⟨x, hx, rfl⟩ := List.mem_map.mp hnew
        obtain ⟨hrival, hrace⟩ := List.mem_filter.mp hx
        have hpair : ∀ {x}, x ∈ as → [x, a].Sublist (as ++ [a]) := fun hx =>
          (List.singleton_sublist.mpr hx).append (List.Sublist.refl [a])
        refine ⟨?_, ?_, by simpa using hrace⟩
        · rcases mem_rivals.mp hrival with hw | ⟨-, hr⟩
          · apply hpair ((kept as).write x hw).1
          · apply hpair ((kept as).reads x hr).1
        · rcases mem_rivals.mp hrival with hw | ⟨ha, -⟩
          · left
            apply ((kept as).write x hw).2
          · right
            apply ha

section Orders

variable {ordered : α → α → Prop}

/-- The access `x` is `y`, or is ordered before it. -/
def Upto (ordered : α → α → Prop) (as : List α) (x y : α) : Prop :=
  x = y ∨ [x, y].Sublist as ∧ ordered x y

/-- Whatever is ordered after the accesses remembered is ordered after all. -/
structure Covers (ordered : α → α → Prop) (isWrite : α → Bool) (as : List α)
    (s : LastAccess α) : Prop where
  writes : ∀ x, x ∈ as → isWrite x = true → ∃ w, s.write = some w ∧ Upto ordered as x w
  reads : ∀ x, x ∈ as → (∃ w, s.write = some w ∧ Upto ordered as x w) ∨
    ∃ r, r ∈ s.reads ∧ Upto ordered as x r

theorem Upto.snoc {as : List α} {x y : α} (h : Upto ordered as x y) (a : α) :
  Upto ordered (as ++ [a]) x y
  := by
  rcases h with heq | ⟨hsub, hordered⟩
  · exact .inl heq
  · exact .inr ⟨hsub.trans (List.sublist_append_left as [a]), hordered⟩

theorem Upto.trans {as : List α} {x y a : α}
    (htrans : ∀ x y z, [x, y, z].Sublist (as ++ [a]) → ordered x y → ordered y z → ordered x z)
    (h : Upto ordered as x y) (hy : ordered y a) :
  ordered x a
  := by
  rcases h with rfl | ⟨hsub, hordered⟩
  · apply hy
  · apply htrans x y a (hsub.append (List.Sublist.refl [a])) hordered hy

/-- What is ordered after the accesses remembered that it conflicts with is ordered after all
accesses that it conflicts with. -/
theorem Covers.calm {as : List α} {s : LastAccess α} {a : α}
    (htrans : ∀ x y z, [x, y, z].Sublist (as ++ [a]) → ordered x y → ordered y z → ordered x z)
    (h : Covers ordered isWrite as s) (hrivals : ∀ x, x ∈ s.rivals isWrite a → ordered x a) {x : α}
    (hx : x ∈ as) :
  Calm ordered isWrite x a
  := by
  have hwrite : (∃ w, s.write = some w ∧ Upto ordered as x w) → ordered x a := by
    rintro ⟨w, hw, hupto⟩
    apply hupto.trans htrans
    apply hrivals w (mem_rivals.mpr (.inl hw))
  rintro (hxw | haw)
  · apply hwrite (h.writes x hx hxw)
  · rcases h.reads x hx with hcover | ⟨r, hr, hupto⟩
    · apply hwrite hcover
    · apply hupto.trans htrans
      apply hrivals r (mem_rivals.mpr (.inr ⟨haw, hr⟩))

theorem Covers.remember {as : List α} {s : LastAccess α} {a : α}
    (hbefore : ∀ x, x ∈ s.reads → before x a → ordered x a)
    (htrans : ∀ x y z, [x, y, z].Sublist (as ++ [a]) → ordered x y → ordered y z → ordered x z)
    (h : Covers ordered isWrite as s) (hrivals : ∀ x, x ∈ s.rivals isWrite a → ordered x a) :
  Covers ordered isWrite (as ++ [a]) (s.remember before isWrite a)
  := by
  have hpair : ∀ {x}, x ∈ as → [x, a].Sublist (as ++ [a]) := by
    intro x hx
    apply (List.singleton_sublist.mpr hx).append (List.Sublist.refl [a])
  rw [LastAccess.remember]
  split_ifs with ha
  · have hall : ∀ x, x ∈ as ++ [a] → Upto ordered (as ++ [a]) x a := by
      intro x hx
      rcases List.mem_append.mp hx with hold | hnew
      · exact .inr ⟨hpair hold, h.calm htrans hrivals hold (.inr ha)⟩
      · exact .inl (List.mem_singleton.mp hnew)
    constructor
    · intro x hx _
      exact ⟨a, rfl, hall x hx⟩
    · intro x hx
      left
      exact ⟨a, rfl, hall x hx⟩
  · constructor
    · intro x hx hxw
      rcases List.mem_append.mp hx with hold | hnew
      · obtain ⟨w, hw, hupto⟩ := h.writes x hold hxw
        exact ⟨w, hw, hupto.snoc a⟩
      · rw [List.mem_singleton.mp hnew] at hxw
        cases ha hxw
    · intro x hx
      have hlast : a ∈ s.reads.filter (fun x => ¬ before x a) ++ [a] := by simp
      rcases List.mem_append.mp hx with hold | hnew
      · rcases h.reads x hold with ⟨w, hw, hupto⟩ | ⟨r, hr, hupto⟩
        · left
          exact ⟨w, hw, hupto.snoc a⟩
        · right
          by_cases hra : before r a
          · exact ⟨a, hlast, .inr ⟨hpair hold, hupto.trans htrans (hbefore r hr hra)⟩⟩
          · use r
            constructor
            · apply List.mem_append_left
              simp [hr, hra]
            · apply hupto.snoc a
      · right
        exact ⟨a, hlast, .inl (List.mem_singleton.mp hnew)⟩

/-- All pairs reported at `a` are ordered if and only if all accesses remembered that it
conflicts with are. -/
theorem reported_ordered_iff {s : LastAccess α} {a : α}
    (hbefore : ∀ x, x ∈ s.rivals isWrite a → before x a → ordered x a) :
  (∀ p, p ∈ s.reported before isWrite a → ordered p.1 p.2) ↔
    ∀ x, x ∈ s.rivals isWrite a → ordered x a
  := by
  constructor
  · intro h x hx
    by_cases hxa : before x a
    · apply hbefore x hx hxa
    · apply h (x, a)
      simp [reported, hx, hxa]
  · intro h p hp
    obtain ⟨x, hx, rfl⟩ := List.mem_map.mp hp
    apply h x (List.mem_filter.mp hx).1

/-- The pairs reported are ordered in the end if and only if all accesses that conflict are. -/
theorem reports_ordered_iff {as : List α}
    (hbefore : ∀ x y, [x, y].Sublist as → before x y → ordered x y)
    (htrans : ∀ x y z, [x, y, z].Sublist as → ordered x y → ordered y z → ordered x z) :
  (∀ p, p ∈ (run before isWrite as).2 → ordered p.1 p.2) ↔ as.Pairwise (Calm ordered isWrite)
  := by
  have hboth : ((∀ p, p ∈ (run before isWrite as).2 → ordered p.1 p.2) ↔
        as.Pairwise (Calm ordered isWrite)) ∧
      ((∀ p, p ∈ (run before isWrite as).2 → ordered p.1 p.2) →
        Covers ordered isWrite as (run before isWrite as).1) := by
    induction as using List.reverseRecOn with
    | nil =>
        constructor
        · simp [run]
        · intro _
          constructor
          · rintro x ⟨⟩
          · rintro x ⟨⟩
    | append_singleton as a ih =>
        have hsub : as.Sublist (as ++ [a]) := List.sublist_append_left as [a]
        obtain ⟨hiff, hcovers⟩ := ih (fun x y hxy => hbefore x y (hxy.trans hsub))
          fun x y z hxyz => htrans x y z (hxyz.trans hsub)
        have hlast : ∀ {x}, x ∈ as → before x a → ordered x a := by
          intro x hx
          apply hbefore x a
          apply (List.singleton_sublist.mpr hx).append (List.Sublist.refl [a])
        have hrival : ∀ x, x ∈ (run before isWrite as).1.rivals isWrite a →
            before x a → ordered x a := by
          intro x hx
          rcases mem_rivals.mp hx with hw | ⟨-, hr⟩
          · apply hlast ((kept as).write x hw).1
          · apply hlast ((kept as).reads x hr).1
        rw [run_append, List.forall_mem_append, reported_ordered_iff hrival, List.pairwise_append]
        constructor
        · constructor
          · rintro ⟨hold, hrivals⟩
            refine ⟨hiff.mp hold, List.pairwise_singleton _ a, ?_⟩
            intro x hx y hy
            rw [List.mem_singleton.mp hy]
            apply (hcovers hold).calm htrans hrivals hx
          · rintro ⟨hpair, -, hcalm⟩
            use hiff.mpr hpair
            intro x hx
            rcases mem_rivals.mp hx with hw | ⟨ha, hr⟩
            · obtain ⟨hmem, hxw⟩ := (kept as).write x hw
              apply hcalm x hmem a (List.mem_singleton_self a) (.inl hxw)
            · apply hcalm x ((kept as).reads x hr).1 a (List.mem_singleton_self a) (.inr ha)
        · rintro ⟨hold, hrivals⟩
          apply (hcovers hold).remember _ htrans hrivals
          intro x hx
          apply hlast ((kept as).reads x hx).1
  apply hboth.1

end Orders

end LastAccess

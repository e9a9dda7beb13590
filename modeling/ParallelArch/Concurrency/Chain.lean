import Mathlib.Data.List.Nodup
import Mathlib.Logic.Function.Basic
import Mathlib.Logic.Relation
import Mathlib.Order.Defs.PartialOrder

/-!
# Linked chains

Cells `α` point to each other by `next`; `null` ends a chain.  `Linked null next a xs` says
that the chain from `a` visits exactly the cells `xs`, in this order.  Storing into one cell
of the chain links a new cell in behind it, or cuts the following cell out.
-/

variable {α : Type*} {null : α} {next next' : α → α}

/-- The chain from `a` is `xs`. -/
def Linked (null : α) (next : α → α) : α → List α → Prop
  | a, [] => a = null
  | a, x :: xs => a = x ∧ x ≠ null ∧ Linked null next (next x) xs

/-- `b` can be reached from `a`. -/
def Reaches (null : α) (next : α → α) : α → α → Prop :=
  Relation.ReflTransGen fun a b => next a = b ∧ b ≠ null

namespace Linked

theorem ne_null {xs : List α} :
  ∀ {a : α}, Linked null next a xs → ∀ x ∈ xs, x ≠ null
  := by
  induction xs with
  | nil =>
      intro a _ x hx
      cases hx
  | cons y xs ih =>
      rintro a ⟨-, hy, h⟩ x hx
      rcases List.mem_cons.mp hx with rfl | hx
      · apply hy
      · apply ih h x hx

/-- The rest of the chain behind one of its cells. -/
theorem behind {us : List α} {y : α} {ws : List α} :
  ∀ {a : α}, Linked null next a (us ++ y :: ws) → Linked null next (next y) ws
  := by
  induction us with
  | nil =>
      rintro a ⟨-, -, h⟩
      apply h
  | cons u us ih =>
      rintro a ⟨-, -, h⟩
      apply ih h

/-- A chain starts with its first cell. -/
theorem head_eq {a : α} {xs : List α} (h : Linked null next a xs) {x : α} (hx : x ∈ xs.head?) :
  a = x
  := by
  cases xs with
  | nil => cases hx
  | cons y xs =>
      cases hx
      apply h.1

/-- The chain may be continued differently behind the cell `y`. -/
theorem graft {us : List α} {y : α} {ws ws' : List α} (hus : ∀ x ∈ us, next' x = next x)
    (hws : Linked null next' (next' y) ws') :
  ∀ {a : α}, Linked null next a (us ++ y :: ws) → Linked null next' a (us ++ y :: ws')
  := by
  induction us with
  | nil =>
      rintro a ⟨rfl, hy, -⟩
      exact ⟨rfl, hy, hws⟩
  | cons u us ih =>
      rintro a ⟨rfl, hu, h⟩
      use rfl, hu
      rw [hus a List.mem_cons_self]
      apply ih _ h
      intro x hx
      apply hus x (List.mem_cons_of_mem a hx)

/-- Stores elsewhere do not change the chain. -/
theorem congr {xs : List α} (hxs : ∀ x ∈ xs, next' x = next x) :
  ∀ {a : α}, Linked null next a xs → Linked null next' a xs
  := by
  induction xs with
  | nil =>
      intro a h
      apply h
  | cons y xs ih =>
      rintro a ⟨rfl, hy, h⟩
      use rfl, hy
      rw [hxs a List.mem_cons_self]
      apply ih _ h
      intro x hx
      apply hxs x (List.mem_cons_of_mem a hx)

/-- The cell behind a cell of the chain. -/
theorem next_mem {a : α} {xs : List α} (h : Linked null next a xs) {x : α} (hx : x ∈ xs) :
  next x = null ∨ next x ∈ xs
  := by
  obtain ⟨us, ws, rfl⟩ := List.append_of_mem hx
  have hws := h.behind
  cases ws with
  | nil =>
      left
      apply hws
  | cons w ws =>
      right
      rw [hws.1]
      simp

/-- No cell points back to the first one. -/
theorem next_mem_tail {a y : α} {xs : List α} (h : Linked null next a (y :: xs)) {x : α}
    (hx : x ∈ y :: xs) :
  next x = null ∨ next x ∈ xs
  := by
  obtain ⟨-, -, h⟩ := h
  rcases List.mem_cons.mp hx with rfl | hx
  · cases xs with
    | nil =>
        left
        apply h
    | cons z xs =>
        right
        rw [h.1]
        apply List.mem_cons_self
  · apply h.next_mem hx

theorem mem_of_reaches {a : α} {xs : List α} (h : Linked null next a xs) (ha : a ∈ xs) {x : α}
    (hx : Reaches null next a x) :
  x ∈ xs
  := by
  induction hx with
  | refl => apply ha
  | tail _ hstep ih =>
      obtain ⟨rfl, hne⟩ := hstep
      apply (h.next_mem ih).resolve_left hne

theorem reaches_of_mem {xs : List α} :
  ∀ {a : α}, Linked null next a xs → ∀ x ∈ xs, Reaches null next a x
  := by
  induction xs with
  | nil =>
      intro a _ x hx
      cases hx
  | cons y xs ih =>
      rintro a ⟨rfl, hy, h⟩ x hx
      rcases List.mem_cons.mp hx with rfl | hx
      · apply Relation.ReflTransGen.refl
      · apply Relation.ReflTransGen.head _ (ih h x hx)
        use rfl
        cases xs with
        | nil => cases hx
        | cons z xs =>
            rw [h.1]
            apply h.2.1

/-- The cells of a chain are those that can be reached from its first. -/
theorem reaches_iff {a : α} {xs : List α} (h : Linked null next a (a :: xs)) (x : α) :
  Reaches null next a x ↔ x ∈ a :: xs
  := ⟨h.mem_of_reaches List.mem_cons_self, h.reaches_of_mem x⟩

variable [DecidableEq α]

/-- A new cell that points where `y` points is linked in behind `y`. -/
theorem insert {us : List α} {y n : α} {ws : List α} {a : α}
    (h : Linked null next a (us ++ y :: ws)) (hnodup : (us ++ y :: ws).Nodup)
    (hn : n ∉ us ++ y :: ws) (hnull : n ≠ null) (hnext : next n = next y) :
  Linked null (Function.update next y n) a (us ++ y :: n :: ws)
  := by
  have hy : y ∉ us ++ ws := (List.nodup_middle.mp hnodup).notMem
  have hyn : n ≠ y := by
    rintro rfl
    simp at hn
  apply graft _ _ h
  · intro x hx
    rw [Function.update_of_ne]
    rintro rfl
    apply hy (List.mem_append_left ws hx)
  · rw [Function.update_self]
    use rfl, hnull
    rw [Function.update_of_ne hyn, hnext]
    apply h.behind.congr
    intro x hx
    rw [Function.update_of_ne]
    rintro rfl
    apply hy (List.mem_append_right us hx)

/-- The cell behind `y` is cut out. -/
theorem unlink {us : List α} {y c : α} {ws : List α} {a : α}
    (h : Linked null next a (us ++ y :: c :: ws)) (hnodup : (us ++ y :: c :: ws).Nodup) :
  Linked null (Function.update next y (next c)) a (us ++ y :: ws)
  := by
  have hy : y ∉ us ++ c :: ws := (List.nodup_middle.mp hnodup).notMem
  apply graft _ _ h
  · intro x hx
    rw [Function.update_of_ne]
    rintro rfl
    apply hy (List.mem_append_left _ hx)
  · rw [Function.update_self]
    apply h.behind.2.2.congr
    intro x hx
    rw [Function.update_of_ne]
    rintro rfl
    apply hy (List.mem_append_right us (List.mem_cons_of_mem c hx))

end Linked

/-! ### Reachable cells -/

namespace Reaches

variable {a x : α}

/-- Only the links of the cells reached matter. -/
theorem congr (h : Reaches null next a x) (heq : ∀ y, Reaches null next a y → next' y = next y) :
  Reaches null next' a x
  := by
  induction h with
  | refl => apply Relation.ReflTransGen.refl
  | tail hy hstep ih =>
      apply Relation.ReflTransGen.tail ih
      rw [heq _ hy]
      apply hstep

variable [DecidableEq α]

/-- Linking a cell in behind `y` keeps all others reachable. -/
theorem insert (h : Reaches null next a x) {y n : α} (hne : n ≠ y) (hnull : n ≠ null)
    (hnext : next n = next y) :
  Reaches null (Function.update next y n) a x
  := by
  induction h with
  | refl => apply Relation.ReflTransGen.refl
  | @tail b c _ hstep ih =>
      rcases eq_or_ne b y with rfl | hb
      · apply (ih.tail (c := n) _).tail
        · rw [Function.update_of_ne hne, hnext]
          apply hstep
        · exact ⟨Function.update_self b n next, hnull⟩
      · apply ih.tail
        rw [Function.update_of_ne hb]
        apply hstep

/-- Cutting out the cell behind `y` keeps all others reachable. -/
theorem unlink (h : Reaches null next a x) (y : α) :
  Reaches null (Function.update next y (next (next y))) a x ∨ x = next y
  := by
  have key : Reaches null (Function.update next y (next (next y))) a x ∨
      x = next y ∧ Reaches null (Function.update next y (next (next y))) a y := by
    induction h with
    | refl =>
        left
        apply Relation.ReflTransGen.refl
    | @tail b c _ hstep ih =>
        rcases ih with ih | ⟨rfl, ih⟩
        · rcases eq_or_ne b y with rfl | hb
          · right
            exact ⟨hstep.1.symm, ih⟩
          · left
            apply ih.tail
            rw [Function.update_of_ne hb]
            apply hstep
        · left
          apply ih.tail
          rw [Function.update_self]
          apply hstep
  apply key.imp_right And.left

end Reaches

/-! ### Sorted chains -/

section Sorted

variable {β : Type*} [Preorder β] {f : α → β}

/-- What lies below the first cell of a sorted chain lies below all of them. -/
theorem lt_of_lt_head {xs : List α} (hxs : xs.Pairwise fun a b => f a < f b) {v : β}
    (hv : ∀ w ∈ xs.head?, v < f w) :
  ∀ w ∈ xs, v < f w
  := by
  cases xs with
  | nil =>
      intro w hw
      cases hw
  | cons x xs =>
      have hx := hv x rfl
      intro w hw
      rcases List.mem_cons.mp hw with rfl | hw
      · apply hx
      · apply lt_trans hx (List.rel_of_pairwise_cons hxs hw)

/-- A cell whose value lies between that of `y` and that of the cell behind it fits there. -/
theorem pairwise_insert {us ws : List α} {y n : α}
    (h : (us ++ y :: ws).Pairwise fun a b => f a < f b) (hy : f y < f n)
    (hn : ∀ w ∈ ws.head?, f n < f w) :
  (us ++ y :: n :: ws).Pairwise fun a b => f a < f b
  := by
  rw [List.pairwise_append, List.pairwise_cons] at h ⊢
  obtain ⟨hus, ⟨hyws, hws⟩, hall⟩ := h
  have hnws := lt_of_lt_head hws hn
  refine ⟨hus, ⟨?_, List.pairwise_cons.mpr ⟨hnws, hws⟩⟩, ?_⟩
  · intro w hw
    rcases List.mem_cons.mp hw with rfl | hw
    · apply hy
    · apply hyws w hw
  · intro u hu w hw
    have huy := hall u hu y List.mem_cons_self
    rcases List.mem_cons.mp hw with rfl | hw
    · apply huy
    · rcases List.mem_cons.mp hw with rfl | hw
      · apply lt_trans huy hy
      · apply hall u hu w (List.mem_cons_of_mem y hw)

end Sorted

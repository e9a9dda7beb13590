import Mathlib.Data.Set.Finite.Basic
import Mathlib.Order.Extension.Linear
import Mathlib.Order.WellFounded

/-!
# Orders with immediate successors

A graph has edges `edge a b`, which an order must keep, and for some nodes a node `next a`
that must come immediately after `a`.  Such an order exists if the graph has no cycle, its
chains of `next` are finite and pairwise apart, and every edge from `a` is a path from `next a`
as well (`Closed.exists_order`): the chains become the blocks of a linear extension.
-/

namespace Adjacent

open Relation

variable {α : Type*} {edge : α → α → Prop} {next : α → Option α}

/-- The strict total order keeps the edges, and `next a` comes immediately after `a`. -/
structure Orders (edge : α → α → Prop) (next : α → Option α) (lt : α → α → Prop) : Prop where
  total : IsStrictTotalOrder α lt
  keeps : ∀ a b, edge a b → lt a b
  adjacent : ∀ a b, next a = some b → lt a b ∧ ∀ c, lt a c → c = b ∨ lt b c

/-- The graph is closed under what immediate successors imply. -/
structure Closed (edge : α → α → Prop) (next : α → Option α) : Prop where
  acyclic : ∀ a, ¬ TransGen edge a a
  linked : ∀ a b, next a = some b → edge a b
  pushed : ∀ a b c, next a = some b → edge a c → c ≠ b → TransGen edge b c
  injective : ∀ a b c, next a = some c → next b = some c → a = b
  finite : {a | next a ≠ none}.Finite

/-! ### Chains -/

/-- The chain of `next` from a node has length `d` and ends in `e`. -/
inductive Chain (next : α → Option α) : α → ℕ → α → Prop where
  | last {a : α} (h : next a = none) : Chain next a 0 a
  | step {a b e : α} {d : ℕ} (h : next a = some b) (rest : Chain next b d e) :
      Chain next a (d + 1) e

theorem Chain.unique {a e e' : α} {d d' : ℕ} (h : Chain next a d e) (h' : Chain next a d' e') :
  d = d' ∧ e = e'
  := by
  induction h generalizing d' with
  | last hnone =>
      cases h' with
      | last => exact ⟨rfl, rfl⟩
      | step hsome =>
          rw [hnone] at hsome
          cases hsome
  | step hsome _ ih =>
      cases h' with
      | last hnone =>
          rw [hsome] at hnone
          cases hnone
      | step hsome' rest' =>
          rw [hsome] at hsome'
          obtain rfl := Option.some.inj hsome'
          obtain ⟨rfl, rfl⟩ := ih rest'
          exact ⟨rfl, rfl⟩

/-- Two nodes at the same distance from the end of one chain are the same. -/
theorem Chain.injective (h : Closed edge next) {a b e : α} {d : ℕ} (ha : Chain next a d e)
    (hb : Chain next b d e) :
  a = b
  := by
  induction ha generalizing b with
  | last => cases hb with | last => rfl
  | step hsome _ ih =>
      cases hb with
      | step hsome' rest' =>
          obtain rfl := ih rest'
          apply h.injective _ _ _ hsome hsome'

/-- A path leads from a node to the end of its chain. -/
theorem Chain.path (h : Closed edge next) {a e : α} {d : ℕ} (ha : Chain next a d e) :
  ReflTransGen edge a e
  := by
  induction ha with
  | last => apply ReflTransGen.refl
  | step hsome _ ih => apply ReflTransGen.head (h.linked _ _ hsome) ih

/-- A node of a chain leads to those behind it. -/
theorem Chain.later (h : Closed edge next) {a b e : α} {d d' : ℕ} (ha : Chain next a d e)
    (hb : Chain next b d' e) (hlt : d' < d) :
  TransGen edge a b
  := by
  induction ha generalizing b with
  | last => cases hlt
  | @step a r e d hsome rest ih =>
      rcases Nat.lt_succ_iff_lt_or_eq.mp hlt with hlt' | rfl
      · apply TransGen.head (h.linked _ _ hsome) (ih hb hlt')
      · rw [← Chain.injective h rest hb]
        apply TransGen.single (h.linked _ _ hsome)

/-- A path from a node stays in its chain or is one from the end of the chain. -/
theorem Chain.leave (h : Closed edge next) {a b e : α} {d : ℕ} (ha : Chain next a d e)
    (hpath : TransGen edge a b) :
  (∃ d', Chain next b d' e) ∨ TransGen edge e b
  := by
  induction ha with
  | last => exact .inr hpath
  | @step a r e d hsome rest ih =>
      obtain ⟨c, hedge, hrest⟩ := TransGen.head'_iff.mp hpath
      by_cases hc : c = r
      · subst hc
        rcases ReflTransGen.cases_head hrest with rfl | ⟨c', hedge', hrest'⟩
        · left
          use d
        · apply ih (TransGen.head' hedge' hrest')
      · apply ih
        apply TransGen.trans_left (h.pushed _ _ _ hsome hedge hc) hrest

theorem Closed.exists_chain (h : Closed edge next) (a : α) :
  ∃ d e, Chain next a d e
  := by
  have hwf : WellFounded fun b a => next a = some b := by
    apply wellFounded_iff_isEmpty_descending_chain.mpr
    constructor
    rintro ⟨f, hf⟩
    have hpath : ∀ i j, i < j → TransGen edge (f i) (f j) := by
      intro i j hij
      induction hij with
      | refl => apply TransGen.single (h.linked _ _ (hf i))
      | step _ ih => apply ih.tail (h.linked _ _ (hf _))
    have hinj : Function.Injective f := by
      intro i j hij
      rcases Nat.lt_trichotomy i j with hlt | heq | hgt
      · cases h.acyclic (f i) (by simpa [hij] using hpath i j hlt)
      · apply heq
      · cases h.acyclic (f j) (by simpa [hij] using hpath j i hgt)
    apply Set.infinite_range_of_injective hinj
    apply h.finite.subset
    rintro _ ⟨i, rfl⟩
    show next (f i) ≠ none
    rw [hf i]
    rintro ⟨⟩
  induction a using hwf.induction with
  | _ a ih =>
      cases hnext : next a with
      | none => exact ⟨0, a, .last hnext⟩
      | some b =>
          obtain ⟨d, e, hchain⟩ := ih b hnext
          exact ⟨d + 1, e, .step hnext hchain⟩

/-! ### The order -/

/-- A linear extension of the paths. -/
theorem Closed.exists_extension (h : Closed edge next) :
  ∃ le : α → α → Prop, IsLinearOrder α le ∧ ∀ a b, TransGen edge a b → le a b
  := by
  have hpartial : IsPartialOrder α (ReflTransGen edge) := by
    refine { refl := fun a => .refl, trans := fun a b c => .trans, antisymm := ?_ }
    intro a b hab hba
    rcases (reflTransGen_iff_eq_or_transGen.mp hab) with heq | hpath
    · exact heq.symm
    · cases h.acyclic a (hpath.trans_left hba)
  obtain ⟨le, hle, hext⟩ := extend_partialOrder (ReflTransGen edge)
  use le, hle
  intro a b hab
  apply hext _ _ hab.to_reflTransGen

/-- Later in the same chain, or in a chain whose end comes later. -/
def Before (next : α → Option α) (le : α → α → Prop) (a b : α) : Prop :=
  ∃ d e d' e', Chain next a d e ∧ Chain next b d' e' ∧ (e = e' ∧ d' < d ∨ e ≠ e' ∧ le e e')

theorem Closed.exists_order (h : Closed edge next) :
  ∃ lt, Orders edge next lt
  := by
  obtain ⟨le, hle, hext⟩ := h.exists_extension
  use Before next le
  have hantisymm : ∀ {a b}, le a b → le b a → a = b := fun hab hba => hle.antisymm _ _ hab hba
  have htrans : ∀ {a b c}, le a b → le b c → le a c := fun hab hbc => hle.trans _ _ _ hab hbc
  constructor
  · refine { trichotomous := ?_, irrefl := ?_, trans := ?_ }
    · intro a b hab hba
      obtain ⟨d, e, ha⟩ := h.exists_chain a
      obtain ⟨d', e', hb⟩ := h.exists_chain b
      by_cases hee : e = e'
      · subst hee
        rcases Nat.lt_trichotomy d d' with hlt | rfl | hgt
        · cases hba ⟨d', e, d, e, hb, ha, .inl ⟨rfl, hlt⟩⟩
        · apply ha.injective h hb
        · cases hab ⟨d, e, d', e, ha, hb, .inl ⟨rfl, hgt⟩⟩
      · rcases hle.total e e' with hle | hle
        · cases hab ⟨d, e, d', e', ha, hb, .inr ⟨hee, hle⟩⟩
        · cases hba ⟨d', e', d, e, hb, ha, .inr ⟨Ne.symm hee, hle⟩⟩
    · rintro a ⟨d, e, d', e', ha, ha', hlt⟩
      obtain ⟨rfl, rfl⟩ := ha.unique ha'
      rcases hlt with ⟨-, hlt⟩ | ⟨hne, -⟩
      · exact lt_irrefl d hlt
      · exact hne rfl
    · rintro a b c ⟨da, ea, db, eb, ha, hb, hab⟩ ⟨db', eb', dc, ec, hb', hc, hbc⟩
      obtain ⟨rfl, rfl⟩ := hb.unique hb'
      refine ⟨da, ea, dc, ec, ha, hc, ?_⟩
      rcases hab with ⟨rfl, hab⟩ | ⟨hne, hab⟩
      · rcases hbc with ⟨rfl, hbc⟩ | hbc
        · exact .inl ⟨rfl, hbc.trans hab⟩
        · exact .inr hbc
      · rcases hbc with ⟨rfl, -⟩ | ⟨hne', hbc⟩
        · exact .inr ⟨hne, hab⟩
        · right
          use fun heq => hne (hantisymm hab (heq ▸ hbc)), htrans hab hbc
  · intro a b hedge
    obtain ⟨d, e, ha⟩ := h.exists_chain a
    obtain ⟨d', e', hb⟩ := h.exists_chain b
    refine ⟨d, e, d', e', ha, hb, ?_⟩
    by_cases hee : e = e'
    · subst hee
      left
      use rfl
      by_contra hge
      rcases Nat.lt_or_eq_of_le (Nat.le_of_not_lt hge) with hlt | rfl
      · apply h.acyclic a
        apply TransGen.head hedge (hb.later h ha hlt)
      · obtain rfl := ha.injective h hb
        apply h.acyclic a (.single hedge)
    · right
      use hee
      rcases ha.leave h (.single hedge) with ⟨d'', hb'⟩ | hpath
      · cases hee (hb'.unique hb).2
      · apply hext
        apply hpath.trans_left (hb.path h)
  · intro a b hnext
    obtain ⟨d, e, hb⟩ := h.exists_chain b
    constructor
    · exact ⟨d + 1, e, d, e, .step hnext hb, hb, .inl ⟨rfl, Nat.lt_succ_self d⟩⟩
    · rintro c ⟨da, ea, dc, ec, ha, hc, hlt⟩
      obtain ⟨rfl, rfl⟩ := ha.unique (.step hnext hb)
      rcases hlt with ⟨rfl, hlt⟩ | hlt
      · rcases Nat.lt_succ_iff_lt_or_eq.mp hlt with hlt' | rfl
        · right
          exact ⟨d, ea, dc, ea, hb, hc, .inl ⟨rfl, hlt'⟩⟩
        · left
          apply hc.injective h hb
      · right
        exact ⟨d, ea, dc, ec, hb, hc, .inr hlt⟩

end Adjacent

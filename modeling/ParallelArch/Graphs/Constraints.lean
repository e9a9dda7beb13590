import Mathlib.Data.Sum.Order
import Mathlib.SetTheory.Cardinal.Order
import ParallelArch.Graphs.Adjacent

/-!
# Constraints on an order

A constraint says that one element comes before another, or that it comes immediately before
it.  Constraints can be met together if a strict total order meets them all (`Satisfiable`);
whether they can does not depend on the elements no constraint speaks of
(`Satisfiable.transfer`).  The rest of the module is about graphs that reflect constraints: how
a graph without cycles, and one that is `Closed` under immediate successors, stays so when an
edge or an immediate successor is added.
-/

/-- A constraint on a strict total order. -/
inductive Constraint (α : Type*) where
  | before (a b : α)
  | next (a b : α)

namespace Constraint

variable {α β : Type*}

/-- The order `lt` meets a constraint. -/
def Met (lt : α → α → Prop) : Constraint α → Prop
  | before a b => lt a b
  | next a b => lt a b ∧ ∀ c, lt a c → c = b ∨ lt b c

/-- A constraint on the images of its objects. -/
def map (f : α → β) : Constraint α → Constraint β
  | before a b => before (f a) (f b)
  | next a b => next (f a) (f b)

/-- The elements the constraint speaks of. -/
def Within (P : α → Prop) : Constraint α → Prop
  | before a b => P a ∧ P b
  | next a b => P a ∧ P b

theorem Within.mono {P Q : α → Prop} (hPQ : ∀ a, P a → Q a) {c : Constraint α}
    (h : c.Within P) :
  c.Within Q
  := by
  cases c with
  | before => exact ⟨hPQ _ h.1, hPQ _ h.2⟩
  | next => exact ⟨hPQ _ h.1, hPQ _ h.2⟩

theorem map_congr {P : α → Prop} {f f' : α → β} (hf : ∀ a, P a → f a = f' a) {c : Constraint α}
    (h : c.Within P) :
  c.map f = c.map f'
  := by
  cases c with
  | before => rw [map, map, hf _ h.1, hf _ h.2]
  | next => rw [map, map, hf _ h.1, hf _ h.2]

/-- The constraints can be met together. -/
def Satisfiable (cs : List (Constraint α)) : Prop :=
  ∃ lt, IsStrictTotalOrder α lt ∧ ∀ c, c ∈ cs → c.Met lt

theorem Satisfiable.mono {cs cs' : List (Constraint α)} (h : Satisfiable cs')
    (hsub : ∀ c, c ∈ cs → c ∈ cs') :
  Satisfiable cs
  := by
  obtain ⟨lt, hlt, hmet⟩ := h
  use lt, hlt
  intro c hc
  apply hmet c (hsub c hc)

/-- The constraint `c'` is `c` for the elements that `f` gives. -/
def Maps (f : α → Option β) : Constraint α → Constraint β → Prop
  | before a b, before a' b' => f a = some a' ∧ f b = some b'
  | next a b, next a' b' => f a = some a' ∧ f b = some b'
  | _, _ => False

/-- The elements with a value come first, as their values do. -/
def key (f : α → Option β) (a : α) : β ⊕ α :=
  match f a with
  | some b => .inl b
  | none => .inr a

theorem key_injective {f : α → Option β} (hf : ∀ a a' b, f a = some b → f a' = some b → a = a') :
  Function.Injective (key f)
  := by
  intro a a' heq
  cases h : f a with
  | some b =>
      cases h' : f a' with
      | some b' =>
          simp only [key, h, h', Sum.inl.injEq] at heq
          subst heq
          apply hf _ _ _ h h'
      | none => simp [key, h, h'] at heq
  | none =>
      cases h' : f a' with
      | some b' => simp [key, h, h'] at heq
      | none => simpa [key, h, h'] using heq

theorem strictTotal_lex {r : α → α → Prop} {s : β → β → Prop} (hr : IsStrictTotalOrder α r)
    (hs : IsStrictTotalOrder β s) :
  IsStrictTotalOrder (α ⊕ β) (Sum.Lex r s)
  := { (inferInstance : Std.Trichotomous (Sum.Lex r s)) with
       irrefl := (inferInstance : Std.Irrefl (Sum.Lex r s)).irrefl
       trans := (inferInstance : IsTrans _ (Sum.Lex r s)).trans }

/-- Constraints that can be met on the values can be met on the elements. -/
theorem Satisfiable.transfer {f : α → Option β}
    (hf : ∀ a a' b, f a = some b → f a' = some b → a = a') {cs : List (Constraint α)}
    {cs' : List (Constraint β)} (hmaps : ∀ c, c ∈ cs → ∃ c', c' ∈ cs' ∧ c.Maps f c')
    (h : Satisfiable cs') :
  Satisfiable cs
  := by
  obtain ⟨lt, hlt, hmet⟩ := h
  have hwell : IsStrictTotalOrder α WellOrderingRel := { WellOrderingRel.isWellOrder with }
  have hlex := strictTotal_lex hlt hwell
  use fun a a' => Sum.Lex lt WellOrderingRel (key f a) (key f a')
  constructor
  · exact (RelEmbedding.preimage ⟨key f, key_injective hf⟩ _).isStrictTotalOrder
  · intro c hc
    obtain ⟨c', hc', hcc'⟩ := hmaps c hc
    have hmet' := hmet c' hc'
    cases c with
    | before a b =>
        cases c' with
        | next => cases hcc'
        | before a' b' =>
            obtain ⟨ha, hb⟩ := hcc'
            change lt a' b' at hmet'
            simp only [Met, key, ha, hb]
            apply Sum.Lex.inl hmet'
    | next a b =>
        cases c' with
        | before => cases hcc'
        | next a' b' =>
            obtain ⟨ha, hb⟩ := hcc'
            constructor
            · simp only [key, ha, hb]
              apply Sum.Lex.inl hmet'.1
            · intro d hd
              simp only [key, ha, hb] at hd ⊢
              cases hd' : f d with
              | none =>
                  right
                  apply Sum.Lex.sep
              | some d' =>
                  simp only [hd', Sum.lex_inl_inl] at hd ⊢
                  rcases hmet'.2 d' hd with rfl | hlt'
                  · left
                    apply hf _ _ _ hd' hb
                  · right
                    apply hlt'

end Constraint

namespace Adjacent

open Relation

variable {α : Type*} {edge edge' : α → α → Prop} {next next' : α → Option α} {a b : α}

/-! ### Another edge -/

/-- A path along the edges and one more edge takes the latter or not. -/
theorem path_cases (hnew : ∀ x y, edge' x y → edge x y ∨ x = a ∧ y = b) {x y : α}
    (h : TransGen edge' x y) :
  TransGen edge x y ∨ ReflTransGen edge' x a ∧ ReflTransGen edge' b y
  := by
  induction h with
  | single hxy =>
      rcases hnew _ _ hxy with hold | ⟨rfl, rfl⟩
      · left
        apply TransGen.single hold
      · right
        exact ⟨.refl, .refl⟩
  | tail hpath hedge ih =>
      rcases hnew _ _ hedge with hold | ⟨rfl, rfl⟩
      · rcases ih with ih | ⟨hxa, hby⟩
        · left
          apply ih.tail hold
        · right
          exact ⟨hxa, hby.tail hedge⟩
      · right
        exact ⟨hpath.to_reflTransGen, .refl⟩

/-- An edge closes no cycle if no path leads back. -/
theorem acyclic_insert (h : ∀ x, ¬ TransGen edge x x)
    (hnew : ∀ x y, edge' x y → edge x y ∨ x = a ∧ y = b) (hback : ¬ ReflTransGen edge' b a)
    (x : α) :
  ¬ TransGen edge' x x
  := by
  intro hcycle
  rcases path_cases hnew hcycle with hold | ⟨hxa, hbx⟩
  · apply h x hold
  · apply hback (hbx.trans hxa)

/-- A closed graph with more edges. -/
theorem Closed.grow (h : Closed edge next) (hmono : ∀ x y, edge x y → edge' x y)
    (hacyclic : ∀ x, ¬ TransGen edge' x x)
    (hpushed : ∀ x y c, next x = some y → edge' x c → c ≠ y → edge x c ∨ TransGen edge' y c) :
  Closed edge' next
  := by
  constructor
  · apply hacyclic
  · intro x y hxy
    apply hmono _ _ (h.linked x y hxy)
  · intro x y c hxy hxc hne
    rcases hpushed x y c hxy hxc hne with hold | hpath
    · apply TransGen.mono hmono _ _ (h.pushed x y c hxy hold hne)
    · apply hpath
  · apply h.injective
  · apply h.finite

/-! ### Another immediate successor -/

/-- The edges from `a` go to `r` as well. -/
structure Copied (edge : α → α → Prop) (a r : α) (edge' : α → α → Prop) : Prop where
  mono : ∀ x y, edge x y → edge' x y
  copied : ∀ c, edge a c → c ≠ r → edge' r c
  new : ∀ x y, edge' x y → edge x y ∨ x = r ∧ edge a y ∧ y ≠ r

/-- No other edge leads from `a`, or none to `r`. -/
def Apart (edge : α → α → Prop) (a r : α) : Prop :=
  (∀ c, edge a c → c = r) ∨ ∀ x, edge x r → x = a

/-- The copies close no cycle. -/
theorem Copied.acyclic {r : α} (hcopied : Copied edge a r edge') (hapart : Apart edge a r)
    (h : ∀ x, ¬ TransGen edge x x) (x : α) :
  ¬ TransGen edge' x x
  := by
  rcases hapart with honly | honly
  · intro hcycle
    apply h x
    apply TransGen.mono _ _ _ hcycle
    intro y z hyz
    rcases hcopied.new y z hyz with hold | ⟨-, haz, hne⟩
    · apply hold
    · cases hne (honly z haz)
  · have hin : ∀ {t}, t ≠ r → ReflTransGen edge t r → ReflTransGen edge t a := by
      intro t hne hpath
      rcases hpath.cases_tail with heq | ⟨y, hty, hyr⟩
      · cases hne heq.symm
      · rw [← honly y hyr]
        apply hty
    have hcases : ∀ {y z}, TransGen edge' y z → TransGen edge y z ∨
        y = r ∧ ∃ t, edge a t ∧ t ≠ r ∧ ReflTransGen edge t z := by
      intro y z hpath
      induction hpath with
      | single hyz =>
          rcases hcopied.new _ _ hyz with hold | ⟨rfl, haz, hne⟩
          · left
            apply TransGen.single hold
          · right
            exact ⟨rfl, _, haz, hne, .refl⟩
      | @tail w z _ hwz ih =>
          rcases hcopied.new _ _ hwz with hold | ⟨rfl, haz, hne⟩
          · rcases ih with ih | ⟨rfl, t, hat, hne, htw⟩
            · left
              apply ih.tail hold
            · right
              exact ⟨rfl, t, hat, hne, htw.tail hold⟩
          · rcases ih with ih | ⟨rfl, -⟩
            · by_cases hy : y = w
              · subst hy
                right
                exact ⟨rfl, z, haz, hne, .refl⟩
              · left
                apply TransGen.tail' (hin hy ih.to_reflTransGen) haz
            · right
              exact ⟨rfl, z, haz, hne, .refl⟩
    intro hcycle
    rcases hcases hcycle with hold | ⟨rfl, t, hat, hne, htx⟩
    · apply h x hold
    · apply h a
      apply TransGen.head' hat (hin hne htx)

/-- `r` becomes the immediate successor of `a`: it gets the edges of `a`, and `a` an edge to
it. -/
theorem Closed.adjoin {r : α} {edge₁ : α → α → Prop} (h : Closed edge next)
    (hcopied : Copied edge a r edge₁) (hmono : ∀ x y, edge₁ x y → edge' x y)
    (hnew : ∀ x y, edge' x y → edge₁ x y ∨ x = a ∧ y = r) (hedge : edge' a r)
    (hacyclic : ∀ x, ¬ TransGen edge' x x) (hne : a ≠ r) (hlast : next r = none)
    (hfree : ∀ x, next x ≠ some r)
    (hnext : ∀ x y, next' x = some y → x = a ∧ y = r ∨ x ≠ a ∧ next x = some y) :
  Closed edge' next'
  := by
  constructor
  · apply hacyclic
  · intro x y hxy
    rcases hnext x y hxy with ⟨rfl, rfl⟩ | ⟨-, hold⟩
    · apply hedge
    · apply hmono _ _ (hcopied.mono _ _ (h.linked x y hold))
  · intro x y c hxy hxc hcy
    rcases hnext x y hxy with ⟨rfl, rfl⟩ | ⟨hxa, hold⟩
    · rcases hnew x c hxc with hold | ⟨-, heq⟩
      · rcases hcopied.new x c hold with hac | ⟨heq, -⟩
        · apply TransGen.single (hmono _ _ (hcopied.copied c hac hcy))
        · cases hne heq
      · cases hcy heq
    · rcases hnew x c hxc with hxc' | ⟨heq, -⟩
      · rcases hcopied.new x c hxc' with hxc'' | ⟨rfl, -⟩
        · apply TransGen.mono _ _ _ (h.pushed x y c hold hxc'' hcy)
          intro u v huv
          apply hmono _ _ (hcopied.mono _ _ huv)
        · rw [hlast] at hold
          cases hold
      · cases hxa heq
  · intro x y c hxc hyc
    rcases hnext x c hxc with ⟨rfl, rfl⟩ | ⟨-, hold⟩
    · rcases hnext y c hyc with ⟨rfl, -⟩ | ⟨-, hold'⟩
      · rfl
      · cases hfree y hold'
    · rcases hnext y c hyc with ⟨rfl, rfl⟩ | ⟨-, hold'⟩
      · cases hfree x hold
      · apply h.injective x y c hold hold'
  · apply (h.finite.insert a).subset
    intro x hx
    obtain ⟨y, hy⟩ := Option.ne_none_iff_exists'.mp hx
    rcases hnext x y hy with ⟨rfl, -⟩ | ⟨-, hold⟩
    · apply Set.mem_insert
    · apply Set.mem_insert_of_mem
      show next x ≠ none
      rw [hold]
      rintro ⟨⟩

/-! ### Chains of immediate successors -/

/-- Every chain ends, also with one more immediate successor. -/
theorem chains_adjoin {r : α} (h : ∀ x, ∃ d e, Chain next x d e) (hne : a ≠ r)
    (hlast : next r = none) (hnone : next a = none) (hself : next' a = some r)
    (hother : ∀ x, x ≠ a → next' x = next x) (x : α) :
  ∃ d e, Chain next' x d e
  := by
  obtain ⟨d, e, hchain⟩ := h x
  induction hchain with
  | @last x hx =>
      by_cases hxa : x = a
      · subst hxa
        use 1, r
        apply Chain.step hself
        apply Chain.last
        rw [hother r (Ne.symm hne), hlast]
      · use 0, x
        apply Chain.last
        rw [hother x hxa, hx]
  | @step x y e d hx _ ih =>
      obtain ⟨d', e', hchain'⟩ := ih
      have hxa : x ≠ a := by
        rintro rfl
        rw [hnone] at hx
        cases hx
      use d' + 1, e'
      apply Chain.step _ hchain'
      rw [hother x hxa, hx]

theorem Chain.suffix {d i : ℕ} {e : α} (h : Chain next a d e) (hi : i ≤ d) :
  ∃ x, Chain next x i e
  := by
  induction h with
  | last hnone =>
      obtain rfl := Nat.le_zero.mp hi
      exact ⟨_, .last hnone⟩
  | step hsome rest ih =>
      rcases Nat.le_succ_iff.mp hi with hle | rfl
      · apply ih hle
      · exact ⟨_, .step hsome rest⟩

/-- A chain is no longer than there are nodes with an immediate successor. -/
theorem Chain.le_card {S : Finset α} (hS : ∀ x y, next x = some y → x ∈ S) {d : ℕ} {e : α}
    (h : Chain next a d e) :
  d ≤ S.card
  := by
  have hnode : ∀ i : Fin d, ∃ x, x ∈ S ∧ Chain next x (i + 1) e := by
    intro i
    obtain ⟨x, hx⟩ := h.suffix (Nat.succ_le_of_lt i.isLt)
    use x
    cases hx with
    | step hsome rest => exact ⟨hS x _ hsome, .step hsome rest⟩
  choose f hf hchain using hnode
  have hinj : Function.Injective f := by
    intro i j hij
    have hj := hchain j
    rw [← hij] at hj
    have := ((hchain i).unique hj).1
    omega
  calc
    d = (Finset.univ : Finset (Fin d)).card := by simp
    _ ≤ S.card := Finset.card_le_card_of_injOn f (fun i _ => hf i) hinj.injOn

end Adjacent

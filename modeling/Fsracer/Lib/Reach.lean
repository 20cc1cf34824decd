/-
  File:      Fsracer/Lib/Reach.lean
  Subject:   PATHS OF A RELATION: acyclicity by rank, pruning around a node, barriers.

  General facts about the transitive closure `TransGen E` of a relation `E` (a path of one edge
  or more). They name no program:

  * `path_rank_lt`, `acyclic_of_rank` -- a relation that increases a rank has no cycle;
  * **`path_prune_iff`** -- in an acyclic relation, all edges that bypass one node `m` (an edge
    `p n` with a path from `p` to `m` and one from `m` to `n`) can be deleted AT ONCE without
    changing which paths exist;
  * `path_barrier_iff` -- the paths to a node that gets an edge from every member of a set;
  * `exists_sink` -- in a finite acyclic relation every node reaches a node without successor.
-/
import Mathlib

namespace Reach

open Relation

variable {α β : Type*} {E F R : α → α → Prop}

/-! ## 1. Acyclic relations -/

/-- No node has a path to itself. -/
def Acyclic (E : α → α → Prop) : Prop := ∀ x, ¬ TransGen E x x

theorem path_mono (h : ∀ x y, E x y → F x y) {x y : α} (hp : TransGen E x y) : TransGen F x y :=
  TransGen.mono h _ _ hp

theorem Acyclic.mono (hF : Acyclic F) (h : ∀ x y, E x y → F x y) : Acyclic E :=
  fun x hx => hF x (path_mono h hx)

/-- Along a path the rank grows when it grows along every edge. -/
theorem path_rank_lt [Preorder β] {rank : α → β} (h : ∀ x y, E x y → rank x < rank y) {x y : α}
    (hp : TransGen E x y) : rank x < rank y := by
  induction hp with
  | single e => exact h _ _ e
  | tail _ e ih => exact ih.trans (h _ _ e)

theorem acyclic_of_rank [Preorder β] (rank : α → β) (h : ∀ x y, E x y → rank x < rank y) :
    Acyclic E :=
  fun _ hx => lt_irrefl _ (path_rank_lt h hx)

/-! ## 2. Pruning: deleting the edges that bypass a node -/

section Prune

variable {m : α} (hE : Acyclic E) (hR : ∀ p n, R p n → TransGen E p m ∧ TransGen E m n)
include hE hR

/-- No edge of a path INTO `m` bypasses `m`: its target would lie behind `m` and reach it. -/
theorem path_into_avoids {x : α} (hp : TransGen E x m) :
    TransGen (fun u v => E u v ∧ ¬ R u v) x m := by
  induction hp using TransGen.head_induction_on with
  | single e => exact .single ⟨e, fun hr => hE m (hR _ _ hr).2⟩
  | head e hrest ih => exact .head ⟨e, fun hr => hE m ((hR _ _ hr).2.trans hrest)⟩ ih

/-- No edge of a path OUT OF `m` bypasses `m`: its source would lie before `m` and behind it. -/
theorem path_from_avoids {y : α} (hp : TransGen E m y) :
    TransGen (fun u v => E u v ∧ ¬ R u v) m y := by
  induction hp with
  | single e => exact .single ⟨e, fun hr => hE m (hR _ _ hr).1⟩
  | tail hrest e ih => exact .tail ih ⟨e, fun hr => hE m (hrest.trans (hR _ _ hr).1)⟩

/-- **Pruning keeps every path.** -/
theorem path_prune_iff {x y : α} :
    TransGen (fun u v => E u v ∧ ¬ R u v) x y ↔ TransGen E x y := by
  refine ⟨path_mono fun _ _ e => e.1, fun h => ?_⟩
  have step : ∀ u v, E u v → TransGen (fun u v => E u v ∧ ¬ R u v) u v := by
    intro u v e
    by_cases hr : R u v
    · obtain ⟨h1, h2⟩ := hR u v hr
      exact (path_into_avoids hE hR h1).trans (path_from_avoids hE hR h2)
    · exact .single ⟨e, hr⟩
  induction h with
  | single e => exact step _ _ e
  | tail _ e ih => exact ih.trans (step _ _ e)

end Prune

/-! ## 3. Barriers: a node that is put behind a set -/

/-- **The paths to a barrier**: after every member of `S` got an edge to `m`, a node reaches `m`
    iff it did before or it reaches a member of `S`. -/
theorem path_barrier_iff {S : α → Prop} {m x : α} :
    TransGen (fun u v => E u v ∨ (v = m ∧ S u)) x m ↔
      TransGen E x m ∨ ∃ s, S s ∧ ReflTransGen E x s := by
  constructor
  · intro h
    induction h using TransGen.head_induction_on with
    | single e =>
        rcases e with e | ⟨_, hs⟩
        · exact .inl (.single e)
        · exact .inr ⟨_, hs, .refl⟩
    | head e _ ih =>
        rcases e with e | ⟨_, hs⟩
        · rcases ih with ih | ⟨s, hs, ih⟩
          · exact .inl (.head e ih)
          · exact .inr ⟨s, hs, .head e ih⟩
        · exact .inr ⟨_, hs, .refl⟩
  · intro hc
    rcases hc with h | ⟨s, hs, h⟩
    · exact path_mono (fun _ _ e => .inl e) h
    · exact TransGen.tail' (ReflTransGen.mono (fun _ _ e => .inl e) _ _ h) (.inr ⟨rfl, hs⟩)

/-- In a finite acyclic relation whose edges stay inside `V`, every node of `V` reaches a node of
    `V` without successor. -/
theorem exists_sink {V : Finset α} (hE : Acyclic E) (hV : ∀ x y, x ∈ V → E x y → y ∈ V)
    {x : α} (hx : x ∈ V) : ∃ s ∈ V, (∀ y, ¬ E s y) ∧ ReflTransGen E x s := by
  classical
  -- induction on the number of nodes strictly behind `x`
  induction hn : (V.filter fun y => TransGen E x y).card using Nat.strong_induction_on
    generalizing x with
  | _ n ih =>
      by_cases hs : ∀ y, ¬ E x y
      · exact ⟨x, hx, hs, .refl⟩
      · push Not at hs
        obtain ⟨y, e⟩ := hs
        have hy : y ∈ V := hV x y hx e
        have hsub : (V.filter fun z => TransGen E y z) ⊂ V.filter fun z => TransGen E x z := by
          refine Finset.ssubset_iff_of_subset (fun z hz => ?_) |>.mpr ⟨y, ?_, ?_⟩
          · rw [Finset.mem_filter] at hz ⊢
            exact ⟨hz.1, .head e hz.2⟩
          · exact Finset.mem_filter.mpr ⟨hy, .single e⟩
          · intro hy'
            exact hE y (Finset.mem_filter.mp hy').2
        obtain ⟨s, hsV, hsink, hp⟩ := ih _ (hn ▸ Finset.card_lt_card hsub) hy rfl
        exact ⟨s, hsV, hsink, .head e hp⟩

end Reach

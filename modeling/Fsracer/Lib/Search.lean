/-
  File:      Fsracer/Lib/Search.lean
  Subject:   THE WORK-LIST SEARCH: a loop over an explicit stack with a set of visited nodes.

  `searchLoop succ` pops a node, skips it when it was visited, and otherwise pushes its
  successors that are not visited yet. `succ x = none` models a node that the loop cannot expand
  (a failed assertion); the search then ends with `Outcome.failed`. The library names no
  program:

  * `Round` -- one round of the loop, without fuel; `Round.work_lt`: the length of the stack plus
    the out-degrees of the unvisited nodes drops, cycles and repeated stack entries included;
  * `searchLoop_ne_outOfFuel` -- so the loop ends;
  * `search_done_iff`, `mem_of_search` -- it ends with a set iff every reachable node can be
    expanded, and the set is then exactly the set of reachable nodes;
  * `search_ends` -- the rounds of such a search do not go on for ever, and stop nowhere but at the
    empty stack, with the set that the search returns.
-/
import Mathlib
import Fsracer.Lib.Ordered

namespace Search

open Relation

variable {α : Type} [Ord α]

/-- How a search ends. -/
inductive Outcome (α : Type) [Ord α] where
  | done (visited : Std.TreeSet α)
  | failed (node : α)
  | outOfFuel

/-- The successors of `x` that the loop pushes, the last one on top. -/
def pushAll (visited : Std.TreeSet α) (ys : List α) (pool : List α) : List α :=
  ys.foldl (fun pool y => if y ∈ visited then pool else y :: pool) pool

/-- The loop, one round per unit of fuel. -/
def searchLoop (succ : α → Option (List α)) : Nat → List α → Std.TreeSet α → Outcome α
  | _, [], visited => .done visited
  | 0, _ :: _, _ => .outOfFuel
  | n + 1, x :: pool, visited =>
      if x ∈ visited then searchLoop succ n pool visited
      else
        match succ x with
        | none => .failed x
        | some ys =>
            searchLoop succ n (pushAll (visited.insert x) ys pool) (visited.insert x)

/-- The edges the search follows. -/
def Step (succ : α → Option (List α)) (x y : α) : Prop := ∃ ys, succ x = some ys ∧ y ∈ ys

/-- One round of the loop, on the stack and the visited set; there is none on the empty stack and
    none for a node that cannot be expanded. -/
inductive Round (succ : α → Option (List α)) :
    List α × Std.TreeSet α → List α × Std.TreeSet α → Prop
  | skip {x : α} {pool : List α} {visited : Std.TreeSet α} (hx : x ∈ visited) :
      Round succ (x :: pool, visited) (pool, visited)
  | expand {x : α} {pool ys : List α} {visited : Std.TreeSet α} (hx : x ∉ visited)
      (hs : succ x = some ys) :
      Round succ (x :: pool, visited)
        (pushAll (visited.insert x) ys pool, visited.insert x)

/-- **The loop ends with `out`**: it does not run for ever, and wherever it stops, the stack is
    empty and `out` was visited. -/
structure Ends (succ : α → Option (List α)) (s : List α × Std.TreeSet α)
    (out : Std.TreeSet α) : Prop where
  finite : Acc (fun s₂ s₁ => Round succ s₁ s₂) s
  result : ∀ s', ReflTransGen (Round succ) s s' → (∀ s'', ¬ Round succ s' s'') → s' = ([], out)

/-! ## 1. The loop in rounds -/

section Rounds

variable {succ : α → Option (List α)} {s s' : List α × Std.TreeSet α} {out : Std.TreeSet α}

theorem searchLoop_round (h : Round succ s s') (n : Nat) :
    searchLoop succ (n + 1) s.1 s.2 = searchLoop succ n s'.1 s'.2 := by
  cases h with
  | skip hx => rw [searchLoop, if_pos hx]
  | expand hx hs => rw [searchLoop, if_neg hx, hs]

theorem searchLoop_stuck {x : α} {pool : List α} {visited : Std.TreeSet α} (hx : x ∉ visited)
    (hs : succ x = none) (n : Nat) : searchLoop succ (n + 1) (x :: pool) visited = .failed x := by
  rw [searchLoop, if_neg hx, hs]

/-- Where the loop stands: at the end, before a round, or at a node that it cannot expand. -/
theorem round_cases (succ : α → Option (List α)) (s : List α × Std.TreeSet α) :
    s = ([], s.2) ∨ (∃ s', Round succ s s') ∨
      ∃ x pool, s = (x :: pool, s.2) ∧ x ∉ s.2 ∧ succ x = none := by
  obtain ⟨pool, visited⟩ := s
  cases pool with
  | nil => exact .inl rfl
  | cons x pool =>
      by_cases hx : x ∈ visited
      · exact .inr (.inl ⟨_, .skip hx⟩)
      · cases hs : succ x with
        | none => exact .inr (.inr ⟨x, pool, rfl, hx, hs⟩)
        | some ys => exact .inr (.inl ⟨_, .expand hx hs⟩)

/-- A loop that returns a set has come to the empty stack with it. -/
theorem rounds_of_done {n : Nat} (h : searchLoop succ n s.1 s.2 = .done out) :
    ReflTransGen (Round succ) s ([], out) := by
  induction n generalizing s with
  | zero =>
      obtain ⟨pool, visited⟩ := s
      cases pool with
      | nil =>
          cases h
          exact .refl
      | cons x pool => cases h
  | succ n ih =>
      rcases round_cases succ s with hs | ⟨s', hr⟩ | ⟨x, pool, hs, hx, hno⟩
      · rw [hs] at h ⊢
        cases h
        exact .refl
      · rw [searchLoop_round hr] at h
        exact .head hr (ih h)
      · rw [hs] at h
        cases (searchLoop_stuck hx hno n).symm.trans h

/-- A loop that fails has come to a node that it cannot expand. -/
theorem rounds_of_failed {n : Nat} {z : α} (h : searchLoop succ n s.1 s.2 = .failed z) :
    succ z = none ∧ ∃ pool visited, ReflTransGen (Round succ) s (z :: pool, visited) := by
  induction n generalizing s with
  | zero =>
      obtain ⟨pool, visited⟩ := s
      cases pool <;> cases h
  | succ n ih =>
      rcases round_cases succ s with hs | ⟨s', hr⟩ | ⟨x, pool, hs, hx, hno⟩
      · rw [hs] at h
        cases h
      · rw [searchLoop_round hr] at h
        obtain ⟨hz, pool, visited, hrun⟩ := ih h
        exact ⟨hz, pool, visited, .head hr hrun⟩
      · rw [hs] at h
        cases (searchLoop_stuck hx hno n).symm.trans h
        refine ⟨hno, pool, s.2, ?_⟩
        rw [← hs]

/-- Along the rounds the result stays what it is. -/
theorem done_of_rounds (hr : ReflTransGen (Round succ) s s')
    (h : ∃ n, searchLoop succ n s.1 s.2 = .done out) :
    ∃ n, searchLoop succ n s'.1 s'.2 = .done out := by
  induction hr with
  | refl => exact h
  | tail _ hround ih =>
      obtain ⟨n, hn⟩ := ih
      cases n with
      | zero => cases hround <;> cases hn
      | succ n => exact ⟨n, (searchLoop_round hround n).symm.trans hn⟩

/-- A loop that ends within its fuel has no infinite run. -/
theorem acc_of_searchLoop {n : Nat} (h : searchLoop succ n s.1 s.2 ≠ .outOfFuel) :
    Acc (fun s₂ s₁ => Round succ s₁ s₂) s := by
  induction n generalizing s with
  | zero =>
      refine Acc.intro s fun s' hr => ?_
      cases hr <;> exact absurd rfl h
  | succ n ih =>
      refine Acc.intro s fun s' hr => ih ?_
      rwa [← searchLoop_round hr]

/-- **A loop that returns a set ends with it.** -/
theorem ends_of_done {n : Nat} (h : searchLoop succ n s.1 s.2 = .done out) :
    Ends succ s out := by
  refine ⟨acc_of_searchLoop (n := n) ?_, fun s' hr hstop => ?_⟩
  · intro hout
    cases h.symm.trans hout
  · obtain ⟨m, hm⟩ := done_of_rounds hr ⟨n, h⟩
    rcases (rounds_of_done hm).cases_head with hs | ⟨s'', hround, _⟩
    · exact hs
    · exact absurd hround (hstop s'')

end Rounds

/-! ## 2. What a round pushes -/

theorem mem_pushAll {visited : Std.TreeSet α} {ys pool : List α} {y : α} :
    y ∈ pushAll visited ys pool ↔ (y ∈ ys ∧ y ∉ visited) ∨ y ∈ pool := by
  unfold pushAll
  refine (Ordered.foldl_iff (Q := fun pool => y ∈ pool) (P := fun z => y = z ∧ z ∉ visited)
    (fun pool z => ?_) _ _).trans ?_
  · split
    · rename_i hz
      rw [or_iff_left fun h => h.2 hz]
    · rename_i hz
      rw [List.mem_cons, and_iff_left hz, or_comm]
  · rw [or_comm]
    refine or_congr_left ?_
    constructor
    · intro h
      obtain ⟨z, hz, rfl, hv⟩ := h
      exact ⟨hz, hv⟩
    · intro h
      exact ⟨y, h.1, rfl, h.2⟩

theorem length_pushAll_le (visited : Std.TreeSet α) (ys pool : List α) :
    (pushAll visited ys pool).length ≤ ys.length + pool.length := by
  unfold pushAll
  induction ys generalizing pool with
  | nil => simp
  | cons z ys ih =>
      rw [List.foldl_cons]
      refine (ih _).trans ?_
      split <;> simp only [List.length_cons] <;> omega

/-! ## 3. Termination -/

variable [Std.TransOrd α] [Std.LawfulEqOrd α]

theorem mem_insert_iff {s : Std.TreeSet α} {x y : α} : y ∈ s.insert x ↔ x = y ∨ y ∈ s := by
  rw [Std.TreeSet.mem_insert, Std.compare_eq_iff_eq]

/-- The out-degrees of the nodes of `V` that were not visited yet. -/
def openDegree (succ : α → Option (List α)) (visited : Std.TreeSet α) (V : List α) : Nat :=
  (V.map fun x => if x ∈ visited then 0 else ((succ x).getD []).length).sum

theorem openDegree_insert_le (succ : α → Option (List α)) (visited : Std.TreeSet α) (x : α)
    (V : List α) : openDegree succ (visited.insert x) V ≤ openDegree succ visited V := by
  unfold openDegree
  induction V with
  | nil => simp
  | cons v V ih =>
      simp only [List.map_cons, List.sum_cons, mem_insert_iff]
      by_cases hv : v ∈ visited
      · simpa [hv] using ih
      · by_cases hx : x = v <;> simp [hv, hx] at ih ⊢ <;> omega

/-- Visiting a node of `V` takes its out-degree off the measure. -/
theorem openDegree_insert {succ : α → Option (List α)} {visited : Std.TreeSet α} {x : α}
    (hx : x ∉ visited) {V : List α} (hV : x ∈ V) :
    openDegree succ (visited.insert x) V + ((succ x).getD []).length ≤
      openDegree succ visited V := by
  induction V with
  | nil => cases hV
  | cons v V ih =>
      have hle := openDegree_insert_le succ visited x V
      unfold openDegree at ih hle ⊢
      simp only [List.map_cons, List.sum_cons]
      by_cases hv : x = v
      · subst hv
        rw [if_pos (mem_insert_iff.mpr (.inl rfl)), if_neg hx]
        omega
      · have ih := ih ((List.mem_cons.mp hV).resolve_left hv)
        have hmem : v ∈ visited.insert x ↔ v ∈ visited := by simp [hv]
        simp only [hmem]
        omega

/-- What is left to do: the entries of the stack and the out-degrees of the unvisited nodes. -/
def work (succ : α → Option (List α)) (V : List α) (s : List α × Std.TreeSet α) : Nat :=
  s.1.length + openDegree succ s.2 V

/-- A round takes an entry off the stack and pushes no more than the out-degree it pays with. -/
theorem Round.work_lt {succ : α → Option (List α)} {V : List α}
    (hV : ∀ x, (succ x).isSome → x ∈ V) {s s' : List α × Std.TreeSet α} (h : Round succ s s') :
    work succ V s' < work succ V s := by
  unfold work
  cases h with
  | skip hx => simp
  | @expand x pool ys visited hx hs =>
      have hdeg : openDegree succ (visited.insert x) V + ((succ x).getD []).length ≤
          openDegree succ visited V := openDegree_insert hx (hV x (by simp [hs]))
      have hlen := length_pushAll_le (visited.insert x) ys pool
      simp only [hs, Option.getD_some, List.length_cons] at hdeg ⊢
      omega

/-- **The loop ends**, when `V` lists the nodes that can be expanded. -/
theorem searchLoop_ne_outOfFuel {succ : α → Option (List α)} {V : List α}
    (hV : ∀ x, (succ x).isSome → x ∈ V) {n : Nat} {pool : List α} {visited : Std.TreeSet α}
    (hn : pool.length + openDegree succ visited V ≤ n) :
    searchLoop succ n pool visited ≠ .outOfFuel := by
  induction n generalizing pool visited with
  | zero =>
      cases pool with
      | nil => simp [searchLoop]
      | cons x pool => simp at hn
  | succ n ih =>
      rcases round_cases succ (pool, visited) with hs | ⟨s', hr⟩ | ⟨x, pool', hs, hx, hno⟩
      · cases hs
        simp [searchLoop]
      · have hwork : work succ V s' < pool.length + openDegree succ visited V := hr.work_lt hV
        have hloop : searchLoop succ (n + 1) pool visited = _ := searchLoop_round hr n
        rw [hloop]
        exact ih (Nat.le_of_lt_succ (hwork.trans_le hn))
      · cases hs
        rw [searchLoop_stuck hx hno]
        simp

/-! ## 4. The visited set -/

section Visited

variable {succ : α → Option (List α)} {s s' : List α × Std.TreeSet α} {x : α}

/-- What is visited or stacked stays so. -/
theorem Round.kept (h : Round succ s s') (hx : x ∈ s.2 ∨ x ∈ s.1) : x ∈ s'.2 ∨ x ∈ s'.1 := by
  cases h with
  | skip hp =>
      rcases hx with hx | hx
      · exact .inl hx
      · rcases List.mem_cons.mp hx with rfl | hx
        · exact .inl hp
        · exact .inr hx
  | expand hp hs =>
      rw [mem_insert_iff, mem_pushAll]
      rcases hx with hx | hx
      · exact .inl (.inr hx)
      · rcases List.mem_cons.mp hx with rfl | hx
        · exact .inl (.inl rfl)
        · exact .inr (.inr hx)

/-- What a round visits was on the stack. -/
theorem Round.visited (h : Round succ s s') (hx : x ∈ s'.2) : x ∈ s.2 ∨ x ∈ s.1 := by
  cases h with
  | skip hp => exact .inl hx
  | expand hp hs =>
      rcases mem_insert_iff.mp hx with rfl | hx
      · exact .inr List.mem_cons_self
      · exact .inl hx

omit [Std.TransOrd α] [Std.LawfulEqOrd α] in
/-- What a round stacks is reached from the stack. -/
theorem Round.stacked (h : Round succ s s') (hx : x ∈ s'.1) :
    ∃ p ∈ s.1, ReflTransGen (Step succ) p x := by
  cases h with
  | skip hp => exact ⟨x, List.mem_cons_of_mem _ hx, .refl⟩
  | @expand p pool ys visited hp hs =>
      rcases mem_pushAll.mp hx with ⟨hx, _⟩ | hx
      · exact ⟨p, List.mem_cons_self, .single ⟨ys, hs, hx⟩⟩
      · exact ⟨x, List.mem_cons_of_mem _ hx, .refl⟩

/-- Every visited node was expanded, and its successors are visited or stacked. -/
def Expanded (succ : α → Option (List α)) (s : List α × Std.TreeSet α) : Prop :=
  ∀ x ∈ s.2, ∃ ys, succ x = some ys ∧ ∀ y ∈ ys, y ∈ s.2 ∨ y ∈ s.1

theorem Round.expanded (h : Round succ s s') (he : Expanded succ s) : Expanded succ s' := by
  intro x hx
  have hold : x ∈ s.2 → ∃ ys, succ x = some ys ∧ ∀ y ∈ ys, y ∈ s'.2 ∨ y ∈ s'.1 := by
    intro hx
    obtain ⟨ys, hys, hc⟩ := he x hx
    exact ⟨ys, hys, fun y hy => h.kept (hc y hy)⟩
  cases h with
  | skip hp => exact hold hx
  | @expand p pool ys visited hp hs =>
      rcases mem_insert_iff.mp hx with rfl | hx
      · -- the expanded node pushed what it had left to visit
        refine ⟨ys, hs, fun y hy => ?_⟩
        by_cases hv : y ∈ visited.insert p
        · exact .inl hv
        · exact .inr (mem_pushAll.mpr (.inl ⟨hy, hv⟩))
      · exact hold hx

theorem rounds_kept (h : ReflTransGen (Round succ) s s') (hx : x ∈ s.2 ∨ x ∈ s.1) :
    x ∈ s'.2 ∨ x ∈ s'.1 := by
  induction h with
  | refl => exact hx
  | tail _ hr ih => exact hr.kept ih

theorem rounds_expanded (h : ReflTransGen (Round succ) s s') (he : Expanded succ s) :
    Expanded succ s' := by
  induction h with
  | refl => exact he
  | tail _ hr ih => exact hr.expanded ih

omit [Std.TransOrd α] [Std.LawfulEqOrd α] in
theorem rounds_stacked (h : ReflTransGen (Round succ) s s') (hx : x ∈ s'.1) :
    ∃ p ∈ s.1, ReflTransGen (Step succ) p x := by
  induction h generalizing x with
  | refl => exact ⟨x, hx, .refl⟩
  | tail _ hr ih =>
      obtain ⟨q, hq, hqx⟩ := hr.stacked hx
      obtain ⟨p, hp, hpq⟩ := ih hq
      exact ⟨p, hp, hpq.trans hqx⟩

theorem rounds_visited (h : ReflTransGen (Round succ) s s') (hx : x ∈ s'.2) :
    x ∈ s.2 ∨ ∃ p ∈ s.1, ReflTransGen (Step succ) p x := by
  induction h generalizing x with
  | refl => exact .inl hx
  | tail hrun hr ih =>
      rcases hr.visited hx with hx | hx
      · exact ih hx
      · exact .inr (rounds_stacked hrun hx)

end Visited

/-- What a finished loop returns: everything visited or stacked, nothing that these do not
    reach, and -- if every successor of a visited node was visited or stacked -- a set of
    expandable nodes closed under successors. -/
theorem searchLoop_done {succ : α → Option (List α)} {n : Nat} {pool : List α}
    {visited out : Std.TreeSet α} (h : searchLoop succ n pool visited = .done out) :
    (∀ x, x ∈ visited ∨ x ∈ pool → x ∈ out) ∧
    (∀ x ∈ out, x ∈ visited ∨ ∃ p ∈ pool, ReflTransGen (Step succ) p x) ∧
    ((∀ x ∈ visited, ∃ ys, succ x = some ys ∧ ∀ y ∈ ys, y ∈ visited ∨ y ∈ pool) →
      ∀ x ∈ out, ∃ ys, succ x = some ys ∧ ∀ y ∈ ys, y ∈ out) := by
  have hrun : ReflTransGen (Round succ) (pool, visited) ([], out) := rounds_of_done h
  have hempty : ∀ y, y ∈ out ∨ y ∈ ([] : List α) → y ∈ out := fun y hy =>
    hy.resolve_right List.not_mem_nil
  refine ⟨fun x hx => hempty x (rounds_kept hrun hx), fun x hx => rounds_visited hrun hx,
    fun he x hx => ?_⟩
  obtain ⟨ys, hys, hc⟩ := rounds_expanded hrun he x hx
  exact ⟨ys, hys, fun y hy => hempty y (hc y hy)⟩

omit [Std.TransOrd α] [Std.LawfulEqOrd α] in
/-- A failed loop names a node that it cannot expand and that the stack reaches. -/
theorem searchLoop_failed {succ : α → Option (List α)} {n : Nat} {pool : List α}
    {visited : Std.TreeSet α} {z : α} (h : searchLoop succ n pool visited = .failed z) :
    succ z = none ∧ ∃ p ∈ pool, ReflTransGen (Step succ) p z := by
  obtain ⟨hz, pool', visited', hrun⟩ := rounds_of_failed (s := (pool, visited)) h
  exact ⟨hz, rounds_stacked hrun List.mem_cons_self⟩

/-! ## 5. A search from one node -/

/-- The search from `x`, with fuel for the nodes of `V`. -/
def search (succ : α → Option (List α)) (V : List α) (x : α) : Outcome α :=
  searchLoop succ (1 + (V.map fun v => ((succ v).getD []).length).sum) [x] ∅

theorem search_ne_outOfFuel {succ : α → Option (List α)} {V : List α}
    (hV : ∀ x, (succ x).isSome → x ∈ V) (x : α) : search succ V x ≠ .outOfFuel := by
  refine searchLoop_ne_outOfFuel hV ?_
  simp [openDegree]

/-- **Soundness and completeness**: a finished search returns the reachable nodes. -/
theorem mem_of_search {succ : α → Option (List α)} {V : List α} {x : α} {out : Std.TreeSet α}
    (h : search succ V x = .done out) (y : α) :
    y ∈ out ↔ ReflTransGen (Step succ) x y := by
  obtain ⟨h1, h2, h3⟩ := searchLoop_done h
  constructor
  · intro hy
    rcases h2 y hy with hy | ⟨p, hp, hr⟩
    · simp at hy
    · rw [List.mem_singleton.mp hp] at hr
      exact hr
  · intro hr
    induction hr with
    | refl => exact h1 x (.inr (List.mem_singleton_self x))
    | tail _ hs ih =>
        obtain ⟨ys, hys, hy⟩ := hs
        obtain ⟨zs, hzs, hc⟩ := h3 (fun x hx => absurd hx (by simp)) _ ih
        rw [hys] at hzs
        cases hzs
        exact hc _ hy

/-- **A search finishes iff every node it reaches can be expanded.** -/
theorem search_done_iff {succ : α → Option (List α)} {V : List α}
    (hV : ∀ x, (succ x).isSome → x ∈ V) (x : α) :
    (∃ out, search succ V x = .done out) ↔
      ∀ y, ReflTransGen (Step succ) x y → (succ y).isSome := by
  constructor
  · intro hc y hy
    obtain ⟨out, h⟩ := hc
    obtain ⟨_, _, h3⟩ := searchLoop_done h
    obtain ⟨ys, hys, _⟩ := h3 (fun x hx => absurd hx (by simp)) y ((mem_of_search h y).mpr hy)
    simp [hys]
  · intro hall
    cases h : search succ V x with
    | done out => exact ⟨out, rfl⟩
    | outOfFuel => exact absurd h (search_ne_outOfFuel hV x)
    | failed z =>
        obtain ⟨hz, p, hp, hr⟩ := searchLoop_failed h
        rw [List.mem_singleton.mp hp] at hr
        have := hall z hr
        simp [hz] at this

omit [Std.TransOrd α] [Std.LawfulEqOrd α] in
/-- **A search that returns a set is a loop that ends with it.** -/
theorem search_ends {succ : α → Option (List α)} {V : List α} {x : α} {out : Std.TreeSet α}
    (h : search succ V x = .done out) : Ends succ ([x], ∅) out :=
  ends_of_done (s := ([x], ∅)) h

end Search

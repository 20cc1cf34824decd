/-
  File:      Fsracer/GraphCalls.lean
  Subject:   GRAPHS AS SEQUENCES OF CALLS: what `AddNode`, `AddEdge` and `RemoveEdge` (lib/Graph.h)
             build from the empty graph, and what `DFS` returns on it.

  * `hasNode_built`, `edgeL_built` -- a node is one that was added, an edge is one that was added
    while its source was a node, and not removed since;
  * `closed_built` -- edges end in nodes if every target that is named is added;
  * **`dfs_built`** -- from every node of a graph whose edges end in nodes, the loop of `DFS` ends
    with the set of the nodes that the edges reach.
-/
import Mathlib
import Fsracer.Graph

namespace Fsracer

open Relation

/-! ## 1. Calls -/

/-- A call of an operation that changes the nodes or the edges. -/
inductive GraphCall (T L : Type) where
  | addNode (nodeId : String) (nodeObj : T)
  | addEdge (source target : String) (label : L)
  | removeEdge (source target : String) (label : L)

namespace Graph

variable {T L : Type} [Ord L]

/-- The graph after a call. -/
def call (g : Graph T L) : GraphCall T L → Graph T L
  | .addNode nodeId nodeObj => g.addNode nodeId nodeObj
  | .addEdge source target label => g.addEdge source target label
  | .removeEdge source target label => g.removeEdge source target label

/-- The graph that a sequence of calls builds. -/
def built (calls : List (GraphCall T L)) : Graph T L := calls.foldl call empty

theorem built_snoc (calls : List (GraphCall T L)) (c : GraphCall T L) :
    built (calls ++ [c]) = (built calls).call c := List.foldl_concat ..

/-! ## 2. What the calls build -/

variable {calls : List (GraphCall T L)} {s t id : String} {l : L}

/-- A node is one that was added. -/
theorem hasNode_built : (built calls).HasNode id ↔ ∃ obj, .addNode id obj ∈ calls := by
  induction calls using List.reverseRecOn with
  | nil => simp [built]
  | append_singleton calls c ih =>
      rw [built_snoc]
      cases c with
      | addNode k obj =>
          show ((built calls).addNode k obj).HasNode id ↔ _
          rw [hasNode_addNode, ih]
          simp [or_comm, exists_or]
      | addEdge a b k =>
          show ((built calls).addEdge a b k).HasNode id ↔ _
          rw [hasNode_addEdge, ih]
          simp
      | removeEdge a b k =>
          show ((built calls).removeEdge a b k).HasNode id ↔ _
          rw [hasNode_removeEdge, ih]
          simp

/-- An occurrence of `e` without an `r` behind it: the last element, or one before it. -/
theorem exists_split_snoc {α : Type} {xs : List α} {c e r : α} {P : List α → Prop} :
    (∃ as bs, xs ++ [c] = as ++ e :: bs ∧ P as ∧ r ∉ bs) ↔
      (c = e ∧ P xs) ∨ c ≠ r ∧ ∃ as bs, xs = as ++ e :: bs ∧ P as ∧ r ∉ bs := by
  constructor
  · intro h
    obtain ⟨as, bs, heq, hP, hr⟩ := h
    rcases List.eq_nil_or_concat bs with rfl | ⟨bs, d, rfl⟩
    · obtain ⟨rfl, he⟩ := List.append_inj' heq rfl
      cases he
      exact .inl ⟨rfl, hP⟩
    · rw [List.concat_eq_append] at heq hr
      rw [← List.cons_append, ← List.append_assoc] at heq
      obtain ⟨rfl, hd⟩ := List.append_inj' heq rfl
      cases hd
      rw [List.mem_append, not_or] at hr
      exact .inr ⟨fun hc => hr.2 (by simp [hc]), as, bs, rfl, hP, hr.1⟩
  · intro h
    rcases h with ⟨rfl, hP⟩ | ⟨hc, as, bs, rfl, hP, hr⟩
    · exact ⟨xs, [], rfl, hP, List.not_mem_nil⟩
    · refine ⟨as, bs ++ [c], by simp, hP, ?_⟩
      rw [List.mem_append, List.mem_singleton, not_or]
      exact ⟨hr, fun he => hc he.symm⟩

section Edges

variable [Std.TransOrd L] [Std.LawfulEqOrd L]

/-- **An edge** is one that was added between two ids, the first of them a node, and not removed
    since. -/
theorem edgeL_built : (built calls).EdgeL s t l ↔ s ≠ t ∧ ∃ before since,
    calls = before ++ .addEdge s t l :: since ∧ (built before).HasNode s ∧
      .removeEdge s t l ∉ since := by
  induction calls using List.reverseRecOn with
  | nil =>
      refine iff_of_false (fun h => not_edge_empty s t ⟨l, h⟩) fun h => ?_
      obtain ⟨_, before, since, heq, _⟩ := h
      simp at heq
  | append_singleton calls c ih =>
      rw [built_snoc, exists_split_snoc]
      cases c with
      | addNode k obj =>
          show ((built calls).addNode k obj).EdgeL s t l ↔ _
          rw [edgeL_addNode, ih]
          simp
      | addEdge a b k =>
          show ((built calls).addEdge a b k).EdgeL s t l ↔ _
          rw [edgeL_addEdge, ih]
          simp only [GraphCall.addEdge.injEq, ne_eq, reduceCtorEq, not_false_eq_true, true_and]
          constructor
          · intro h
            rcases h with ⟨hne, h⟩ | ⟨hne, hs, rfl, rfl, rfl⟩
            · exact ⟨hne, .inr h⟩
            · exact ⟨hne, .inl ⟨⟨rfl, rfl, rfl⟩, hs⟩⟩
          · intro h
            rcases h with ⟨hne, ⟨⟨rfl, rfl, rfl⟩, hs⟩ | h⟩
            · exact .inr ⟨hne, hs, rfl, rfl, rfl⟩
            · exact .inl ⟨hne, h⟩
      | removeEdge a b k =>
          show ((built calls).removeEdge a b k).EdgeL s t l ↔ _
          rw [edgeL_removeEdge, ih]
          have hsame : (GraphCall.removeEdge a b k : GraphCall T L) = .removeEdge s t l ↔
              s = a ∧ t = b ∧ l = k := by
            rw [GraphCall.removeEdge.injEq, eq_comm, eq_comm (a := b), eq_comm (a := k)]
          simp only [reduceCtorEq, false_and, false_or, ne_eq, hsame]
          exact ⟨fun h => ⟨h.1.1, h.2, h.1.2⟩, fun h => ⟨⟨h.1, h.2.2⟩, h.2.1⟩⟩

/-- Edges end in nodes if every target that is named is added. -/
theorem closed_built (h : ∀ s t l, .addEdge s t l ∈ calls → ∃ obj, .addNode t obj ∈ calls) :
    (built calls).Closed := by
  intro s t he
  obtain ⟨l, he⟩ := he
  obtain ⟨_, before, since, rfl, _⟩ := edgeL_built.mp he
  exact hasNode_built.mpr (h s t l (by simp))

end Edges

/-! ## 3. `DFS` -/

variable [Std.TransOrd L]

/-- **`DFS` returns the reachable nodes**: on every graph that calls build and whose edges end in
    nodes, its loop ends, from every node, with exactly the nodes that the edges reach. -/
theorem dfs_built {v : String} (hclosed : (built calls).Closed) (hv : (built calls).HasNode v) :
    ∃ visited, (built calls).dfs v = .done visited ∧
      Search.Ends (built calls).neighbours ([v], ∅) visited ∧
      ∀ y, y ∈ visited ↔ ReflTransGen (built calls).Edge v y := by
  obtain ⟨visited, hdone⟩ := hclosed.dfs_done hv
  exact ⟨visited, hdone, Search.search_ends hdone, mem_of_dfs hdone⟩

/-- Two labels from "a" to "b", a cycle between them, and an edge to "c" that is taken away. -/
def cycleCalls : List (GraphCall Unit Nat) :=
  [.addNode "a" (), .addEdge "a" "b" 0, .addNode "b" (), .addNode "c" (), .addEdge "a" "b" 1,
    .addEdge "b" "a" 0, .addEdge "b" "c" 0, .removeEdge "b" "c" 0]

/-- The loop from "a" ends, with the nodes that "a" reaches. -/
theorem dfs_built_cycle : ∃ visited, (built cycleCalls).dfs "a" = .done visited ∧
    Search.Ends (built cycleCalls).neighbours (["a"], ∅) visited ∧
    ∀ y, y ∈ visited ↔ ReflTransGen (built cycleCalls).Edge "a" y := by
  refine dfs_built (closed_built fun s t l h => ?_) (hasNode_built.mpr ⟨(), by simp [cycleCalls]⟩)
  simp only [cycleCalls, List.mem_cons, List.not_mem_nil, or_false, reduceCtorEq, false_or,
    GraphCall.addEdge.injEq] at h
  refine ⟨(), ?_⟩
  rcases h with ⟨_, rfl, _⟩ | ⟨_, rfl, _⟩ | ⟨_, rfl, _⟩ | ⟨_, rfl, _⟩ <;> simp [cycleCalls]

end Graph

end Fsracer

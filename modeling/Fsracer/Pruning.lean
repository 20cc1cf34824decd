/-
  File:      Fsracer/Pruning.lean
  Subject:   WHAT PRUNING LEAVES: the calls of `AddEdge`, and the paths of the graph.

  `Added p` is the set of edges that `AddEdge` was called with during the actions `p`, loops and
  calls for an unknown source apart. It is read off the calls alone, so it knows nothing of
  `PruneEdges`. `recorded_iff_added` says that the graph still holds it: an edge that was
  removed has its `before` entry. With Recorded.lean this gives **`path_iff_added`**: while
  `Added p` has no cycle, the edges that are left have exactly its paths.
-/
import Mathlib
import Fsracer.Recorded
import Fsracer.Observed

namespace Fsracer

open Relation

/-! ## 1. The calls of `AddEdge` -/

/-- The edges between two ids that `AddEdge` was called with while the source was a node. An
    action enters its node before it calls `AddEdge`, so the nodes are those it leaves. -/
def Added (p : List Action) (s t : String) : Prop :=
  ∃ q a l, q ++ [a] <+: p ∧ (s, t, l) ∈ edgeCalls (run q) a ∧ s ≠ t ∧
    (run (q ++ [a])).st.depGraph.HasNode s

theorem added_append_singleton {p : List Action} {a : Action} {s t : String} :
    Added (p ++ [a]) s t ↔ Added p s t ∨
      s ≠ t ∧ (run (p ++ [a])).st.depGraph.HasNode s ∧ ∃ l, (s, t, l) ∈ edgeCalls (run p) a := by
  refine ⟨fun h => ?_, fun h => ?_⟩
  · obtain ⟨q, x, l, hq, hc, hne, hs⟩ := h
    rcases snoc_prefix_snoc.mp hq with hq | ⟨rfl, rfl⟩
    · exact .inl ⟨q, x, l, hq, hc, hne, hs⟩
    · exact .inr ⟨hne, hs, l, hc⟩
  · rcases h with ⟨q, x, l, hq, hc, hne, hs⟩ | ⟨hne, hs, l, hc⟩
    · exact ⟨q, x, l, hq.trans (List.prefix_append _ _), hc, hne, hs⟩
    · exact ⟨p, a, l, List.prefix_refl _, hc, hne, hs⟩

theorem added_mono {p q : List Action} (h : p <+: q) {s t : String} (ha : Added p s t) :
    Added q s t := by
  obtain ⟨r, a, l, hr, hc⟩ := ha
  exact ⟨r, a, l, hr.trans h, hc⟩

/-! ## 2. The graph holds every call -/

/-- **What the graph records is what `AddEdge` was called with.** -/
theorem recorded_iff_added (p : List Action) {s t : String} :
    Recorded (run p).st.depGraph s t ↔ Added p s t := by
  induction p using List.reverseRecOn with
  | nil =>
      refine iff_of_false (fun h => ?_) fun ⟨q, a, _, hq, _⟩ => by simp at hq
      rcases h with h | h
      · exact Graph.not_edge_empty s t h
      · simp [Graph.Before, Machine.start, DepState.init] at h
  | append_singleton p a ih =>
      rw [added_append_singleton, run_append_singleton, recorded_step_iff (consistent_run p), ih]

/-! ## 3. The paths that are left -/

/-- While the calls so far form no cycle, the edges that are left have their paths. -/
theorem path_iff_added {p : List Action} (hacyc : Reach.Acyclic (Added p)) {s t : String} :
    (run p).st.depGraph.Path s t ↔ TransGen (Added p) s t := by
  have hsame : ∀ x y, Recorded (run p).st.depGraph x y ↔ Added p x y :=
    fun _ _ => recorded_iff_added p
  rw [recorded_path_iff p (hacyc.mono fun x y => (hsame x y).mp)]
  exact ⟨Reach.path_mono fun x y => (hsame x y).mp, Reach.path_mono fun x y => (hsame x y).mpr⟩

/-- **Pruning preserves happens-before.** If no cycle was added during a trace, then at every
    moment of its analysis the paths are those of the edges added so far. -/
theorem pruning_keeps_order (t : Trace) (hacyc : Reach.Acyclic (Added t.actions))
    {p : List Action} (hp : p <+: t.actions) (x y : String) :
    (run p).st.depGraph.Path x y ↔ TransGen (Added p) x y :=
  path_iff_added (hacyc.mono fun _ _ => added_mono hp)

/-- The timer leads to the read and to the event it creates. The first edge is pruned when the
    created event runs; the path is still there. -/
theorem pruning_keeps_order_timerAndRead :
    ((run timerAndRead.actions).st.depGraph.getNodeInfo "2").map
        (fun n => n.dependents.toList.map Prod.fst) = some ["4"] ∧
      (run timerAndRead.actions).st.depGraph.Path "2" "3" := by
  have hacyc : Reach.Acyclic (Added timerAndRead.actions) :=
    ((ranked_of_observed observed_timerAndRead (List.prefix_refl _)).acyclic).mono
      fun _ _ h => (recorded_iff_added _).mpr h
  have hb : ((run timerAndRead.actions).st.depGraph.getNodeInfo "2").any
      (fun n => decide ("3" ∈ n.before)) = true := by decide +kernel
  obtain ⟨n, hn, hb⟩ := (Option.any_eq_true _ _).mp hb
  refine ⟨by decide +kernel, ?_⟩
  exact (pruning_keeps_order timerAndRead hacyc (List.prefix_refl _) "2" "3").mpr
    (.single ((recorded_iff_added _).mp (.inr ⟨n, hn, of_decide_eq_true hb⟩)))

end Fsracer

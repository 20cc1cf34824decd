/-
  File:      Fsracer/Recorded.lean
  Subject:   THE RECORDED ORDER: what `AddEdge` was told, and what is left of it after pruning.

  `AddEdge` writes an edge three times: into `dependents` of the source, `before` of the source
  and `after` of the target. `RemoveEdge` deletes the first entry only, so `Edge ∨ Before` is
  the order that was recorded so far, and it never shrinks (`recorded_mono`).

  **`recorded_path`**: as long as the recorded order is acyclic, `PruneEdges` cuts no path --
  every recorded pair is joined by edges that are left. The induction runs over the primitive
  steps of the graph; the invariant is that every `before` entry is a path.
-/
import Mathlib
import Fsracer.Run
import Fsracer.Lib.Reach

namespace Fsracer

open Relation

/-! ## 1. What the three entries of an edge have to do with each other -/

/-- The order that was recorded. -/
def Recorded (g : DepGraph) (s t : String) : Prop := g.Edge s t ∨ g.Before s t

/-- `before` and `after` mirror each other, join two nodes, and no edge is a loop. -/
structure Consistent (g : DepGraph) : Prop where
  mirrored : ∀ s t, g.After t s ↔ g.Before s t
  before_node : ∀ s t, g.Before s t → g.HasNode s ∧ g.HasNode t
  ne : ∀ s t, Recorded g s t → s ≠ t

theorem consistent_empty : Consistent .empty where
  mirrored s t := by simp [Graph.After, Graph.Before]
  before_node s t h := by simp [Graph.Before] at h
  ne s t h := by simp [Recorded, Graph.Before] at h

theorem Consistent.step {g g' : DepGraph} (hs : GraphStep g g') (h : Consistent g) :
    Consistent g' := by
  cases hs with
  | addNode id obj =>
      refine ⟨fun s t => ?_, fun s t hb => ?_, fun s t hr => h.ne s t ?_⟩
      · rw [Graph.after_addNode, Graph.before_addNode]
        exact h.mirrored s t
      · rw [Graph.before_addNode] at hb
        rw [Graph.hasNode_addNode, Graph.hasNode_addNode]
        exact ⟨.inr (h.before_node s t hb).1, .inr (h.before_node s t hb).2⟩
      · simpa [Recorded] using hr
  | addEdge s' t' l =>
      refine ⟨fun s t => ?_, fun s t hb => ?_, fun s t hr => ?_⟩
      · rw [Graph.after_addEdge, Graph.before_addEdge, h.mirrored]
      · rw [Graph.before_addEdge] at hb
        rw [Graph.hasNode_addEdge, Graph.hasNode_addEdge]
        rcases hb with hb | ⟨_, hs, ht, rfl, rfl⟩
        · exact h.before_node s t hb
        · exact ⟨hs, ht⟩
      · rcases hr with hr | hr
        · rcases Graph.edge_addEdge.mp hr with hr | ⟨hne, _, rfl, rfl⟩
          · exact h.ne s t (.inl hr)
          · exact hne
        · rcases Graph.before_addEdge.mp hr with hr | ⟨hne, _, _, rfl, rfl⟩
          · exact h.ne s t (.inr hr)
          · exact hne
  | addNodeAttr id attr =>
      refine ⟨fun s t => ?_, fun s t hb => ?_, fun s t hr => h.ne s t ?_⟩
      · rw [Graph.after_addNodeAttr, Graph.before_addNodeAttr]
        exact h.mirrored s t
      · rw [Graph.before_addNodeAttr] at hb
        rw [Graph.hasNode_addNodeAttr, Graph.hasNode_addNodeAttr]
        exact h.before_node s t hb
      · simpa [Recorded] using hr
  | prune id =>
      obtain ⟨hf, he⟩ := pruneEdges_spec g id
      refine ⟨fun s t => ?_, fun s t hb => ?_, fun s t hr => h.ne s t ?_⟩
      · rw [hf.after, hf.before]
        exact h.mirrored s t
      · rw [hf.before] at hb
        rw [hf.hasNode, hf.hasNode]
        exact h.before_node s t hb
      · rcases hr with ⟨l, hr⟩ | hr
        · exact .inl ⟨l, ((he s t l).mp hr).1⟩
        · exact .inr ((hf.before s t).mp hr)

theorem consistent_run (p : List Action) : Consistent (run p).st.depGraph :=
  run_induction consistent_empty (fun _ _ hs h => h.step hs) p

/-! ## 2. The record grows -/

/-- A step keeps every recorded pair: an edge that is pruned has its `before` entry. -/
theorem recorded_step {g g' : DepGraph} (hs : GraphStep g g') (h : Consistent g) {s t : String}
    (hr : Recorded g s t) : Recorded g' s t := by
  cases hs with
  | addNode id obj => simpa [Recorded] using hr
  | addNodeAttr id attr => simpa [Recorded] using hr
  | addEdge s' t' l =>
      exact hr.imp (fun h => Graph.edge_addEdge.mpr (.inl h))
        fun h => Graph.before_addEdge.mpr (.inl h)
  | prune id =>
      obtain ⟨hf, he⟩ := pruneEdges_spec g id
      rcases hr with ⟨l, hr⟩ | hr
      · by_cases hp : l = .happensBefore ∧ g.Before id t ∧ g.After id s ∧ g.After t s
        · obtain ⟨_, _, _, ha⟩ := hp
          exact .inr ((hf.before s t).mpr ((h.mirrored s t).mp ha))
        · exact .inl ⟨l, (he s t l).mpr ⟨hr, hp⟩⟩
      · exact .inr ((hf.before s t).mpr hr)

theorem recorded_steps {g g' : DepGraph} (hs : GraphSteps g g') (h : Consistent g) :
    Consistent g' ∧ ∀ s t, Recorded g s t → Recorded g' s t := by
  induction hs with
  | refl => exact ⟨h, fun _ _ hr => hr⟩
  | tail _ hs ih => exact ⟨ih.1.step hs, fun s t hr => recorded_step hs ih.1 (ih.2 s t hr)⟩

/-- **What was recorded stays recorded.** -/
theorem recorded_mono (p q : List Action) {s t : String}
    (h : Recorded (run p).st.depGraph s t) : Recorded (run (p ++ q)).st.depGraph s t :=
  (recorded_steps (graphSteps_run p q) (consistent_run p)).2 s t h

theorem recorded_addNode {g : DepGraph} {id s t : String} {obj : Event} :
    Recorded (g.addNode id obj) s t ↔ Recorded g s t := by simp [Recorded]

theorem recorded_addNodeAttr {g : DepGraph} {id attr s t : String} :
    Recorded (g.addNodeAttr id attr) s t ↔ Recorded g s t := by simp [Recorded]

theorem recorded_addEdges {g : DepGraph} {calls : List (String × String × EdgeLabel)}
    {s t : String} : Recorded (g.addEdges calls) s t ↔
      Recorded g s t ∨ s ≠ t ∧ g.HasNode s ∧ ∃ l, (s, t, l) ∈ calls := by
  unfold Recorded
  rw [Graph.edge_addEdges, Graph.before_addEdges]
  refine ⟨fun h => ?_, fun h => ?_⟩
  · rcases h with (h | h) | (h | ⟨hne, hs, _, h⟩)
    · exact .inl (.inl h)
    · exact .inr h
    · exact .inl (.inr h)
    · exact .inr ⟨hne, hs, h⟩
  · rcases h with (h | h) | h
    · exact .inl (.inl h)
    · exact .inr (.inl h)
    · exact .inl (.inr h)

theorem recorded_pruneEdges {g : DepGraph} {id s t : String} (h : Recorded (pruneEdges g id) s t) :
    Recorded g s t := by
  obtain ⟨hf, he⟩ := pruneEdges_spec g id
  rcases h with ⟨l, h⟩ | h
  · exact .inl ⟨l, ((he s t l).mp h).1⟩
  · exact .inr ((hf.before s t).mp h)

/-- **One action**: the record grows by the calls the action makes. -/
theorem recorded_step_iff {m : Machine} (hc : Consistent m.st.depGraph) (a : Action)
    {s t : String} : Recorded (m.step a).st.depGraph s t ↔ Recorded m.st.depGraph s t ∨
      s ≠ t ∧ (m.step a).st.depGraph.HasNode s ∧ ∃ l, (s, t, l) ∈ edgeCalls m a := by
  rcases step_graph m a with h | ⟨id, obj, h⟩ | ⟨id, h⟩ | ⟨hno, id, attr, h⟩ <;> rw [h]
  · rw [recorded_addEdges, Graph.hasNode_addEdges]
  · rw [recorded_addEdges, recorded_addNode, Graph.hasNode_addEdges]
  · -- `PruneEdges` keeps the record and the nodes, the calls come before it
    have hw : Consistent (m.st.depGraph.addEdges (edgeCalls m a)) :=
      (recorded_steps (graphSteps_addEdges _ _) hc).1
    have hprune : Recorded (pruneEdges (m.st.depGraph.addEdges (edgeCalls m a)) id) s t ↔
        Recorded (m.st.depGraph.addEdges (edgeCalls m a)) s t :=
      ⟨recorded_pruneEdges, recorded_step (.prune _ id) hw⟩
    rw [hprune, (pruneEdges_spec _ _).1.hasNode, recorded_addEdges, Graph.hasNode_addEdges]
  · rw [recorded_addNodeAttr, hno]
    simp

/-! ## 3. Pruning cuts no path -/

/-- In an acyclic record `PruneEdges` keeps the paths, if every `before` entry is a path. -/
theorem path_pruneEdges_iff {g : DepGraph} (h : Consistent g)
    (hacyc : Reach.Acyclic (Recorded g)) (hpath : ∀ s t, g.Before s t → g.Path s t)
    (id : String) {x y : String} : (pruneEdges g id).Path x y ↔ g.Path x y := by
  obtain ⟨_, he⟩ := pruneEdges_spec g id
  let R : String → String → Prop := fun p n => g.Before id n ∧ g.After id p
  have hE : Reach.Acyclic g.Edge := hacyc.mono fun _ _ e => .inl e
  have hR : ∀ p n, R p n → g.Path p id ∧ g.Path id n := fun p n hr =>
    ⟨hpath p id ((h.mirrored p id).mp hr.2), hpath id n hr.1⟩
  refine ⟨Reach.path_mono fun s t ⟨l, e⟩ => ⟨l, ((he s t l).mp e).1⟩, fun hp => ?_⟩
  have hkeep : ∀ s t, g.Edge s t ∧ ¬ R s t → (pruneEdges g id).Edge s t := by
    intro s t ⟨⟨l, e⟩, hr⟩
    exact ⟨l, (he s t l).mpr ⟨e, fun ⟨_, hb, ha, _⟩ => hr ⟨hb, ha⟩⟩⟩
  exact Reach.path_mono hkeep ((Reach.path_prune_iff hE hR).mpr hp)

/-- A step keeps the invariant "every `before` entry is a path", if the record stays acyclic. -/
theorem before_path_step {g g' : DepGraph} (hs : GraphStep g g') (h : Consistent g)
    (hacyc : Reach.Acyclic (Recorded g')) (hpath : ∀ s t, g.Before s t → g.Path s t) :
    ∀ s t, g'.Before s t → g'.Path s t := by
  intro s t hb
  cases hs with
  | addNode id obj =>
      exact Reach.path_mono (fun _ _ => Graph.edge_addNode.mpr) (hpath s t (by simpa using hb))
  | addNodeAttr id attr =>
      exact Reach.path_mono (fun _ _ => Graph.edge_addNodeAttr.mpr) (hpath s t (by simpa using hb))
  | addEdge s' t' l =>
      rcases Graph.before_addEdge.mp hb with hb | ⟨hne, hs, _, rfl, rfl⟩
      · exact Reach.path_mono (fun _ _ e => Graph.edge_addEdge.mpr (.inl e)) (hpath s t hb)
      · exact .single (Graph.edge_addEdge.mpr (.inr ⟨hne, hs, rfl, rfl⟩))
  | prune id =>
      have hacyc' : Reach.Acyclic (Recorded g) :=
        hacyc.mono fun _ _ hr => recorded_step (.prune g id) h hr
      rw [path_pruneEdges_iff h hacyc' hpath]
      exact hpath s t (((pruneEdges_spec g id).1.before s t).mp hb)

/-- **Every recorded pair is a path**, in a graph whose record is acyclic. -/
theorem recorded_path (p : List Action) (hacyc : Reach.Acyclic (Recorded (run p).st.depGraph))
    {s t : String} (h : Recorded (run p).st.depGraph s t) : (run p).st.depGraph.Path s t := by
  have hbuilt : ∀ g, GraphSteps .empty g → Reach.Acyclic (Recorded g) →
      Consistent g ∧ ∀ s t, g.Before s t → g.Path s t := by
    intro g hg
    induction hg with
    | refl => exact fun _ => ⟨consistent_empty, fun s t hb => by simp [Graph.Before] at hb⟩
    | tail _ hs ih =>
        intro hacyc
        have hc := (recorded_steps ‹_› consistent_empty).1
        have hold := ih (hacyc.mono fun _ _ hr => recorded_step hs hc hr)
        exact ⟨hc.step hs, before_path_step hs hc hacyc hold.2⟩
  rcases h with h | h
  · exact .single h
  · exact (hbuilt _ (graphSteps_run [] p) hacyc).2 s t h

/-- So the edges that are left have the paths of the record. -/
theorem recorded_path_iff (p : List Action)
    (hacyc : Reach.Acyclic (Recorded (run p).st.depGraph)) {s t : String} :
    (run p).st.depGraph.Path s t ↔ TransGen (Recorded (run p).st.depGraph) s t := by
  refine ⟨Reach.path_mono fun _ _ e => .inl e, fun h => ?_⟩
  induction h with
  | single hr => exact recorded_path p hacyc hr
  | tail _ hr ih => exact ih.trans (recorded_path p hacyc hr)

end Fsracer

/-
  File:      Fsracer/Print.lean
  Subject:   THE PRINTED GRAPH: `PrintGraph` in CSV format, against the graph the detector reads.

  The printer writes the edges between executed nodes; `DFS` follows every edge. So the printed
  list has the paths that stay among executed events (`printed_iff`). The two readers differ on
  paths through events that were never executed, and on observed traces there are none.
-/
import Mathlib
import Fsracer.Observed

namespace Fsracer

open Relation

/-! ## 1. The printer -/

/-- `HasAttribute(EXECUTED_ATTR)`. -/
def isExecuted (info : EventInfo) : Bool := decide (executedAttr ∈ info.attributes)

/-- `IgnoreEdge`. -/
def ignoreEdge (source target : EventInfo) : Bool := !isExecuted source || !isExecuted target

/-- `PrintEdgeCSV`; the empty string stands for an edge that is not printed. -/
def printEdgeCSV (source target : EventInfo) : String :=
  if ignoreEdge source target then "" else source.nodeId ++ "," ++ target.nodeId

/-- `PrintEdgeLabel`. -/
def printEdgeLabel : EdgeLabel → String
  | .creates => "creates"
  | .happensBefore => "before"

/-- The order of `tuple<NodeInfo, NodeInfo, L>`: nodes are compared by their ids. -/
def csvCmp : String × String × EdgeLabel → String × String × EdgeLabel → Ordering :=
  compareLex (compareOn (·.1)) (compareLex (compareOn (·.2.1)) (compareOn (·.2.2)))

instance : Std.TransCmp csvCmp :=
  inferInstanceAs (Std.TransCmp (compareLex _ (compareLex _ _)))

instance : Std.LawfulEqCmp csvCmp where
  compare_self {p} := by simp [csvCmp, compareLex, compareOn, Std.ReflCmp.compare_self]
  eq_of_compare {p q} h := by
    obtain ⟨h1, h⟩ := Ordering.then_eq_eq.mp h
    obtain ⟨h2, h3⟩ := Ordering.then_eq_eq.mp h
    exact Prod.ext (Std.LawfulEqCmp.eq_of_compare h1)
      (Prod.ext (Std.LawfulEqCmp.eq_of_compare h2) (Std.LawfulEqCmp.eq_of_compare h3))

/-- The set `edges` of `PrintCSV`. A graph has one node of an id, so the tuples hold the ids. -/
def csvEdges (g : DepGraph) : Std.TreeSet (String × String × EdgeLabel) csvCmp :=
  g.nodes.foldl (fun edges _ nodeInfo =>
    nodeInfo.dependents.foldl (fun edges dependent =>
      match g.getNodeInfo dependent.1 with
      | none => edges
      | some _ => edges.insert (nodeInfo.nodeId, dependent.1, dependent.2)) edges) ∅

/-- `PrintEdgeCSV` of the nodes of an edge. -/
def edgeStr (g : DepGraph) (edge : String × String × EdgeLabel) : String :=
  match g.getNodeInfo edge.1, g.getNodeInfo edge.2.1 with
  | some source, some target => printEdgeCSV source target
  | _, _ => ""

/-- The edges for which `PrintCSV` writes a row, in the order of the rows (`printGraphCSV`). -/
def csvRows (g : DepGraph) : List (String × String × EdgeLabel) :=
  (csvEdges g).toList.filter fun edge => edgeStr g edge ≠ ""

/-! ## 2. The rows -/

theorem mem_csvEdges {g : DepGraph} {s t : String} {l : EdgeLabel} :
    (s, t, l) ∈ csvEdges g ↔ g.EdgeL s t l ∧ g.HasNode t := by
  unfold csvEdges
  rw [Std.TreeMap.foldl_eq_foldl_toList]
  refine (Ordered.foldl_iff (Q := fun edges => (s, t, l) ∈ edges)
    (P := fun p => (s = p.2.nodeId ∧ (t, l) ∈ p.2.dependents) ∧ g.HasNode t)
    (fun edges p => ?_) _ _).trans ?_
  · rw [Std.TreeSet.foldl_eq_foldl_toList]
    refine (Ordered.foldl_iff (Q := fun edges => (s, t, l) ∈ edges)
      (P := fun d => (s, t, l) = (p.2.nodeId, d.1, d.2) ∧ g.HasNode d.1)
      (fun edges d => ?_) _ _).trans (or_congr_right ?_)
    · -- an edge to a node that is not there is left out
      cases hd : g.getNodeInfo d.1 with
      | none => simp [Graph.HasNode, hd]
      | some n =>
          have hnode : g.HasNode d.1 := Graph.hasNode_of_some hd
          dsimp only
          rw [Ordered.mem_insert_iff, or_comm, eq_comm, and_iff_left hnode]
    · constructor
      · intro h
        obtain ⟨d, hd, he, hnode⟩ := h
        cases he
        exact ⟨⟨rfl, Std.TreeSet.mem_toList.mp hd⟩, hnode⟩
      · intro h
        obtain ⟨⟨hs, hd⟩, hnode⟩ := h
        exact ⟨(t, l), Std.TreeSet.mem_toList.mpr hd, by rw [hs], hnode⟩
  · rw [or_iff_right (by simp)]
    constructor
    · intro h
      obtain ⟨p, hp, ⟨hs, hd⟩, hnode⟩ := h
      have hp' : g.getNodeInfo p.1 = some p.2 :=
        Std.TreeMap.mem_toList_iff_getElem?_eq_some.mp hp
      refine ⟨⟨p.2, ?_, hd⟩, hnode⟩
      rw [hs, Graph.nodeId_of_getNodeInfo hp']
      exact hp'
    · intro h
      obtain ⟨⟨n, hn, hd⟩, hnode⟩ := h
      exact ⟨(s, n), Std.TreeMap.mem_toList_iff_getElem?_eq_some.mpr hn,
        ⟨(Graph.nodeId_of_getNodeInfo hn).symm, hd⟩, hnode⟩

theorem isExecuted_iff {g : DepGraph} {x : String} {info : EventInfo}
    (h : g.getNodeInfo x = some info) : isExecuted info = true ↔ g.HasAttr x executedAttr := by
  simp [isExecuted, Graph.HasAttr, h]

/-- **A row stands for an edge between executed nodes.** -/
theorem mem_csvRows {g : DepGraph} {s t : String} {l : EdgeLabel} :
    (s, t, l) ∈ csvRows g ↔
      g.EdgeL s t l ∧ g.HasAttr s executedAttr ∧ g.HasAttr t executedAttr := by
  unfold csvRows
  rw [List.mem_filter, Std.TreeSet.mem_toList, mem_csvEdges, and_assoc]
  refine and_congr_right fun he => ?_
  obtain ⟨n, hn, _⟩ := he
  cases ht : g.getNodeInfo t with
  | none => simp [Graph.HasNode, Graph.HasAttr, ht]
  | some m =>
      have hnode : g.HasNode t := Graph.hasNode_of_some ht
      have hcomma : n.nodeId ++ "," ++ m.nodeId ≠ "" := by
        intro h
        have := congrArg String.length h
        simp at this
      rw [← isExecuted_iff hn, ← isExecuted_iff ht]
      cases h1 : isExecuted n <;> cases h2 : isExecuted m <;>
        simp [edgeStr, hn, ht, printEdgeCSV, ignoreEdge, h1, h2, hnode, hcomma]

/-! ## 3. Reachability in the printed list -/

/-- `b` is reached from `a` along printed rows. -/
def PrintedReach (g : DepGraph) : String → String → Prop :=
  ReflTransGen fun s t => ∃ l, (s, t, l) ∈ csvRows g

/-- `b` is reached from `a` along edges between executed events. -/
def ExecutedReach (h : History) (g : DepGraph) : String → String → Prop :=
  ReflTransGen fun s t => g.Edge s t ∧ s ∈ h.executed ∧ t ∈ h.executed

/-- **The printed graph explains the verdicts.** -/
def PrintedExplains (t : Trace) : Prop :=
  ∀ a b, a ∈ (history t.actions).executed → b ∈ (history t.actions).executed →
    (PrintedReach (dependencyGraph t) a b ↔ ReflTransGen (dependencyGraph t).Edge a b)

theorem printedReach_iff (t : Trace) {a b : String} : PrintedReach (dependencyGraph t) a b ↔
    ExecutedReach (history t.actions) (dependencyGraph t) a b := by
  have hattr := (agrees_run (List.prefix_refl t.actions)).attr
  have hstep : (fun s t' => ∃ l, (s, t', l) ∈ csvRows (dependencyGraph t)) = fun s t' =>
      (dependencyGraph t).Edge s t' ∧ s ∈ (history t.actions).executed ∧
        t' ∈ (history t.actions).executed := by
    funext s t'
    rw [dependencyGraph, inferTrace_eq_run]
    simp only [mem_csvRows, hattr, Graph.Edge, exists_and_right]
  unfold PrintedReach ExecutedReach
  rw [hstep]

/-- A path that ends in an executed event stays among executed events, if no other event leads to
    one. -/
theorem executedReach_of_reach {h : History} {g : DepGraph}
    (hback : ∀ s t, g.Edge s t → t ∈ h.executed → s ∈ h.executed) {a b : String}
    (hb : b ∈ h.executed) (hp : ReflTransGen g.Edge a b) : ExecutedReach h g a b := by
  induction hp with
  | refl => exact .refl
  | tail _ e ih => exact (ih (hback _ _ e hb)).tail ⟨e, hback _ _ e hb, hb⟩

/-! ### Observed traces -/

theorem openBlock_actions (t : Trace) : openBlock t.actions = none := by
  unfold Trace.actions
  rcases List.eq_nil_or_concat t.blocks with h | ⟨bs, b, h⟩ <;> rw [h]
  · rfl
  · rw [List.concat_eq_append, List.flatMap_append, List.flatMap_singleton, Block.actions,
      ← List.cons_append, ← List.append_assoc, openBlock_append_singleton]

/-- What was entered was executed, or is being executed. -/
theorem entered_executed {t : Trace} {p : List Action} (hp : p <+: t.actions) {x : String}
    (hx : x ∈ (history p).entered) :
    x ∈ (history p).executed ∨ (history p).current = some x := by
  induction p using List.reverseRecOn with
  | nil => cases hx
  | append_singleton p a ih =>
      have hpre : p <+: t.actions := (List.prefix_append p _).trans hp
      rw [history_append_singleton] at hx ⊢
      cases a with
      | expr e =>
          obtain ⟨h1, h2, h3⟩ := (history p).step_expr e
          rw [h2] at hx
          rw [h1, h3]
          exact ih hpre hx
      | enter b =>
          have hnone := current_before_enter hp
          by_cases hr : (history p).Reads b
          · rw [History.step_enter hr] at hx ⊢
            rcases List.mem_append.mp hx with hx | hx
            · refine .inl ((ih hpre hx).resolve_right fun h => ?_)
              rw [hnone] at h
              cases h
            · exact .inr (congrArg some (List.mem_singleton.mp hx).symm)
          · rw [History.step_enter_skip hr] at hx ⊢
            refine .inl ((ih hpre hx).resolve_right fun h => ?_)
            rw [hnone] at h
            cases h
      | leave b =>
          cases hc : (history p).current with
          | none =>
              rw [History.step_leave_skip hc] at hx ⊢
              exact ih hpre hx
          | some c =>
              obtain ⟨_, b', hb', hid⟩ := current_eq_some hc
              have hb : c = b.getPrettyBlockId := by
                obtain ⟨_, _, ⟨h, _⟩ | ⟨h | ⟨_, _, h⟩, ho⟩⟩ := action_cases hp
                · cases h
                · cases h
                  rw [hb'] at ho
                  cases ho
                  exact hid.symm
                · cases h
              rw [History.step_leave hc] at hx ⊢
              left
              rcases ih hpre hx with h | h
              · exact List.mem_append_left _ h
              · rw [hc] at h
                cases h
                simp [hb]

/-- On an observed trace nothing that was not executed leads to an executed event. -/
theorem executed_of_edge {t : Trace} (ht : ObservedOrder t) {s x : String}
    (he : (dependencyGraph t).Edge s x) (hx : x ∈ (history t.actions).executed) :
    s ∈ (history t.actions).executed := by
  have hr := ranked_of_observed ht (List.prefix_refl t.actions)
  rw [dependencyGraph, inferTrace_eq_run] at he
  have hs : s ∈ (history t.actions).entered := by
    by_contra hs
    exact not_rank_lt_of_waiting hs (hr.executed x hx) (hr.increasing s x (.inl he))
  refine (entered_executed (List.prefix_refl _) hs).resolve_right fun hc => ?_
  obtain ⟨_, b, hb, _⟩ := current_eq_some hc
  rw [openBlock_actions] at hb
  cases hb

/-- **What the printed list shows**: the paths through executed events, hence only orders that
    the detector uses; and all of them where no other event leads to an executed one, as on every
    observed trace. -/
theorem printed_iff (t : Trace) {a b : String} (hb : b ∈ (history t.actions).executed) :
    (PrintedReach (dependencyGraph t) a b ↔
      ExecutedReach (history t.actions) (dependencyGraph t) a b) ∧
    (PrintedReach (dependencyGraph t) a b → ReflTransGen (dependencyGraph t).Edge a b) ∧
    (((∀ s x, (dependencyGraph t).Edge s x → x ∈ (history t.actions).executed →
        s ∈ (history t.actions).executed) ∨ ObservedOrder t) →
      (PrintedReach (dependencyGraph t) a b ↔ ReflTransGen (dependencyGraph t).Edge a b)) := by
  have hsound : PrintedReach (dependencyGraph t) a b → ReflTransGen (dependencyGraph t).Edge a b := by
    intro h
    exact ReflTransGen.mono (fun _ _ h => h.1) _ _ ((printedReach_iff t).mp h)
  refine ⟨printedReach_iff t, hsound, fun hcase => ⟨hsound, fun h => (printedReach_iff t).mpr ?_⟩⟩
  rcases hcase with hback | ht
  · exact executedReach_of_reach hback hb h
  · exact executedReach_of_reach (fun s x he hx => executed_of_edge ht he hx) hb h

/-- Two reads; the callback of the first one leaves a tick behind that never runs. -/
def unexecutedTick : Trace where
  threadId := 1
  cwd := "/"
  execOps := []
  blocks := [
    ⟨1, .MAIN, [.newEvent ⟨4, ⟨.EXT, 0⟩, []⟩, .newEvent ⟨5, ⟨.EXT, 0⟩, []⟩]⟩,
    ⟨4, .REG, [.newEvent ⟨6, ⟨.S, 0⟩, []⟩]⟩,
    ⟨5, .REG, []⟩]

/-- The detector orders the two reads through the tick; the printed list has no row of the
    first one. -/
theorem printed_fails : ¬ PrintedExplains unexecutedTick := by
  intro h
  have hreach : ReflTransGen (dependencyGraph unexecutedTick).Edge "4" "5" :=
    (Graph.hasPath_eq_some (by decide +kernel)).mp rfl
  have hprinted := (h "4" "5" (by decide) (by decide)).mpr hreach
  have hrows : ∀ r ∈ csvRows (dependencyGraph unexecutedTick), r.1 ≠ "4" := by decide +kernel
  rcases ReflTransGen.cases_head hprinted with h45 | ⟨x, ⟨l, hl⟩, _⟩
  · exact absurd h45 (by decide)
  · exact hrows _ hl rfl

/-- On the example of an observed trace the two readings agree. -/
theorem printed_iff_timerAndRead : PrintedReach (dependencyGraph timerAndRead) "4" "3" :=
  ((printed_iff timerAndRead (by decide)).2.2 (.inr observed_timerAndRead)).mpr
    ((Graph.hasPath_eq_some (by decide +kernel)).mp rfl)

end Fsracer

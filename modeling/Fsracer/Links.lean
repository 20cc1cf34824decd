/-
  File:      Fsracer/Links.lean
  Subject:   EDGES INTO NOTHING: when every edge of the dependency graph ends in a node.

  `AddEdge` inserts an edge into `dependents` before it looks the target up. All its callers but
  one pass a target that is a node; `AnalyzeLink` passes any number that the trace holds. So the
  graph is closed iff every link that adds an edge names an event that the trace creates in a
  block that is read (`closed_dependencyGraph_iff`).
-/
import Mathlib
import Fsracer.History
import Fsracer.Recorded

namespace Fsracer

/-! ## 1. Links that add an edge -/

/-- What an action makes of the current context. -/
def contextStep (c : String) : Action → String
  | .enter b => if b.isEmptyMain then c else b.getPrettyBlockId
  | .expr (.trigger e) => String.singleton (Char.ofNat (e.eventId % 256))
  | _ => c

/-- The current context: the block that began last, or what its last `trigger` made of it. -/
def context (p : List Action) : String := p.foldl contextStep "MAIN_1"

@[simp] theorem context_append_singleton (p : List Action) (a : Action) :
    context (p ++ [a]) = contextStep (context p) a := by simp [context]

/-- While a block is read, `current_context` is the context. -/
theorem currentContext_run {p : List Action} (hr : (run p).reading = true) :
    (run p).st.currentContext = context p := by
  induction p using List.reverseRecOn with
  | nil => rfl
  | append_singleton p a ih =>
      rw [run_append_singleton] at hr ⊢
      rw [context_append_singleton]
      cases a with
      | leave b =>
          cases hp : (run p).reading with
          | false => simp [Machine.step, hp] at hr
          | true => simp [Machine.step, hp] at hr
      | expr e =>
          cases hp : (run p).reading with
          | false => simp [Machine.step, hp] at hr
          | true =>
              simp only [Machine.step, hp, if_true]
              cases e with
              | submitOp e => exact ih hp
              | newEvent e => exact ih hp
              | trigger e => rfl
              | link e =>
                  refine Eq.trans ?_ (ih hp)
                  show (analyzeLink (run p).st e).currentContext = (run p).st.currentContext
                  rw [analyzeLink_eq]
      | enter b =>
          have hr : (enterBlock (run p).st b).2 = true := hr
          show (enterBlock (run p).st b).1.currentContext = _
          rcases enterBlock_cases (run p).st b with ⟨_, h⟩ | ⟨he, _, h⟩ | ⟨_, _, h⟩ | ⟨hm, _, _, h⟩
          · rw [h] at hr
            exact absurd hr Bool.false_ne_true
          · simp only [h, contextStep, he]
            rfl
          · rw [h] at hr
            exact absurd hr Bool.false_ne_true
          · have he : b.isEmptyMain = false := by simp [Block.isEmptyMain, hm]
            simp only [h, contextStep, he]
            rfl

/-- The link `e` after the actions `p` adds an edge: it is analysed, its source is a node other
    than its target, the running block and the current context. -/
structure AddsEdge (t : Trace) (p : List Action) (e : LinkExpr) : Prop where
  reached : p ++ [.expr (.link e)] <+: t.actions
  notBlock : ∃ c, (history p).current = some c ∧ toString e.sourceEv ≠ c
  notContext : toString e.sourceEv ≠ context p
  notTarget : e.sourceEv ≠ e.targetEv
  source : (history p).Known (toString e.sourceEv)

/-- Every such link names an event that the trace creates in a block that is read. -/
def LinksResolved (t : Trace) : Prop :=
  ∀ p e, AddsEdge t p e → (history t.actions).Known (toString e.targetEv)

/-- Every such link among the actions `p` names an event that they create. -/
def LinksResolvedBy (t : Trace) (p : List Action) : Prop :=
  ∀ q e, q ++ [.expr (.link e)] <+: p → AddsEdge t q e →
    (history p).Known (toString e.targetEv)

theorem linksResolvedBy_actions (t : Trace) : LinksResolvedBy t t.actions ↔ LinksResolved t :=
  ⟨fun h q e ha => h q e ha.reached ha, fun h q e _ ha => h q e ha⟩

/-! ## 2. Where edges end -/

theorem mem_dependencyCalls_known {h : History} {g : DepGraph} (hg : ∀ k, g.HasNode k → h.Known k)
    {blockId eventId a s x : String} {event : Event} {l : EdgeLabel} (hid : h.Known eventId)
    (hc : (s, x, l) ∈ dependencyCalls g blockId eventId event a) : h.Known x := by
  obtain ⟨_, _, old, ho, ⟨_, _, rfl⟩ | ⟨_, _, rfl⟩⟩ := mem_dependencyCalls.mp hc
  · exact hid
  · obtain ⟨n, hn, _⟩ := Option.map_eq_some_iff.mp ho
    exact hg _ (Graph.hasNode_of_some hn)

/-- **One action**: a new edge ends in a known id, or a link added it. -/
theorem edge_step_known {h : History} {m : Machine} (ha : Agrees h m) (a : Action)
    (ha' : Agrees (h.step a) (m.step a)) {s x : String}
    (he : (m.step a).st.depGraph.Edge s x) :
    m.st.depGraph.Edge s x ∨ (h.step a).Known x ∨
      ∃ e, a = .expr (.link e) ∧ m.reading = true ∧ x = toString e.targetEv ∧
        e.sourceEv ≠ e.targetEv ∧ m.st.depGraph.HasNode (toString e.sourceEv) ∧
        toString e.sourceEv ≠ m.st.currentBlockId ∧
        toString e.sourceEv ≠ m.st.currentContext := by
  have hnode : ∀ k, (m.step a).st.depGraph.HasNode k → (h.step a).Known k :=
    fun k => (ha'.node k).mp
  rcases edge_step he with he | ⟨hne, hs, l, hc⟩
  · exact .inl he
  · right
    obtain ⟨st, rd⟩ := m
    cases a with
    | enter b =>
        left
        rcases mem_edgeCalls_enter hc with ⟨hb, hm, hc⟩ | ⟨_, _, _, _, _, _, hc⟩
        · obtain ⟨_, rfl, _⟩ := mem_mainCalls.mp hc
          exact hnode _ (hasNode_enterBlock.mpr (.inl ⟨hb, hm, rfl⟩))
        · obtain ⟨_, _, rfl, ho⟩ := mem_wCalls.mp hc
          obtain ⟨n, hn, _⟩ := Option.map_eq_some_iff.mp ho
          exact ((ha.node _).mp (Graph.hasNode_of_some hn)).step _
    | leave b => cases hc
    | expr e =>
        cases rd with
        | false => cases e <;> cases hc
        | true =>
            cases e with
            | submitOp e => cases hc
            | trigger e => cases hc
            | link e =>
                have hc : (s, x, l) ∈ linkCalls st e := hc
                have hs : (analyzeExpr st (.link e)).depGraph.HasNode s := hs
                unfold linkCalls at hc
                split at hc
                · cases hc
                · rename_i hskip
                  rw [not_or] at hskip
                  cases List.mem_singleton.mp hc
                  refine .inr ⟨e, rfl, rfl, rfl, fun heq => hne (congrArg _ heq), ?_,
                    hskip.1, hskip.2⟩
                  exact (hasNode_analyzeExpr.mp hs).resolve_left fun ⟨_, h, _⟩ => by cases h
            | newEvent e =>
                left
                have hadded : ∀ k, (st.depGraph.addNode (toString e.eventId) e.event).HasNode k →
                    (h.step (.expr (.newEvent e))).Known k := by
                  intro k hk
                  refine hnode k (hasNode_analyzeExpr.mpr ?_)
                  rcases Graph.hasNode_addNode.mp hk with hk | hk
                  · exact .inl ⟨e, rfl, hk⟩
                  · exact .inr hk
                have hid := hadded (toString e.eventId) (Graph.hasNode_addNode.mpr (.inl rfl))
                rcases mem_newEventCalls.mp hc with ⟨_, _, rfl, _⟩ | ⟨_, rfl, _⟩ | ⟨a, _, hc⟩
                · exact hid
                · exact hid
                · exact mem_dependencyCalls_known hadded hid hc

/-- After a run every edge ends in a known id, or a link of the run added it. -/
theorem edge_target {t : Trace} {p : List Action} (hp : p <+: t.actions) {s x : String}
    (he : (run p).st.depGraph.Edge s x) : (history p).Known x ∨
      ∃ q e, q ++ [Action.expr (.link e)] <+: p ∧ AddsEdge t q e ∧ x = toString e.targetEv := by
  induction p using List.reverseRecOn with
  | nil => exact absurd he (Graph.not_edge_empty s x)
  | append_singleton p a ih =>
      have hpre : p <+: t.actions := (List.prefix_append p _).trans hp
      have ha := agrees_run hpre
      have ha' := agrees_run hp
      rw [history_append_singleton, run_append_singleton] at ha'
      rw [run_append_singleton] at he
      rw [history_append_singleton]
      rcases edge_step_known ha a ha' he with he | hk | ⟨e, rfl, hrd, hx, hne, hs, hb, hc⟩
      · rcases ih hpre he with hk | ⟨q, e, hq, h⟩
        · exact .inl (hk.step a)
        · exact .inr ⟨q, e, hq.trans (List.prefix_append _ _), h⟩
      · exact .inl hk
      · rw [currentContext_run hrd] at hc
        rw [ha.reading] at hrd
        obtain ⟨c, hcur⟩ := Option.isSome_iff_exists.mp hrd
        refine .inr ⟨p, e, List.prefix_refl _, ⟨hp, ⟨c, hcur, ?_⟩, hc, hne, (ha.node _).mp hs⟩, hx⟩
        rw [← ha.current c hcur]
        exact hb

/-- A step of the graph keeps an edge into nothing: only edges between nodes are pruned. -/
theorem edge_dangling_step {g g' : DepGraph} (hs : GraphStep g g') (hc : Consistent g)
    {s x : String} (he : g.Edge s x) (hx : ¬ g.HasNode x) : g'.Edge s x := by
  cases hs with
  | addNode id obj => exact Graph.edge_addNode.mpr he
  | addNodeAttr id attr => exact Graph.edge_addNodeAttr.mpr he
  | addEdge s' t' l => exact Graph.edge_addEdge.mpr (.inl he)
  | prune id =>
      obtain ⟨l, hl⟩ := he
      refine ⟨l, ((pruneEdges_spec g id).2 s x l).mpr ⟨hl, fun ⟨_, hb, _⟩ => ?_⟩⟩
      exact hx (hc.before_node _ _ hb).2

theorem hasNode_step {g g' : DepGraph} (hs : GraphStep g g') {x : String} (hx : g.HasNode x) :
    g'.HasNode x := by
  cases hs with
  | addNode id obj => exact Graph.hasNode_addNode.mpr (.inr hx)
  | addNodeAttr id attr => exact Graph.hasNode_addNodeAttr.mpr hx
  | addEdge s' t' l => exact Graph.hasNode_addEdge.mpr hx
  | prune id => exact ((pruneEdges_spec g id).1.hasNode x).mpr hx

theorem edge_dangling_steps {g g' : DepGraph} (hs : GraphSteps g g') (hc : Consistent g)
    {s x : String} (he : g.Edge s x) (hx : ¬ g'.HasNode x) : g'.Edge s x := by
  induction hs with
  | refl => exact he
  | tail hsteps hs ih =>
      have hx' := fun h => hx (hasNode_step hs h)
      exact edge_dangling_step hs (recorded_steps hsteps hc).1 (ih hx') hx'

/-- **A link to an event that is not created leaves an edge into nothing.** -/
theorem edge_of_addsEdge {t : Trace} {p q : List Action} {e : LinkExpr} (h : AddsEdge t q e)
    (hp : p <+: t.actions) (hqp : q ++ [.expr (.link e)] <+: p)
    (hx : ¬ (history p).Known (toString e.targetEv)) :
    (run p).st.depGraph.Edge (toString e.sourceEv) (toString e.targetEv) := by
  obtain ⟨r, hr⟩ := hqp
  have hq : q <+: t.actions := (List.prefix_append q _).trans h.reached
  have ha := agrees_run hq
  obtain ⟨c, hcur, hnc⟩ := h.notBlock
  have hrd : (run q).reading = true := ha.reading.trans (by rw [hcur]; rfl)
  have hst : (run (q ++ [Action.expr (.link e)])).st = analyzeLink (run q).st e := by
    rw [run_append_singleton]
    simp only [Machine.step, hrd, if_true]
    rfl
  have he : (run (q ++ [Action.expr (.link e)])).st.depGraph.Edge (toString e.sourceEv)
      (toString e.targetEv) := by
    have hb : toString e.sourceEv ≠ (run q).st.currentBlockId := by
      rw [ha.current c hcur]
      exact hnc
    rw [hst, analyzeLink_eq]
    refine Graph.edge_addEdges.mpr (.inr ⟨fun heq => h.notTarget (toString_nat_inj.mp heq),
      (ha.node _).mpr h.source, .happensBefore, ?_⟩)
    unfold linkCalls
    rw [if_neg (not_or.mpr ⟨hb, by rw [currentContext_run hrd]; exact h.notContext⟩)]
    exact List.mem_singleton_self _
  have hsteps := graphSteps_run (q ++ [Action.expr (.link e)]) r
  rw [hr] at hsteps
  exact edge_dangling_steps hsteps (consistent_run _) he fun hn => hx (((agrees_run hp).node _).mp hn)

/-- **The graph is closed iff every link that adds an edge is resolved**, after any part of a
    run. -/
theorem closed_run_iff {t : Trace} {p : List Action} (hp : p <+: t.actions) :
    (run p).st.depGraph.Closed ↔ LinksResolvedBy t p := by
  have hnode := (agrees_run hp).node
  refine ⟨fun hc q e hqp h => ?_, fun hl s x he => ?_⟩
  · by_contra hx
    exact hx ((hnode _).mp (hc _ _ (edge_of_addsEdge h hp hqp hx)))
  · rw [hnode]
    rcases edge_target hp he with hk | ⟨q, e, hqp, h, rfl⟩
    · exact hk
    · exact hl q e hqp h

/-- **The dependency graph is closed iff every link that adds an edge is resolved.** -/
theorem closed_dependencyGraph_iff (t : Trace) :
    (dependencyGraph t).Closed ↔ LinksResolved t := by
  rw [dependencyGraph, inferTrace_eq_run, closed_run_iff (List.prefix_refl t.actions),
    linksResolvedBy_actions]

/-- Without links the graph is closed. -/
theorem closed_of_no_link {t : Trace} (h : ∀ e, Action.expr (.link e) ∉ t.actions) :
    (dependencyGraph t).Closed :=
  (closed_dependencyGraph_iff t).mpr fun _ e ha => absurd (ha.reached.subset (by simp)) (h e)

end Fsracer

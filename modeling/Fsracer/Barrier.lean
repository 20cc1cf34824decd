/-
  File:      Fsracer/Barrier.lean
  Subject:   MAIN BLOCKS AS BARRIERS: what has a path to a later main block when it begins.

  `AnalyzeBlock` joins the sinks of the whole graph to a main block that is not the first one.
  A sink is any node without dependents, executed or not, so the block comes after an executed
  event only if that event leads to a sink, and it comes after a PENDING one whenever that one
  does. `mainBarrier_iff` is the exact account; where the graph is acyclic and its edges end in
  nodes, every node leads to a sink and the block is a barrier iff nothing is pending.
  **`mainBarrier_iff_settled`**: so it is on every trace that one execution leaves.
-/
import Mathlib
import Fsracer.Observed
import Fsracer.Links

namespace Fsracer

open Relation

/-! ## 1. The moment a later main block begins -/

/-- **The barrier property**: when a later main block begins, exactly the executed events and
    blocks have a path to it. -/
def MainBarrier (t : Trace) : Prop :=
  ∀ p b, MainMoment t p b → ∀ x, x ≠ b.getPrettyBlockId →
    ((run (p ++ [.enter b])).st.depGraph.Path x b.getPrettyBlockId ↔
      x ∈ (history p).executed)

/-- A node other than `b` without dependents. -/
def SinkBeside (g : DepGraph) (b s : String) : Prop := s ≠ b ∧ g.HasNode s ∧ ∀ y, ¬ g.Edge s y

/-- `x` leads to `b`, or to a node that gets an edge to `b`. -/
def LeadsTo (g : DepGraph) (b x : String) : Prop :=
  g.Path x b ∨ ∃ s, SinkBeside g b s ∧ ReflTransGen g.Edge x s

theorem prevMainBlock_isSome (p : List Action) : (run p).st.prevMainBlock.isSome = true ↔
    ∃ b, .enter b ∈ p ∧ b.isMain = true ∧ b.isEmptyMain = false := by
  induction p using List.reverseRecOn with
  | nil => simp [run, Machine.start, DepState.init]
  | append_singleton p a ih =>
      rw [run_append_singleton]
      have hold : (∀ b, a = .enter b → ¬ (b.isMain = true ∧ b.isEmptyMain = false)) →
          ((∃ b, .enter b ∈ p ++ [a] ∧ b.isMain = true ∧ b.isEmptyMain = false) ↔
            ∃ b, .enter b ∈ p ∧ b.isMain = true ∧ b.isEmptyMain = false) := by
        intro hno
        constructor
        · intro h
          obtain ⟨b, hb, h⟩ := h
          rcases List.mem_append.mp hb with hb | hb
          · exact ⟨b, hb, h⟩
          · exact absurd h (hno b (List.mem_singleton.mp hb).symm)
        · intro h
          obtain ⟨b, hb, h⟩ := h
          exact ⟨b, List.mem_append_left _ hb, h⟩
      cases a with
      | enter b =>
          show (enterBlock (run p).st b).1.prevMainBlock.isSome = true ↔ _
          rcases enterBlock_cases (run p).st b with ⟨he, h⟩ | ⟨he, hm, h⟩ | ⟨hm, _, h⟩ | ⟨hm, _, _, h⟩ <;>
            rw [h]
          · rw [hold fun b' hb => by cases hb; simp [he]]
            exact ih
          · exact ⟨fun _ => ⟨b, by simp, hm, he⟩, fun _ => rfl⟩
          · rw [hold fun b' hb => by cases hb; simp [hm]]
            exact ih
          · rw [hold fun b' hb => by cases hb; simp [hm]]
            exact ih
      | leave b =>
          rw [hold fun b' hb => by cases hb]
          cases hr : (run p).reading with
          | false => rw [step_leave_skipped hr, ih]
          | true =>
              simp only [Machine.step, hr, if_true]
              exact ih
      | expr e =>
          rw [hold fun b' hb => by cases hb]
          cases hr : (run p).reading with
          | false => rw [step_expr_skipped hr, ih]
          | true =>
              simp only [Machine.step, hr, if_true]
              have hprev : (analyzeExpr (run p).st e).prevMainBlock = (run p).st.prevMainBlock := by
                cases e with
                | link e =>
                    show (analyzeLink _ e).prevMainBlock = _
                    rw [analyzeLink_eq]
                | submitOp e => rfl
                | newEvent e => rfl
                | trigger e => rfl
              rw [hprev]
              exact ih

/-! ## 2. Paths to the block -/

/-- The edges after the sinks are joined to the block. -/
theorem edge_mainMoment {t : Trace} {p : List Action} {b : Block} (h : MainMoment t p b)
    {x y : String} : (run (p ++ [Action.enter b])).st.depGraph.Edge x y ↔
      (run p).st.depGraph.Edge x y ∨
        (y = b.getPrettyBlockId ∧ SinkBeside (run p).st.depGraph b.getPrettyBlockId x) := by
  obtain ⟨m, hm⟩ := Option.isSome_iff_exists.mp ((prevMainBlock_isSome p).mpr h.later)
  rw [run_append_singleton]
  show (enterBlock (run p).st b).1.depGraph.Edge x y ↔ _
  rcases enterBlock_cases (run p).st b with ⟨he, _⟩ | ⟨_, _, e⟩ | ⟨hr, _⟩ | ⟨hr, _⟩
  · exact absurd h.nonempty (by simp [he])
  · rw [e]
    show (beginMain _ b).depGraph.Edge x y ↔ _
    rw [beginMain_eq, Graph.edge_addEdges, Graph.edge_addNode]
    refine or_congr_right ⟨fun ⟨hne, _, l, hcall⟩ => ?_, fun ⟨hy, hne, hn, hsink⟩ => ?_⟩
    · obtain ⟨_, hy, _, hs⟩ := mem_mainCalls.mp hcall
      obtain ⟨hn, hsink⟩ := Graph.mem_getSinks.mp hs
      have hxb : x ≠ b.getPrettyBlockId := hy ▸ hne
      refine ⟨hy, hxb, (Graph.hasNode_addNode.mp hn).resolve_left hxb, fun z hz => ?_⟩
      exact hsink z (Graph.edge_addNode.mpr hz)
    · subst hy
      refine ⟨hne, Graph.hasNode_addNode.mpr (.inr hn), .happensBefore,
        mem_mainCalls.mpr ⟨rfl, rfl, ?_, Graph.mem_getSinks.mpr ⟨?_, fun z hz => ?_⟩⟩⟩
      · rw [hm]
        rfl
      · exact Graph.hasNode_addNode.mpr (.inr hn)
      · exact hsink z (Graph.edge_addNode.mp hz)
  · exact absurd h.main (by simp [hr])
  · exact absurd h.main (by simp [hr])

/-- **What has a path to the block**: what led to it before, or to a sink beside it. -/
theorem path_mainMoment {t : Trace} {p : List Action} {b : Block} (h : MainMoment t p b)
    (x : String) : (run (p ++ [Action.enter b])).st.depGraph.Path x b.getPrettyBlockId ↔
      LeadsTo (run p).st.depGraph b.getPrettyBlockId x := by
  have hedge : (run (p ++ [Action.enter b])).st.depGraph.Edge = fun u v =>
      (run p).st.depGraph.Edge u v ∨
        (v = b.getPrettyBlockId ∧ SinkBeside (run p).st.depGraph b.getPrettyBlockId u) := by
    funext u v
    exact propext (edge_mainMoment h)
  unfold Graph.Path LeadsTo
  rw [hedge]
  exact Reach.path_barrier_iff

/-- In a closed acyclic graph every other node leads to the block. -/
theorem leadsTo_of_acyclic {g : DepGraph} (hacyc : Reach.Acyclic g.Edge) (hclosed : g.Closed)
    {b x : String} (hx : g.HasNode x) (hne : x ≠ b) : LeadsTo g b x := by
  have hmem : ∀ y, y ∈ g.nodes.keys.toFinset ↔ g.HasNode y := by
    intro y
    rw [List.mem_toFinset, Std.TreeMap.mem_keys, Std.TreeMap.mem_iff_isSome_getElem?]
    rfl
  obtain ⟨s, hs, hsink, hpath⟩ := Reach.exists_sink hacyc
    (fun u v _ e => (hmem v).mpr (hclosed u v e)) ((hmem x).mpr hx)
  by_cases hsb : s = b
  · left
    subst hsb
    exact (reflTransGen_iff_eq_or_transGen.mp hpath).resolve_left fun heq => hne heq.symm
  · exact .inr ⟨s, ⟨hsb, (hmem s).mp hs, hsink⟩, hpath⟩

/-- Nothing leads anywhere from an unknown id. -/
theorem hasNode_of_leadsTo {g : DepGraph} {b x : String} (h : LeadsTo g b x) : g.HasNode x := by
  rcases h with h | ⟨s, hs, h⟩
  · exact Graph.path_hasNode h
  · rcases reflTransGen_iff_eq_or_transGen.mp h with rfl | h
    · exact hs.2.1
    · exact Graph.path_hasNode h

/-! ## 3. When a main block is a barrier -/

/-- Before the block begins, no pending event leads to a sink and no executed one is stuck. -/
def SinksAreExecuted (t : Trace) : Prop :=
  ∀ p b, MainMoment t p b → ∀ x, x ≠ b.getPrettyBlockId → (history p).Known x →
    (x ∉ (history p).executed → ¬ LeadsTo (run p).st.depGraph b.getPrettyBlockId x) ∧
    (x ∈ (history p).executed → LeadsTo (run p).st.depGraph b.getPrettyBlockId x)

/-- The ids in the graph at that moment are those known to the text. -/
theorem MainMoment.node {t : Trace} {p : List Action} {b : Block} (h : MainMoment t p b)
    (x : String) : (run p).st.depGraph.HasNode x ↔ (history p).Known x :=
  (agrees_run ((List.prefix_append p _).trans h.reached)).node x

theorem MainMoment.known_of_executed {t : Trace} {p : List Action} {b : Block}
    (h : MainMoment t p b) {x : String} (hx : x ∈ (history p).executed) : (history p).Known x := by
  obtain ⟨n, hn, _⟩ :=
    ((agrees_run ((List.prefix_append p _).trans h.reached)).attr x).mpr hx
  exact (h.node x).mp (Graph.hasNode_of_some hn)

/-- In a closed acyclic graph the block is a barrier iff nothing is pending. -/
theorem barrier_of_acyclic {t : Trace} {p : List Action} {b : Block} (h : MainMoment t p b)
    (hacyc : Reach.Acyclic (run p).st.depGraph.Edge) (hclosed : (run p).st.depGraph.Closed) :
    (∀ x, x ≠ b.getPrettyBlockId →
        ((run (p ++ [.enter b])).st.depGraph.Path x b.getPrettyBlockId ↔
          x ∈ (history p).executed)) ↔
      ∀ x, x ≠ b.getPrettyBlockId → (history p).Known x → x ∈ (history p).executed := by
  have hleads : ∀ x, x ≠ b.getPrettyBlockId → (history p).Known x →
      LeadsTo (run p).st.depGraph b.getPrettyBlockId x :=
    fun x hne hk => leadsTo_of_acyclic hacyc hclosed ((h.node x).mpr hk) hne
  refine ⟨fun hbar x hne hk => ?_, fun hall x hne => ?_⟩
  · rw [← hbar x hne, path_mainMoment h]
    exact hleads x hne hk
  · rw [path_mainMoment h]
    refine ⟨fun hl => hall x hne ((h.node x).mp (hasNode_of_leadsTo hl)), fun hx => ?_⟩
    exact hleads x hne (h.known_of_executed hx)

/-- **When the main blocks of a trace are barriers**: when before each of them no pending event
    leads to a sink and every executed one does. Where the graph has no cycle and no edge leaves
    it, that is: when nothing is pending. -/
theorem mainBarrier_iff (t : Trace) : (MainBarrier t ↔ SinksAreExecuted t) ∧
    ∀ p b, MainMoment t p b → Reach.Acyclic (run p).st.depGraph.Edge →
      (run p).st.depGraph.Closed →
      ((∀ x, x ≠ b.getPrettyBlockId →
          ((run (p ++ [.enter b])).st.depGraph.Path x b.getPrettyBlockId ↔
            x ∈ (history p).executed)) ↔
        ∀ x, x ≠ b.getPrettyBlockId → (history p).Known x → x ∈ (history p).executed) := by
  refine ⟨⟨fun hbar p b h x hne hk => ?_, fun hs p b h x hne => ?_⟩,
    fun p b h hacyc hclosed => barrier_of_acyclic h hacyc hclosed⟩
  · have hx := hbar p b h x hne
    rw [path_mainMoment h] at hx
    exact ⟨fun hno hl => hno (hx.mp hl), hx.mpr⟩
  · rw [path_mainMoment h]
    refine ⟨fun hl => ?_, fun hx => (hs p b h x hne (h.known_of_executed hx)).2 hx⟩
    by_contra hno
    exact (hs p b h x hne ((h.node x).mp (hasNode_of_leadsTo hl))).1 hno hl

/-- A read that is still pending when the second main block begins. -/
def pendingRead : Trace where
  threadId := 1
  cwd := "/"
  execOps := []
  blocks := [
    ⟨1, .MAIN, [.newEvent ⟨4, ⟨.EXT, 0⟩, []⟩]⟩,
    ⟨2, .MAIN, [.newEvent ⟨5, ⟨.S, 0⟩, []⟩]⟩]

/-- The pending read comes before the main block. -/
theorem mainBarrier_fails : ¬ MainBarrier pendingRead := by
  intro h
  have hm : MainMoment pendingRead (pendingRead.actions.take 3)
      ⟨2, .MAIN, [.newEvent ⟨5, ⟨.S, 0⟩, []⟩]⟩ :=
    ⟨by decide, rfl, rfl, _, List.mem_cons_self, rfl, rfl⟩
  have h4 := (h _ _ hm "4" (by decide)).mp
    (Graph.path_of_hasPath (by decide +kernel) (by decide))
  exact absurd h4 (by decide)

/-! ## 4. Traces that one execution leaves -/

/-- Links that follow the creation of their targets are resolved at once. -/
theorem linksResolvedBy_of_observed {t : Trace} (ht : ObservedMains t) (p : List Action) :
    LinksResolvedBy t p := by
  intro q e hqp h
  obtain ⟨_, q', n, rfl, hid, _⟩ := ht.linked q e h.reached
  obtain ⟨c, hcur, _⟩ := h.notBlock
  rw [history_append_singleton, (History.step_expr _ _).1] at hcur
  refine known_mono ((List.prefix_append _ _).trans hqp) ?_
  rw [history_append_singleton, History.step_newEvent hcur, ← hid]
  left
  simp

/-- If every later main block before this one began when nothing was pending, this one is a
    barrier iff nothing is pending now. -/
theorem barrier_iff_settled {t : Trace} (ht : ObservedMains t) {p : List Action} {b : Block}
    (h : MainMoment t p b)
    (hbefore : ∀ q b', q ++ [.enter b'] <+: p → MainMoment t q b' → Settled q b') :
    (∀ x, x ≠ b.getPrettyBlockId →
      ((run (p ++ [.enter b])).st.depGraph.Path x b.getPrettyBlockId ↔
        x ∈ (history p).executed)) ↔ Settled p b := by
  have hp : p <+: t.actions := (List.prefix_append p _).trans h.reached
  have hranked : Ranked (history p) (run p).st := ranked_of_mains ht hp hbefore
  exact barrier_of_acyclic h (hranked.acyclic.mono fun _ _ e => .inl e)
    ((closed_run_iff hp).mpr (linksResolvedBy_of_observed ht p))

/-- **On such a trace the main blocks are barriers iff nothing is pending when they begin.** -/
theorem mainBarrier_iff_settled {t : Trace} (ht : ObservedMains t) :
    MainBarrier t ↔ ∀ p b, MainMoment t p b → Settled p b := by
  refine ⟨fun hbar => ?_, fun hs p b h => ?_⟩
  · -- the first moment at which something is pending would break the barrier
    have hall : ∀ n p b, p.length = n → MainMoment t p b → Settled p b := by
      intro n
      induction n using Nat.strong_induction_on with
      | _ n ih =>
          intro p b hn h
          refine (barrier_iff_settled ht h fun q b' hq h' => ?_).mp (hbar p b h)
          have hlen : q.length < n := by
            have hle := hq.length_le
            rw [List.length_append, List.length_singleton] at hle
            omega
          exact ih q.length hlen q b' rfl h'
    exact fun p b h => hall p.length p b rfl h
  · exact (barrier_iff_settled ht h fun q b' _ h' => hs q b' h').mpr (hs p b h)

end Fsracer

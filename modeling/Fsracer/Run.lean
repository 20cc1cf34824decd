/-
  File:      Fsracer/Run.lean
  Subject:   THE ANALYSIS AS A RUN, one expression at a time.

  A trace is read as a list of `Action`s: a block is entered, its expressions follow, the block
  is left. `Machine.step` analyses one action with the functions of the analyzer; `reading` says
  whether the block that was entered is analysed (a block of an unknown event and an empty main
  block are not). `inferTrace_eq_run` is the refinement: the run over all actions of a trace is
  `AnalyzeTrace`. A prefix of the actions is a moment of the analysis.

  The second half says what each action does to the graph: calls of `AddEdge`
  (`analyzeNewEvent_eq`, `analyzeLink_eq`, `beginMain_eq`, `connectWithWEvents_eq`) and, for
  `PruneEdges`, removals (`pruneEdges_spec`). The priority rules of the four `Proceed…Event`
  helpers become one table, `precedence`. `step_graph` sums it up (`edgeCalls` are the calls of
  an action), and `graphSteps_step` reads it as a chain of four primitive steps: what each of the
  four keeps holds after every run.
-/
import Mathlib
import Fsracer.DependencyInference

namespace Fsracer

/-! ## 1. Actions and runs -/

/-- One step of the analysis. -/
inductive Action where
  | enter (b : Block)
  | expr (e : Expr)
  | leave (b : Block)
  deriving DecidableEq, Repr

/-- The actions of a block. -/
def Block.actions (b : Block) : List Action := .enter b :: (b.exprs.map .expr ++ [.leave b])

/-- The actions of a trace. -/
def Trace.actions (t : Trace) : List Action := t.blocks.flatMap Block.actions

/-- The analyzer between two actions. -/
structure Machine where
  st : DepState
  reading : Bool

namespace Machine

/-- Before the first action. -/
def start : Machine := ⟨.init, false⟩

/-- One action. -/
def step (m : Machine) : Action → Machine
  | .enter b => ⟨(enterBlock m.st b).1, (enterBlock m.st b).2⟩
  | .expr e => if m.reading then { m with st := analyzeExpr m.st e } else m
  | .leave b => if m.reading then ⟨leaveBlock m.st b, false⟩ else m

end Machine

/-- The machine after a list of actions. -/
def run (p : List Action) : Machine := p.foldl Machine.step .start

@[simp] theorem run_nil : run [] = .start := rfl

@[simp] theorem run_append_singleton (p : List Action) (a : Action) :
    run (p ++ [a]) = (run p).step a := by simp [run]

theorem step_expr_skipped {m : Machine} (hr : m.reading = false) (e : Expr) :
    m.step (.expr e) = m := by simp [Machine.step, hr]

theorem step_leave_skipped {m : Machine} (hr : m.reading = false) (b : Block) :
    m.step (.leave b) = m := by simp [Machine.step, hr]

theorem step_exprs (es : List Expr) (st : DepState) :
    (es.map Action.expr).foldl Machine.step ⟨st, true⟩ = ⟨es.foldl analyzeExpr st, true⟩ := by
  induction es generalizing st with
  | nil => rfl
  | cons e es ih => exact ih (analyzeExpr st e)

theorem step_exprs_skipped (es : List Expr) (st : DepState) :
    (es.map Action.expr).foldl Machine.step ⟨st, false⟩ = ⟨st, false⟩ := by
  induction es with
  | nil => rfl
  | cons e es ih => exact ih

/-- The actions of a block do what `AnalyzeBlock` does. -/
theorem step_block (m : Machine) (b : Block) :
    b.actions.foldl Machine.step m = ⟨analyzeBlock m.st b, false⟩ := by
  unfold Block.actions analyzeBlock
  rw [List.foldl_cons, List.foldl_append]
  have he : m.step (.enter b) = ⟨(enterBlock m.st b).1, (enterBlock m.st b).2⟩ := rfl
  rw [he]
  rcases enterBlock m.st b with ⟨st, _ | _⟩
  · rw [step_exprs_skipped]
    rfl
  · rw [step_exprs]
    rfl

/-- **The run over the actions of a trace is `AnalyzeTrace`.** -/
theorem inferTrace_eq_run (t : Trace) : inferTrace t = (run t.actions).st := by
  have h : ∀ (bs : List Block) (m : Machine),
      ((bs.flatMap Block.actions).foldl Machine.step m).st = bs.foldl analyzeBlock m.st := by
    intro bs
    induction bs with
    | nil => intro m; rfl
    | cons b bs ih =>
        intro m
        rw [List.flatMap_cons, List.foldl_append, step_block, ih]
        rfl
  exact (h t.blocks .start).symm

/-! ## 2. The priority rules as one table -/

/-- Which of two pending events comes first. -/
inductive Precedence where
  | oldFirst
  | newFirst
  | unordered
  deriving DecidableEq, Repr

/-- What the four `Proceed…Event` helpers decide for a new event and an older pending one. -/
def precedence (new old : Event) : Precedence :=
  match old.eventType, new.eventType with
  | .S, _ | .MAIN, _ => .oldFirst
  | .M, .S | .M, .MAIN => .newFirst
  | .M, .M => if new.eventValue < old.eventValue then .newFirst else .oldFirst
  | .M, .W | .M, .EXT => .oldFirst
  | .W, .S | .W, .MAIN | .W, .M => .newFirst
  | .W, .EXT => if old.eventValue ≠ 0 then .oldFirst else .unordered
  | .W, .W => .unordered
  | .EXT, .S | .EXT, .MAIN | .EXT, .M => .newFirst
  | .EXT, .W | .EXT, .EXT => .unordered

/-- The call of `AddEdge` that a decision stands for. -/
def Precedence.call (new old : String) : Precedence → List (String × String × EdgeLabel)
  | .oldFirst => [(old, new, .happensBefore)]
  | .newFirst => [(new, old, .happensBefore)]
  | .unordered => []

theorem mem_precedence_call {p : Precedence} {new old s t : String} {l : EdgeLabel} :
    (s, t, l) ∈ p.call new old ↔ l = .happensBefore ∧
      ((p = .oldFirst ∧ s = old ∧ t = new) ∨ (p = .newFirst ∧ s = new ∧ t = old)) := by
  cases p <;> simp [Precedence.call] <;> tauto

/-- The calls of `AddDependencies` for the pending event `a`. -/
def dependencyCalls (g : DepGraph) (blockId eventId : String) (event : Event) (a : String) :
    List (String × String × EdgeLabel) :=
  match g.objOf a with
  | none => []
  | some old => if blockId = a then [] else (precedence event old).call eventId a

/-- The calls of `ConnectWithWEvents` for the pending event `a`. -/
def wCalls (g : DepGraph) (eventId : String) (value : Nat) (a : String) :
    List (String × String × EdgeLabel) :=
  match g.objOf a with
  | none => []
  | some old =>
      if old.eventType = .W ∧ old.eventValue = value then [(eventId, a, .happensBefore)] else []

/-- A loop whose body calls `AddEdge` as the objects of the nodes say. -/
theorem foldl_addEdges {body : DepGraph → String → DepGraph}
    {calls : DepGraph → String → List (String × String × EdgeLabel)}
    (hbody : ∀ g a, body g a = g.addEdges (calls g a))
    (hcalls : ∀ g g' : DepGraph, (∀ k, g'.objOf k = g.objOf k) → ∀ a, calls g' a = calls g a)
    (as : List String) (g : DepGraph) :
    as.foldl body g = g.addEdges (as.flatMap (calls g)) := by
  induction as generalizing g with
  | nil => rfl
  | cons a as ih =>
      have he : calls (g.addEdges (calls g a)) = calls g :=
        funext fun b => hcalls g _ (fun k => Graph.objOf_addEdges) b
      rw [List.foldl_cons, hbody, ih, he, List.flatMap_cons, Graph.addEdges_append]

theorem addDependency_eq (blockId eventId : String) (event : Event) (g : DepGraph) (a : String) :
    addDependency blockId eventId event g a =
      g.addEdges (dependencyCalls g blockId eventId event a) := by
  unfold addDependency dependencyCalls Graph.objOf
  cases hn : g.getNodeInfo a with
  | none => rfl
  | some n =>
      obtain ⟨id, ⟨ot, ov⟩, deps, be, af, attrs⟩ := n
      have hid : id = a := Graph.nodeId_of_getNodeInfo hn
      subst hid
      simp only [Option.map_some]
      by_cases hb : blockId = id
      · simp [hb, Graph.addEdges]
      · simp only [hb, if_false]
        rcases event with ⟨nt, nv⟩
        cases ot <;> cases nt <;>
          simp [proceedSEvent, proceedMEvent, proceedWEvent, proceedEXTEvent, precedence,
            Precedence.call, Graph.addEdges]
        -- two decisions depend on the values: M against M and an external event against W
        · split <;> simp
        · split <;> simp

theorem addDependencies_eq (g : DepGraph) (alive : Std.TreeSet String) (blockId eventId : String)
    (event : Event) : addDependencies g alive blockId eventId event =
      g.addEdges (alive.toList.flatMap (dependencyCalls g blockId eventId event)) :=
  foldl_addEdges (addDependency_eq blockId eventId event)
    (fun g g' h a => by unfold dependencyCalls; rw [h]) _ g

theorem connectWithWEvent_eq (info : EventInfo) (g : DepGraph) (a : String) :
    connectWithWEvent info g a =
      g.addEdges (wCalls g info.nodeId info.nodeObj.eventValue a) := by
  unfold connectWithWEvent wCalls Graph.objOf
  cases hn : g.getNodeInfo a with
  | none => rfl
  | some n =>
      obtain ⟨id, ⟨ot, ov⟩, deps, be, af, attrs⟩ := n
      have hid : id = a := Graph.nodeId_of_getNodeInfo hn
      subst hid
      cases ot <;> simp [Graph.addEdges]
      split <;> simp

theorem connectWithWEvents_eq (g : DepGraph) (alive : Std.TreeSet String) (info : EventInfo) :
    connectWithWEvents g alive info =
      g.addEdges (if info.nodeObj.eventType = .W then
        alive.toList.flatMap (wCalls g info.nodeId info.nodeObj.eventValue) else []) := by
  unfold connectWithWEvents
  cases h : info.nodeObj.eventType <;> simp [Graph.addEdges]
  exact foldl_addEdges (connectWithWEvent_eq info)
    (fun g g' h a => by unfold wCalls; rw [h]) _ g

theorem mem_dependencyCalls {g : DepGraph} {blockId eventId a s t : String} {event : Event}
    {l : EdgeLabel} : (s, t, l) ∈ dependencyCalls g blockId eventId event a ↔
      l = .happensBefore ∧ blockId ≠ a ∧ ∃ old, g.objOf a = some old ∧
        ((precedence event old = .oldFirst ∧ s = a ∧ t = eventId) ∨
          (precedence event old = .newFirst ∧ s = eventId ∧ t = a)) := by
  unfold dependencyCalls
  cases h : g.objOf a with
  | none => simp
  | some old =>
      by_cases hb : blockId = a
      · simp [hb]
      · simp only [hb, if_false, mem_precedence_call, Option.some.injEq, exists_eq_left', ne_eq,
          not_false_iff, true_and]

theorem mem_wCalls {g : DepGraph} {eventId a s t : String} {value : Nat} {l : EdgeLabel} :
    (s, t, l) ∈ wCalls g eventId value a ↔
      l = .happensBefore ∧ s = eventId ∧ t = a ∧ g.objOf a = some ⟨.W, value⟩ := by
  unfold wCalls
  cases h : g.objOf a with
  | none => simp
  | some old =>
      obtain ⟨ty, v⟩ := old
      by_cases hw : ty = .W ∧ v = value
      · obtain ⟨rfl, rfl⟩ := hw
        simp only [and_self, if_true, List.mem_singleton, Prod.mk.injEq, and_true]
        tauto
      · simp only [hw, if_false, List.not_mem_nil, Option.some.injEq, Event.mk.injEq, false_iff]
        tauto

/-! ## 3. `PruneEdges` as removals -/

/-- Everything but the edges is unchanged. -/
structure SameFrame (g g' : DepGraph) : Prop where
  hasNode : ∀ k, g'.HasNode k ↔ g.HasNode k
  objOf : ∀ k, g'.objOf k = g.objOf k
  hasAttr : ∀ k attr, g'.HasAttr k attr ↔ g.HasAttr k attr
  before : ∀ s t, g'.Before s t ↔ g.Before s t
  after : ∀ t s, g'.After t s ↔ g.After t s

theorem SameFrame.refl (g : DepGraph) : SameFrame g g :=
  ⟨fun _ => Iff.rfl, fun _ => rfl, fun _ _ => Iff.rfl, fun _ _ => Iff.rfl, fun _ _ => Iff.rfl⟩

theorem SameFrame.trans {g g' g'' : DepGraph} (h : SameFrame g g') (h' : SameFrame g' g'') :
    SameFrame g g'' where
  hasNode k := (h'.hasNode k).trans (h.hasNode k)
  objOf k := (h'.objOf k).trans (h.objOf k)
  hasAttr k attr := (h'.hasAttr k attr).trans (h.hasAttr k attr)
  before s t := (h'.before s t).trans (h.before s t)
  after t s := (h'.after t s).trans (h.after t s)

theorem sameFrame_removeEdge (g : DepGraph) (s t : String) (l : EdgeLabel) :
    SameFrame g (g.removeEdge s t l) where
  hasNode _ := Graph.hasNode_removeEdge
  objOf _ := Graph.objOf_removeEdge
  hasAttr _ _ := Graph.hasAttr_removeEdge
  before _ _ := Graph.before_removeEdge
  after _ _ := Graph.after_removeEdge

/-- A loop that removes the edges `prev → next` for the members `prev` of a list that meet a
    test. -/
theorem foldl_removeEdge (next : String) (test : String → Bool) (ps : List String)
    (g : DepGraph) :
    SameFrame g (ps.foldl (fun g prev =>
      if test prev then g.removeEdge prev next .happensBefore else g) g) ∧
    ∀ s t l, (ps.foldl (fun g prev =>
      if test prev then g.removeEdge prev next .happensBefore else g) g).EdgeL s t l ↔
        g.EdgeL s t l ∧ ¬ (l = .happensBefore ∧ t = next ∧ s ∈ ps ∧ test s = true) := by
  induction ps generalizing g with
  | nil => exact ⟨.refl g, by simp⟩
  | cons p ps ih =>
      rw [List.foldl_cons]
      obtain ⟨hf, he⟩ := ih (if test p then g.removeEdge p next .happensBefore else g)
      by_cases hp : test p = true
      · simp only [hp, if_true] at hf he ⊢
        refine ⟨(sameFrame_removeEdge g p next .happensBefore).trans hf, fun s t l => ?_⟩
        rw [he, Graph.edgeL_removeEdge, and_assoc, List.mem_cons]
        refine and_congr_right fun _ => ⟨fun h => ?_, fun h => ?_⟩
        · obtain ⟨h1, h2⟩ := h
          intro ⟨hl, ht, hs, hts⟩
          rcases hs with hs | hs
          · exact h1 ⟨hs, ht, hl⟩
          · exact h2 ⟨hl, ht, hs, hts⟩
        · refine ⟨fun ⟨hs, ht, hl⟩ => h ⟨hl, ht, .inl hs, hs ▸ hp⟩, fun ⟨hl, ht, hs, hts⟩ => ?_⟩
          exact h ⟨hl, ht, .inr hs, hts⟩
      · simp only [hp] at hf he ⊢
        refine ⟨hf, fun s t l => ?_⟩
        rw [he, List.mem_cons]
        refine and_congr_right fun _ => not_congr ⟨fun ⟨hl, ht, hs, hts⟩ => ?_, fun h => ?_⟩
        · exact ⟨hl, ht, .inr hs, hts⟩
        · obtain ⟨hl, ht, hs, hts⟩ := h
          rcases hs with rfl | hs
          · exact absurd hts hp
          · exact ⟨hl, ht, hs, hts⟩

theorem pruneNext_spec (info : EventInfo) (g : DepGraph) (next : String) :
    SameFrame g (pruneNext info g next) ∧
    ∀ s t l, (pruneNext info g next).EdgeL s t l ↔
      g.EdgeL s t l ∧ ¬ (l = .happensBefore ∧ t = next ∧ s ∈ info.after ∧ g.After next s) := by
  unfold pruneNext
  cases hn : g.getNodeInfo next with
  | none =>
      refine ⟨.refl g, fun s t l => ⟨fun h => ⟨h, fun ⟨_, _, _, n, e, _⟩ => ?_⟩, fun h => h.1⟩⟩
      rw [hn] at e
      cases e
  | some n =>
      have h := foldl_removeEdge next (fun prev => decide (prev ∈ n.after)) info.after.toList g
      simp only [decide_eq_true_eq, Std.TreeSet.mem_toList] at h
      refine ⟨h.1, fun s t l => (h.2 s t l).trans ?_⟩
      have ha : g.After next s ↔ s ∈ n.after := by simp [Graph.After, hn]
      rw [ha]

theorem foldl_pruneNext (info : EventInfo) (ns : List String) (g : DepGraph) :
    SameFrame g (ns.foldl (pruneNext info) g) ∧
    ∀ s t l, (ns.foldl (pruneNext info) g).EdgeL s t l ↔
      g.EdgeL s t l ∧ ¬ (l = .happensBefore ∧ t ∈ ns ∧ s ∈ info.after ∧ g.After t s) := by
  induction ns generalizing g with
  | nil => exact ⟨.refl g, by simp⟩
  | cons n ns ih =>
      rw [List.foldl_cons]
      obtain ⟨hf0, he0⟩ := pruneNext_spec info g n
      obtain ⟨hf, he⟩ := ih (pruneNext info g n)
      refine ⟨hf0.trans hf, fun s t l => ?_⟩
      rw [he, he0, and_assoc, hf0.after, List.mem_cons]
      refine and_congr_right fun _ => ⟨fun h => ?_, fun h => ?_⟩
      · obtain ⟨h1, h2⟩ := h
        intro ⟨hl, ht, hs, ha⟩
        rcases ht with rfl | ht
        · exact h1 ⟨hl, rfl, hs, ha⟩
        · exact h2 ⟨hl, ht, hs, ha⟩
      · refine ⟨fun ⟨hl, ht, hs, ha⟩ => h ⟨hl, .inl ht, hs, ht ▸ ha⟩, fun ⟨hl, ht, hs, ha⟩ => ?_⟩
        exact h ⟨hl, .inr ht, hs, ha⟩

/-- **What `PruneEdges` does**: it deletes the edges labelled `HAPPENS_BEFORE` from a recorded
    predecessor of the event to a recorded successor, where the successor's own record names the
    predecessor; `before`, `after` and everything else stay. -/
theorem pruneEdges_spec (g : DepGraph) (eventId : String) :
    SameFrame g (pruneEdges g eventId) ∧
    ∀ s t l, (pruneEdges g eventId).EdgeL s t l ↔ g.EdgeL s t l ∧
      ¬ (l = .happensBefore ∧ g.Before eventId t ∧ g.After eventId s ∧ g.After t s) := by
  unfold pruneEdges
  cases hn : g.getNodeInfo eventId with
  | none =>
      refine ⟨.refl g, fun s t l => ⟨fun h => ⟨h, fun ⟨_, ⟨n, e, _⟩, _⟩ => ?_⟩, fun h => h.1⟩⟩
      rw [hn] at e
      cases e
  | some n =>
      have h := foldl_pruneNext n n.before.toList g
      refine ⟨h.1, fun s t l => (h.2 s t l).trans ?_⟩
      have hb : g.Before eventId t ↔ t ∈ n.before.toList := by simp [Graph.Before, hn]
      have ha : g.After eventId s ↔ s ∈ n.after := by simp [Graph.After, hn]
      rw [hb, ha]

/-! ## 4. Every action as steps on the graph -/

/-- The calls of `AddEdge` in `AnalyzeNewEvent`. -/
def newEventCalls (st : DepState) (e : NewEventExpr) : List (String × String × EdgeLabel) :=
  (if st.pendingEv ≠ "" then [(st.pendingEv, toString e.eventId, .happensBefore)] else []) ++
    (st.currentBlockId, toString e.eventId, .creates) ::
      st.aliveEvents.toList.flatMap
        (dependencyCalls (st.depGraph.addNode (toString e.eventId) e.event) st.currentBlockId
          (toString e.eventId) e.event)

theorem dependencyCalls_addEdge (g : DepGraph) (s t : String) (l : EdgeLabel)
    (blockId eventId : String) (event : Event) :
    dependencyCalls (g.addEdge s t l) blockId eventId event =
      dependencyCalls g blockId eventId event := by
  funext a
  unfold dependencyCalls
  rw [Graph.objOf_addEdge]

theorem analyzeNewEvent_eq (st : DepState) (e : NewEventExpr) :
    (analyzeNewEvent st e).depGraph =
      (st.depGraph.addNode (toString e.eventId) e.event).addEdges (newEventCalls st e) := by
  unfold analyzeNewEvent newEventCalls
  simp only [addDependencies_eq]
  by_cases hp : st.pendingEv = ""
  · simp only [hp, ne_eq, not_true_eq_false, if_false, List.nil_append, dependencyCalls_addEdge]
    rfl
  · simp only [hp, ne_eq, not_false_eq_true, if_true, dependencyCalls_addEdge]
    rfl

theorem mem_newEventCalls {st : DepState} {e : NewEventExpr} {s t : String} {l : EdgeLabel} :
    (s, t, l) ∈ newEventCalls st e ↔
      (st.pendingEv ≠ "" ∧ s = st.pendingEv ∧ t = toString e.eventId ∧ l = .happensBefore) ∨
      (s = st.currentBlockId ∧ t = toString e.eventId ∧ l = .creates) ∨
      ∃ a ∈ st.aliveEvents, (s, t, l) ∈
        dependencyCalls (st.depGraph.addNode (toString e.eventId) e.event) st.currentBlockId
          (toString e.eventId) e.event a := by
  unfold newEventCalls
  rw [List.mem_append, List.mem_cons, Prod.mk.injEq, Prod.mk.injEq, List.mem_flatMap]
  simp only [Std.TreeSet.mem_toList]
  refine or_congr_left ?_
  by_cases hp : st.pendingEv = "" <;> simp [hp]

/-- The calls of `AddEdge` in `AnalyzeLink`. -/
def linkCalls (st : DepState) (e : LinkExpr) : List (String × String × EdgeLabel) :=
  if toString e.sourceEv = st.currentBlockId ∨ toString e.sourceEv = st.currentContext then []
  else [(toString e.sourceEv, toString e.targetEv, .happensBefore)]

/-- A link changes the graph only. -/
theorem analyzeLink_eq (st : DepState) (e : LinkExpr) :
    analyzeLink st e = { st with depGraph := st.depGraph.addEdges (linkCalls st e) } := by
  unfold analyzeLink linkCalls
  by_cases h : toString e.sourceEv = st.currentBlockId ∨ toString e.sourceEv = st.currentContext
  · simp only [h, if_true]
    rfl
  · simp only [h, if_false]
    rfl

/-- The calls of `AddEdge` when a main block begins. -/
def mainCalls (st : DepState) (b : Block) : List (String × String × EdgeLabel) :=
  match st.prevMainBlock with
  | some _ =>
      (st.depGraph.addNode b.getPrettyBlockId ⟨.MAIN, 0⟩).getSinks.toList.map
        fun sink => (sink, b.getPrettyBlockId, .happensBefore)
  | none => []

theorem beginMain_eq (st : DepState) (b : Block) : (beginMain st b).depGraph =
    (st.depGraph.addNode b.getPrettyBlockId ⟨.MAIN, 0⟩).addEdges (mainCalls st b) := by
  unfold beginMain mainCalls Graph.addEdges
  cases st.prevMainBlock with
  | none => rfl
  | some m => simp only [List.foldl_map]

theorem mem_mainCalls {st : DepState} {b : Block} {s t : String} {l : EdgeLabel} :
    (s, t, l) ∈ mainCalls st b ↔ l = .happensBefore ∧ t = b.getPrettyBlockId ∧
      st.prevMainBlock.isSome ∧
      s ∈ (st.depGraph.addNode b.getPrettyBlockId ⟨.MAIN, 0⟩).getSinks := by
  unfold mainCalls
  cases st.prevMainBlock with
  | none => simp
  | some m =>
      simp only [List.mem_map, Std.TreeSet.mem_toList, Prod.mk.injEq, Option.isSome_some, true_and]
      refine ⟨fun ⟨x, hx, hs, ht, hl⟩ => ?_, fun ⟨hl, ht, hs⟩ => ⟨s, hs, rfl, ht.symm, hl.symm⟩⟩
      exact ⟨hl.symm, ht.symm, hs ▸ hx⟩

/-- The five ways a block is entered. -/
theorem enterBlock_cases (st : DepState) (b : Block) :
    (b.isEmptyMain = true ∧ enterBlock st b = (st, false)) ∨
    (b.isEmptyMain = false ∧ b.isMain = true ∧ enterBlock st b =
      ({ beginMain { st with currentContext := b.getPrettyBlockId } b with
          currentBlock := some b }, true)) ∨
    (b.isMain = false ∧ ¬ st.depGraph.HasNode b.getPrettyBlockId ∧
      enterBlock st b = ({ st with currentContext := b.getPrettyBlockId }, false)) ∨
    (b.isMain = false ∧ ∃ info, st.depGraph.getNodeInfo b.getPrettyBlockId = some info ∧
      enterBlock st b = ({ beginEvent { st with currentContext := b.getPrettyBlockId }
          b.getPrettyBlockId info with currentBlock := some b }, true)) := by
  unfold enterBlock
  by_cases he : b.isEmptyMain = true
  · exact .inl ⟨he, by simp [he]⟩
  · rw [Bool.not_eq_true] at he
    refine .inr ?_
    by_cases hm : b.isMain = true
    · exact .inl ⟨he, hm, by simp [he, hm]⟩
    · rw [Bool.not_eq_true] at hm
      refine .inr ?_
      cases hn : st.depGraph.getNodeInfo b.getPrettyBlockId with
      | none => exact .inl ⟨hm, by simp [Graph.HasNode, hn], by simp [he, hm, hn]⟩
      | some info => exact .inr ⟨hm, info, rfl, by simp [he, hm, hn]⟩

/-- The calls of `AddEdge` that an action makes, in their order. -/
def edgeCalls (m : Machine) : Action → List (String × String × EdgeLabel)
  | .enter b =>
      if b.isEmptyMain then []
      else if b.isMain then mainCalls m.st b
      else
        match m.st.depGraph.getNodeInfo b.getPrettyBlockId with
        | none => []
        | some info =>
            if info.nodeObj.eventType = .W then
              m.st.aliveEvents.toList.flatMap
                (wCalls m.st.depGraph info.nodeId info.nodeObj.eventValue)
            else []
  | .expr (.newEvent e) => if m.reading then newEventCalls m.st e else []
  | .expr (.link e) => if m.reading then linkCalls m.st e else []
  | .expr (.submitOp _) | .expr (.trigger _) | .leave _ => []

theorem edgeCalls_main {m : Machine} {b : Block} (he : b.isEmptyMain = false)
    (hm : b.isMain = true) : edgeCalls m (.enter b) = mainCalls m.st b := by
  simp [edgeCalls, he, hm]

theorem edgeCalls_event {m : Machine} {b : Block} {info : EventInfo} (hm : b.isMain = false)
    (hi : m.st.depGraph.getNodeInfo b.getPrettyBlockId = some info) :
    edgeCalls m (.enter b) = if info.nodeObj.eventType = .W then
      m.st.aliveEvents.toList.flatMap
        (wCalls m.st.depGraph info.nodeId info.nodeObj.eventValue) else [] := by
  have he : b.isEmptyMain = false := by simp [Block.isEmptyMain, hm]
  simp [edgeCalls, he, hm, hi]

/-- Entering a block joins the sinks to a main block, or a W event to the waiting ones of its
    value. -/
theorem mem_edgeCalls_enter {m : Machine} {b : Block} {s t : String} {l : EdgeLabel}
    (h : (s, t, l) ∈ edgeCalls m (.enter b)) :
    (b.isEmptyMain = false ∧ b.isMain = true ∧ (s, t, l) ∈ mainCalls m.st b) ∨
    (b.isMain = false ∧ ∃ info a, m.st.depGraph.getNodeInfo b.getPrettyBlockId = some info ∧
      info.nodeObj.eventType = .W ∧ a ∈ m.st.aliveEvents ∧
      (s, t, l) ∈ wCalls m.st.depGraph info.nodeId info.nodeObj.eventValue a) := by
  by_cases he : b.isEmptyMain = true
  · simp [edgeCalls, he] at h
  · rw [Bool.not_eq_true] at he
    by_cases hm : b.isMain = true
    · rw [edgeCalls_main he hm] at h
      exact .inl ⟨he, hm, h⟩
    · rw [Bool.not_eq_true] at hm
      refine .inr ⟨hm, ?_⟩
      cases hi : m.st.depGraph.getNodeInfo b.getPrettyBlockId with
      | none => simp [edgeCalls, he, hm, hi] at h
      | some info =>
          rw [edgeCalls_event hm hi] at h
          split at h
          · rename_i hw
            obtain ⟨a, ha, h⟩ := List.mem_flatMap.mp h
            exact ⟨info, a, rfl, hw, Std.TreeSet.mem_toList.mp ha, h⟩
          · cases h

/-- **What an action does to the graph**: it calls `AddEdge`, alone, after `AddNode` or before
    `PruneEdges`, or it marks a node. -/
theorem step_graph (m : Machine) (a : Action) :
    (m.step a).st.depGraph = m.st.depGraph.addEdges (edgeCalls m a) ∨
    (∃ id obj, (m.step a).st.depGraph =
      (m.st.depGraph.addNode id obj).addEdges (edgeCalls m a)) ∨
    (∃ id, (m.step a).st.depGraph = pruneEdges (m.st.depGraph.addEdges (edgeCalls m a)) id) ∨
    (edgeCalls m a = [] ∧ ∃ id attr, (m.step a).st.depGraph =
      m.st.depGraph.addNodeAttr id attr) := by
  obtain ⟨st, rd⟩ := m
  cases a with
  | enter b =>
      have hst : (Machine.step ⟨st, rd⟩ (.enter b)).st = (enterBlock st b).1 := rfl
      rw [hst]
      rcases enterBlock_cases st b with ⟨he, h⟩ | ⟨he, hm, h⟩ | ⟨hm, hn, h⟩ | ⟨hm, info, hi, h⟩
      · exact .inl (by simp [h, edgeCalls, he])
      · refine .inr (.inl ⟨b.getPrettyBlockId, ⟨.MAIN, 0⟩, ?_⟩)
        rw [h, edgeCalls_main he hm]
        exact beginMain_eq _ b
      · have he : b.isEmptyMain = false := by simp [Block.isEmptyMain, hm]
        have hn : st.depGraph.getNodeInfo b.getPrettyBlockId = none := by
          simpa [Graph.HasNode] using hn
        exact .inl (by simp [h, edgeCalls, he, hm, hn])
      · refine .inr (.inr (.inl ⟨b.getPrettyBlockId, ?_⟩))
        rw [h, edgeCalls_event hm hi, ← connectWithWEvents_eq]
        rfl
  | leave b =>
      cases rd with
      | false => exact .inl rfl
      | true => exact .inr (.inr (.inr ⟨rfl, b.getPrettyBlockId, executedAttr, rfl⟩))
  | expr e =>
      cases rd with
      | false => exact .inl (by cases e <;> rfl)
      | true =>
          cases e with
          | submitOp e => exact .inl rfl
          | trigger e => exact .inl rfl
          | newEvent e =>
              exact .inr (.inl ⟨toString e.eventId, e.event, analyzeNewEvent_eq st e⟩)
          | link e => exact .inl (congrArg DepState.depGraph (analyzeLink_eq st e))

/-- A new edge is a call of the action, from a node. -/
theorem edge_step {m : Machine} {a : Action} {s t : String}
    (he : (m.step a).st.depGraph.Edge s t) : m.st.depGraph.Edge s t ∨
      s ≠ t ∧ (m.step a).st.depGraph.HasNode s ∧ ∃ l, (s, t, l) ∈ edgeCalls m a := by
  rcases step_graph m a with h | ⟨id, obj, h⟩ | ⟨id, h⟩ | ⟨_, id, attr, h⟩ <;> rw [h] at he ⊢
  · rw [Graph.hasNode_addEdges]
    exact Graph.edge_addEdges.mp he
  · rw [Graph.edge_addEdges, Graph.edge_addNode] at he
    rw [Graph.hasNode_addEdges]
    exact he
  · obtain ⟨l, he⟩ := he
    have he := Graph.edge_addEdges.mp ⟨l, (((pruneEdges_spec _ _).2 s t l).mp he).1⟩
    rw [(pruneEdges_spec _ _).1.hasNode, Graph.hasNode_addEdges]
    exact he
  · exact .inl (Graph.edge_addNodeAttr.mp he)

/-- The four primitives that build the graph. -/
inductive GraphStep : DepGraph → DepGraph → Prop where
  | addNode (g : DepGraph) (id : String) (obj : Event) : GraphStep g (g.addNode id obj)
  | addEdge (g : DepGraph) (s t : String) (l : EdgeLabel) : GraphStep g (g.addEdge s t l)
  | addNodeAttr (g : DepGraph) (id attr : String) : GraphStep g (g.addNodeAttr id attr)
  | prune (g : DepGraph) (id : String) : GraphStep g (pruneEdges g id)

/-- A chain of primitive steps. -/
abbrev GraphSteps : DepGraph → DepGraph → Prop := Relation.ReflTransGen GraphStep

theorem graphSteps_addEdges (g : DepGraph) (calls : List (String × String × EdgeLabel)) :
    GraphSteps g (g.addEdges calls) := by
  unfold Graph.addEdges
  induction calls generalizing g with
  | nil => exact .refl
  | cons c calls ih => exact .head (.addEdge g c.1 c.2.1 c.2.2) (ih _)

/-- **Every action is a chain of primitive steps on the graph.** -/
theorem graphSteps_step (m : Machine) (a : Action) :
    GraphSteps m.st.depGraph (m.step a).st.depGraph := by
  rcases step_graph m a with h | ⟨id, obj, h⟩ | ⟨id, h⟩ | ⟨_, id, attr, h⟩ <;> rw [h]
  · exact graphSteps_addEdges _ _
  · exact .head (.addNode _ id obj) (graphSteps_addEdges _ _)
  · exact (graphSteps_addEdges _ _).tail (.prune _ id)
  · exact .single (.addNodeAttr _ id attr)

theorem graphSteps_run (p q : List Action) :
    GraphSteps (run p).st.depGraph (run (p ++ q)).st.depGraph := by
  induction q using List.reverseRecOn with
  | nil => rw [List.append_nil]
  | append_singleton q a ih =>
      rw [← List.append_assoc, run_append_singleton]
      exact ih.trans (graphSteps_step _ a)

/-- What the four primitives keep holds after every run. -/
theorem run_induction {P : DepGraph → Prop} (h0 : P .empty)
    (hstep : ∀ g g', GraphStep g g' → P g → P g') (p : List Action) : P (run p).st.depGraph := by
  have h := graphSteps_run [] p
  rw [List.nil_append] at h
  generalize (run p).st.depGraph = g at h ⊢
  induction h with
  | refl => exact h0
  | tail _ hs ih => exact hstep _ _ hs ih

end Fsracer

/-
  File:      Fsracer/DependencyInference.lean
  Subject:   THE DEPENDENCY ANALYZER (lib/DependencyInferenceAnalyzer.h and .cpp).

  `analyzeTrace` walks the blocks of a trace and builds the dependency graph of events. The state
  `DepState` has the private fields of the class; `currentBlock` and `prevMainBlock` are the
  pointers, `none` for `nullptr`.

  `AnalyzeBlock` is cut where the expressions of the block start and end: `enterBlock` returns
  the state at that moment and whether the block is analysed at all, `leaveBlock` is what follows
  the loop.
-/
import Mathlib
import Fsracer.Trace
import Fsracer.Graph

namespace Fsracer

/-! ## 1. The dependency graph -/

/-- `EdgeLabel`. -/
inductive EdgeLabel where
  | creates
  | happensBefore
  deriving DecidableEq, Repr, Ord

instance : Std.TransOrd EdgeLabel where
  eq_swap {a b} := by cases a <;> cases b <;> rfl
  isLE_trans {a b c} := by cases a <;> cases b <;> cases c <;> decide

instance : Std.LawfulEqOrd EdgeLabel where
  compare_self {a} := by cases a <;> rfl
  eq_of_compare {a b} := by cases a <;> cases b <;> decide

/-- `dep_graph_t`. -/
abbrev DepGraph := Graph Event EdgeLabel

/-- `EventInfo`. -/
abbrev EventInfo := Node Event EdgeLabel

/-- `#define EXECUTED_ATTR "EXECUTED"`. -/
def executedAttr : String := "EXECUTED"

/-- The fields of `DependencyInferenceAnalyzer`. -/
structure DepState where
  depGraph : DepGraph
  aliveEvents : Std.TreeSet String
  currentBlock : Option Block
  prevMainBlock : Option Block
  pendingEv : String
  currentContext : String

/-- The state the constructor sets up. -/
def DepState.init : DepState where
  depGraph := .empty
  aliveEvents := ∅
  currentBlock := none
  prevMainBlock := none
  pendingEv := ""
  currentContext := "MAIN_1"

/-- `current_block->GetPrettyBlockId()`. Expressions are analysed inside a block only, so the
    pointer is set wherever the source reads it. -/
def DepState.currentBlockId (st : DepState) : String :=
  match st.currentBlock with
  | some b => b.getPrettyBlockId
  | none => ""

/-! ## 2. Priorities of events -/

/-- `ProceedSEvent`. -/
def proceedSEvent (g : DepGraph) (newEvent oldEvent : EventInfo) : DepGraph :=
  g.addEdge oldEvent.nodeId newEvent.nodeId .happensBefore

/-- `ProceedMEvent`. -/
def proceedMEvent (g : DepGraph) (newEvent oldEvent : EventInfo) : DepGraph :=
  match newEvent.nodeObj.eventType with
  | .S | .MAIN => g.addEdge newEvent.nodeId oldEvent.nodeId .happensBefore
  | .M =>
      if newEvent.nodeObj.eventValue < oldEvent.nodeObj.eventValue then
        g.addEdge newEvent.nodeId oldEvent.nodeId .happensBefore
      else g.addEdge oldEvent.nodeId newEvent.nodeId .happensBefore
  | .W | .EXT => g.addEdge oldEvent.nodeId newEvent.nodeId .happensBefore

/-- `ProceedWEvent`. -/
def proceedWEvent (g : DepGraph) (newEvent oldEvent : EventInfo) : DepGraph :=
  match newEvent.nodeObj.eventType with
  | .S | .MAIN | .M => g.addEdge newEvent.nodeId oldEvent.nodeId .happensBefore
  | .EXT =>
      if oldEvent.nodeObj.eventValue ≠ 0 then
        g.addEdge oldEvent.nodeId newEvent.nodeId .happensBefore
      else g
  | .W => g

/-- `ProceedEXTEvent`. -/
def proceedEXTEvent (g : DepGraph) (newEvent oldEvent : EventInfo) : DepGraph :=
  match newEvent.nodeObj.eventType with
  | .S | .MAIN | .M => g.addEdge newEvent.nodeId oldEvent.nodeId .happensBefore
  | .W | .EXT => g

/-- The loop body of `AddDependencies`. -/
def addDependency (blockId eventId : String) (event : Event) (g : DepGraph)
    (aliveEvId : String) : DepGraph :=
  match g.getNodeInfo aliveEvId with
  | none => g
  | some eventInfo =>
      if blockId = eventInfo.nodeId then g
      else
        let newEventInfo : EventInfo := { nodeId := eventId, nodeObj := event }
        match eventInfo.nodeObj.eventType with
        | .S | .MAIN => proceedSEvent g newEventInfo eventInfo
        | .M => proceedMEvent g newEventInfo eventInfo
        | .W => proceedWEvent g newEventInfo eventInfo
        | .EXT => proceedEXTEvent g newEventInfo eventInfo

/-- `AddDependencies`. -/
def addDependencies (g : DepGraph) (aliveEvents : Std.TreeSet String) (blockId eventId : String)
    (event : Event) : DepGraph :=
  aliveEvents.toList.foldl (addDependency blockId eventId event) g

/-- The loop body of `ConnectWithWEvents`. -/
def connectWithWEvent (eventInfo : EventInfo) (g : DepGraph) (aliveEvId : String) : DepGraph :=
  match g.getNodeInfo aliveEvId with
  | none => g
  | some ei =>
      match ei.nodeObj.eventType with
      | .W =>
          if ei.nodeObj.eventValue = eventInfo.nodeObj.eventValue then
            g.addEdge eventInfo.nodeId ei.nodeId .happensBefore
          else g
      | .S | .MAIN | .M | .EXT => g

/-- `ConnectWithWEvents`. -/
def connectWithWEvents (g : DepGraph) (aliveEvents : Std.TreeSet String)
    (eventInfo : EventInfo) : DepGraph :=
  match eventInfo.nodeObj.eventType with
  | .W => aliveEvents.toList.foldl (connectWithWEvent eventInfo) g
  | .S | .MAIN | .M | .EXT => g

/-! ## 3. Pruning -/

/-- The inner loop of `PruneEdges`. -/
def pruneNext (eventInfo : EventInfo) (g : DepGraph) (next : String) : DepGraph :=
  match g.getNodeInfo next with
  | none => g
  | some nextevInfo =>
      eventInfo.after.toList.foldl
        (fun g prev =>
          if prev ∈ nextevInfo.after then g.removeEdge prev next .happensBefore else g) g

/-- `PruneEdges`. -/
def pruneEdges (g : DepGraph) (eventId : String) : DepGraph :=
  match g.getNodeInfo eventId with
  | none => g
  | some eventInfo => eventInfo.before.toList.foldl (pruneNext eventInfo) g

/-! ## 4. Expressions -/

/-- `AnalyzeNewEvent`. -/
def analyzeNewEvent (st : DepState) (newEvent : NewEventExpr) : DepState :=
  let blockId := st.currentBlockId
  let eventId := toString newEvent.eventId
  let g := st.depGraph.addNode eventId newEvent.event
  -- the pending event is consumed by the first event that is created after it was set
  let g := if st.pendingEv ≠ "" then g.addEdge st.pendingEv eventId .happensBefore else g
  let g := g.addEdge blockId eventId .creates
  let g := addDependencies g st.aliveEvents blockId eventId newEvent.event
  { st with depGraph := g, pendingEv := "", aliveEvents := st.aliveEvents.insert eventId }

/-- `AnalyzeLink`. -/
def analyzeLink (st : DepState) (linkExpr : LinkExpr) : DepState :=
  let sourceEv := toString linkExpr.sourceEv
  if sourceEv = st.currentBlockId ∨ sourceEv = st.currentContext then st
  else
    { st with
      depGraph := st.depGraph.addEdge sourceEv (toString linkExpr.targetEv) .happensBefore }

/-- `AnalyzeTrigger`. The assignment of a `size_t` to a `std::string` picks
    `string::operator=(char)`: the context becomes ONE character, the low byte of the id. -/
def analyzeTrigger (st : DepState) (triggerExpr : Trigger) : DepState :=
  { st with currentContext := String.singleton (Char.ofNat (triggerExpr.eventId % 256)) }

/-- `AnalyzeExpr`: the visitor's dispatch; `AnalyzeSubmitOp` is empty. -/
def analyzeExpr (st : DepState) : Expr → DepState
  | .submitOp _ => st
  | .newEvent e => analyzeNewEvent st e
  | .link e => analyzeLink st e
  | .trigger e => analyzeTrigger st e

/-! ## 5. Blocks -/

/-- The part of `AnalyzeBlock` for a block of a known event. A block whose event was executed
    before makes the previous block pending. -/
def beginEvent (st : DepState) (blockId : String) (eventInfo : EventInfo) : DepState :=
  { st with
    depGraph := pruneEdges (connectWithWEvents st.depGraph st.aliveEvents eventInfo) blockId
    pendingEv :=
      if executedAttr ∈ eventInfo.attributes then
        match st.currentBlock with
        | some b => b.getPrettyBlockId
        | none => st.pendingEv
      else st.pendingEv }

/-- The part of `AnalyzeBlock` for a main block. -/
def beginMain (st : DepState) (block : Block) : DepState :=
  let blockId := block.getPrettyBlockId
  let g := st.depGraph.addNode blockId ⟨.MAIN, 0⟩
  { st with
    depGraph :=
      match st.prevMainBlock with
      | some _ => g.getSinks.toList.foldl (fun g sink => g.addEdge sink blockId .happensBefore) g
      | none => g
    prevMainBlock := some block }

/-- `AnalyzeBlock` up to its loop: the state in which the first expression is analysed, and
    whether the loop is reached. -/
def enterBlock (st : DepState) (block : Block) : DepState × Bool :=
  if block.isEmptyMain then (st, false)
  else
    let blockId := block.getPrettyBlockId
    let st := { st with currentContext := blockId }
    if block.isMain then ({ beginMain st block with currentBlock := some block }, true)
    else
      match st.depGraph.getNodeInfo blockId with
      | none => (st, false)
      | some eventInfo =>
          ({ beginEvent st blockId eventInfo with currentBlock := some block }, true)

/-- `AnalyzeBlock` behind its loop: `RemoveAliveEvent` and `AddNodeAttr`. -/
def leaveBlock (st : DepState) (block : Block) : DepState :=
  { st with
    aliveEvents := st.aliveEvents.erase block.getPrettyBlockId
    depGraph := st.depGraph.addNodeAttr block.getPrettyBlockId executedAttr }

/-- `AnalyzeBlock`. -/
def analyzeBlock (st : DepState) (block : Block) : DepState :=
  match enterBlock st block with
  | (st, false) => st
  | (st, true) => leaveBlock (block.exprs.foldl analyzeExpr st) block

/-- `AnalyzeTrace`, from the state of the constructor. -/
def inferTrace (trace : Trace) : DepState := trace.blocks.foldl analyzeBlock .init

/-- `GetDependencyGraph` after the analysis of a trace. -/
def dependencyGraph (trace : Trace) : DepGraph := (inferTrace trace).depGraph

end Fsracer

/-
  File:      Fsracer/Trace.lean
  Subject:   TRACES (lib/Trace.h, lib/Trace.cpp).

  A `Trace` is a list of `ExecOp` definitions and a list of execution blocks; a block holds the
  expressions its callback emitted. Every class keeps the fields the analyzers, the dumper and
  the parser read.
-/
import Mathlib
import Fsracer.Operation

namespace Fsracer

/-- `DebugInfo`: the vector of tags. -/
abbrev DebugInfo := List String

/-- `DebugInfo::ToString`: every tag is printed after " !". -/
def debugInfoStr : DebugInfo → String
  | [] => ""
  | debug :: rest => " !" ++ debug ++ debugInfoStr rest

/-! ## 1. Events -/

/-- `Event::EventType`: strong, medium, weak, external, and the type of the main blocks. -/
inductive EventType where
  | S
  | M
  | W
  | EXT
  | MAIN
  deriving DecidableEq, Repr

/-- `Event`: the type and the priority number inside the type. -/
structure Event where
  eventType : EventType
  eventValue : Nat
  deriving DecidableEq, Repr

/-- `Event::ToString`. -/
def Event.toStr (e : Event) : String :=
  match e.eventType with
  | .S => "S " ++ toString e.eventValue
  | .M => "M " ++ toString e.eventValue
  | .W => "W " ++ toString e.eventValue
  | .MAIN => "MAIN"
  | .EXT => "EXTERNAL"

/-! ## 2. Expressions -/

/-- `SubmitOp`. The two constructors of the class set the type from the presence of the event
    id: it is `ASYNC` with one and `SYNC` without. -/
structure SubmitOp where
  opId : String
  eventId : Option Nat
  debugInfo : DebugInfo := []
  deriving DecidableEq, Repr

/-- `SubmitOp::Type`. -/
inductive SubmitType where
  | async
  | sync
  deriving DecidableEq, Repr

/-- `SubmitOp::GetType`. -/
def SubmitOp.getType (op : SubmitOp) : SubmitType :=
  match op.eventId with
  | some _ => .async
  | none => .sync

/-- `SubmitOp::ToString`. -/
def SubmitOp.toStr (op : SubmitOp) : String :=
  match op.eventId with
  | some e => "submitOp " ++ op.opId ++ " " ++ toString e ++ " ASYNC" ++ debugInfoStr op.debugInfo
  | none => "submitOp " ++ op.opId ++ " SYNC" ++ debugInfoStr op.debugInfo

/-- `NewEventExpr`. -/
structure NewEventExpr where
  eventId : Nat
  event : Event
  debugInfo : DebugInfo := []
  deriving DecidableEq, Repr

/-- `NewEventExpr::ToString`. -/
def NewEventExpr.toStr (e : NewEventExpr) : String :=
  "newEvent " ++ toString e.eventId ++ " " ++ e.event.toStr ++ debugInfoStr e.debugInfo

/-- `LinkExpr`. -/
structure LinkExpr where
  sourceEv : Nat
  targetEv : Nat
  debugInfo : DebugInfo := []
  deriving DecidableEq, Repr

/-- `LinkExpr::ToString`: the tags of the expression are not printed. -/
def LinkExpr.toStr (e : LinkExpr) : String :=
  "link " ++ toString e.sourceEv ++ " " ++ toString e.targetEv

/-- `Trigger`. -/
structure Trigger where
  eventId : Nat
  debugInfo : DebugInfo := []
  deriving DecidableEq, Repr

/-- `Trigger::ToString`: the tags of the expression are not printed. -/
def Trigger.toStr (e : Trigger) : String := "trigger " ++ toString e.eventId

/-- `Expr`: the four classes of trace expressions. -/
inductive Expr where
  | submitOp (e : SubmitOp)
  | newEvent (e : NewEventExpr)
  | link (e : LinkExpr)
  | trigger (e : Trigger)
  deriving DecidableEq, Repr

/-- `Expr::ToString`. -/
def Expr.toStr : Expr → String
  | .submitOp e => e.toStr
  | .newEvent e => e.toStr
  | .link e => e.toStr
  | .trigger e => e.toStr

/-! ## 3. Blocks, operation definitions, traces -/

/-- `Block::Type`. -/
inductive BlockType where
  | REG
  | MAIN
  deriving DecidableEq, Repr

/-- `Block`: the execution of one event, or a part of the main program. -/
structure Block where
  blockId : Nat
  blockType : BlockType
  exprs : List Expr
  deriving DecidableEq, Repr

namespace Block

/-- `Block::IsMain`. -/
def isMain (b : Block) : Bool := decide (b.blockType = .MAIN)

/-- `Block::GetPrettyBlockId`. -/
def getPrettyBlockId (b : Block) : String :=
  match b.blockType with
  | .REG => toString b.blockId
  | .MAIN => "MAIN_" ++ toString b.blockId

/-- The test with which every analyzer drops a block: a main block without expressions. -/
def isEmptyMain (b : Block) : Bool := b.exprs.isEmpty && b.isMain

end Block

/-- `ExecOp`: the operations that one submitted operation performs. -/
structure ExecOp where
  id : String
  operations : List Operation
  deriving DecidableEq, Repr

/-- `ExecOp::ToString`. -/
def ExecOp.toStr (op : ExecOp) : String :=
  op.operations.foldl (fun str o => str ++ o.toStr ++ "\n") ("Operation " ++ op.id ++ " do\n")
    ++ "done"

/-- `Trace`. -/
structure Trace where
  threadId : Nat
  cwd : String
  execOps : List ExecOp
  blocks : List Block
  deriving DecidableEq, Repr

/-! ## 4. Block ids -/

theorem toString_nat_inj {m n : Nat} : toString m = toString n ↔ m = n := Nat.repr_inj

/-- A printed number holds digits only. -/
theorem isDigit_of_mem_toString {n : Nat} {c : Char} (h : c ∈ (toString n).toList) :
    c.isDigit = true := by
  have hc : c ∈ Nat.toDigits 10 n := by simpa using h
  exact Nat.isDigit_of_mem_toDigits (by omega) (by omega) hc

/-- The id of a main block is the id of no event. -/
theorem main_ne_toString (m n : Nat) : "MAIN_" ++ toString m ≠ toString n := by
  intro h
  have hM : 'M' ∈ (toString n).toList := by rw [← h]; simp
  exact absurd (isDigit_of_mem_toString hM) (by decide)

theorem getPrettyBlockId_reg {b : Block} (h : b.isMain = false) :
    b.getPrettyBlockId = toString b.blockId := by
  cases b with
  | mk i t es => cases t <;> simp_all [Block.isMain, Block.getPrettyBlockId]

theorem getPrettyBlockId_main {b : Block} (h : b.isMain = true) :
    b.getPrettyBlockId = "MAIN_" ++ toString b.blockId := by
  cases b with
  | mk i t es => cases t <;> simp_all [Block.isMain, Block.getPrettyBlockId]

end Fsracer

/-
  File:      Fsracer/Tracer.lean
  Subject:   WHAT THE TRACER DOES, without its store: the main thread writes blocks and submits
             operations, the threads perform them.

  `Pool` is what the threads share: the requests that are submitted and not started, one `Worker`
  for each thread, and the `ExecOp`s of the trace. `System` adds what the main thread keeps; it
  changes the blocks by the `commands` of `BlockBrackets`. `TracerStore` proves that the code is
  this system.
-/
import Mathlib
import Fsracer.NodeGenerator

namespace Fsracer

namespace NodeGenerator

/-! ## 1. The pool of threads -/

/-- One thread: the calls of `uv__fs_work` that it counted, the position of its `ExecOp` and the
    path that it is opening. -/
structure Worker where
  workCount : Option Nat
  current : Option Nat
  opening : Option String
  deriving DecidableEq, Repr

/-- The threads, and the ids of the operations that are submitted under a request. -/
structure Pool where
  execOps : List ExecOp
  pending : Nat → Option String
  worker : Nat → Worker

/-- What a system call is recorded as when it is made. -/
def SysCall.operations : SysCall → List Operation
  | .access path => [⟨.hpath atFdcwd path .consumed, false, "access"⟩]
  | .chmod path => [⟨.hpath atFdcwd path .consumed, false, "chmod"⟩]
  | .chown path => [⟨.hpath atFdcwd path .consumed, false, "chown"⟩]
  | .openFile path flags =>
      [⟨.hpath atFdcwd path (if flags % 4 = 0 then .consumed else .produced), false, "open"⟩]
  | .close fd => [⟨.delFd (fd % 2 ^ 64).toNat, false, "close"⟩]
  | .lchown path => [⟨.hpathSym atFdcwd path .consumed, false, "lchown"⟩]
  | .lstat path => [⟨.hpathSym atFdcwd path .consumed, false, "lstat"⟩]
  | .link oldPath newPath => [⟨.hpathSym atFdcwd oldPath .consumed, false, "link"⟩,
      ⟨.hpathSym atFdcwd newPath .produced, false, "link"⟩,
      ⟨.link atFdcwd oldPath atFdcwd newPath, false, "link"⟩]
  | .mkdir path => [⟨.hpathSym atFdcwd path .produced, false, "mkdir"⟩]
  | .readlink path => [⟨.hpath atFdcwd path .consumed, false, "readlink"⟩]
  | .realpath path => [⟨.hpath atFdcwd path .consumed, false, "realpath"⟩]
  | .rename oldPath newPath => [⟨.hpath atFdcwd oldPath .expunged, false, "rename"⟩,
      ⟨.hpath atFdcwd newPath .produced, false, "rename"⟩,
      ⟨.rename atFdcwd oldPath atFdcwd newPath, false, "rename"⟩]
  | .rmdir path => [⟨.hpath atFdcwd path .expunged, false, "rmdir"⟩]
  | .stat path => [⟨.hpath atFdcwd path .consumed, false, "stat"⟩]
  | .symlink oldPath newPath => [⟨.symlink atFdcwd newPath oldPath, false, "symlink"⟩]
  | .unlink path => [⟨.hpath atFdcwd path .expunged, false, "unlink"⟩]
  | .utime path => [⟨.hpath atFdcwd path .consumed, false, "utime"⟩]

/-- The path that a call opens. -/
def SysCall.opens : SysCall → Option String
  | .openFile path _ => some path
  | _ => none

/-- The calls whose failure is marked when they return. -/
def SysCall.hasStatus : SysCall → Bool
  | .close _ | .link .. | .mkdir _ | .rename .. | .rmdir _ | .symlink .. | .unlink _ => true
  | _ => false

namespace Pool

/-- Nothing is submitted and no thread works. -/
def init : Pool := ⟨[], fun _ => none, fun _ => ⟨none, none, none⟩⟩

/-- A new value for one thread. -/
def setWorker (p : Pool) (thread : Nat) (w : Worker) : Pool :=
  { p with worker := Function.update p.worker thread w }

/-- A change of the `ExecOp` of a thread, if it has one. -/
def edit (p : Pool) (thread : Nat) (f : ExecOp → ExecOp) : Pool :=
  match (p.worker thread).current with
  | some i => { p with execOps := p.execOps.modify i f }
  | none => p

/-- A thread records operations. -/
def record (p : Pool) (thread : Nat) (ops : List Operation) : Pool :=
  p.edit thread fun e => { e with operations := e.operations ++ ops }

/-- An operation is submitted under a request. -/
def submit (p : Pool) (request : Nat) (id : String) : Pool :=
  { p with pending := Function.update p.pending request (some id) }

/-- A thread enters `uv__fs_work` and takes what is submitted under the request. -/
def start (p : Pool) (thread request : Nat) : Pool :=
  let w := p.worker thread
  let w := { w with workCount := some (w.workCount.getD 0 + 1) }
  match p.pending request with
  | none => p.setWorker thread w
  | some id =>
      { p.setWorker thread { w with current := some p.execOps.length } with
        execOps := p.execOps ++ [⟨id, []⟩]
        pending := Function.update p.pending request none }

/-- A thread leaves `uv__fs_work`; with a count above 1 it keeps what it has. -/
def leave (p : Pool) (thread : Nat) : Pool :=
  let w := p.worker thread
  match w.workCount with
  | none => p
  | some n => if n ≤ 1 then p.setWorker thread ⟨none, none, w.opening⟩ else p

/-- A thread makes a system call. -/
def sysCall (p : Pool) (thread : Nat) (call : SysCall) : Pool :=
  let p := p.record thread call.operations
  match call.opens with
  | some path => p.setWorker thread { p.worker thread with opening := some path }
  | none => p

/-- A system call of a thread returns. -/
def sysReturn (p : Pool) (thread : Nat) (call : SysCall) (retVal : Int) : Pool :=
  if call.opens.isSome then
    match (p.worker thread).opening with
    | some path =>
        (p.setWorker thread { p.worker thread with opening := none }).record thread
          [⟨.newFd atFdcwd path retVal, decide (retVal < 0), "open"⟩]
    | none => p
  else if call.hasStatus ∧ retVal < 0 then p.edit thread ExecOp.markLastOperationFailed
  else p

/-- What entering `uv__fs_work` does, when nothing is submitted under the request. -/
theorem start_none {p : Pool} {u request : Nat} (hp : p.pending request = none) :
    p.start u request = p.setWorker u { p.worker u with
      workCount := some ((p.worker u).workCount.getD 0 + 1) } := by
  unfold Pool.start
  dsimp only
  rw [hp]

/-- What it does with a submitted operation. -/
theorem start_some {p : Pool} {u request : Nat} {id : String}
    (hp : p.pending request = some id) :
    p.start u request = { p.setWorker u { p.worker u with
        workCount := some ((p.worker u).workCount.getD 0 + 1)
        current := some p.execOps.length } with
      execOps := p.execOps ++ [⟨id, []⟩]
      pending := Function.update p.pending request none } := by
  unfold Pool.start
  dsimp only
  rw [hp]

end Pool

/-- What happens to the pool. -/
inductive PoolEvent where
  | submit (request : Nat) (id : String)
  | start (thread request : Nat)
  | leave (thread : Nat)
  | sysCall (thread : Nat) (call : SysCall)
  | sysReturn (thread : Nat) (call : SysCall) (retVal : Int)
  deriving DecidableEq, Repr

/-- One event. -/
def Pool.step (p : Pool) : PoolEvent → Pool
  | .submit request id => p.submit request id
  | .start thread request => p.start thread request
  | .leave thread => p.leave thread
  | .sysCall thread call => p.sysCall thread call
  | .sysReturn thread call retVal => p.sysReturn thread call retVal

/-! ## 2. The system -/

/-- The name that is set at the submission. -/
def UvFs.opName : UvFs → String
  | .copyfile => "node_copyFile"
  | .access => "node_access"
  | .chmod => "node_chmod"
  | .chown => "node_chown"
  | .openFile => "node_open"
  | .close => "node_close"
  | .lchown => "node_lchown"
  | .link => "node_link"
  | .lstat => "node_lstat"
  | .mkdir => "node_mkdir"
  | .readlink => "node_readlink"
  | .realpath => "node_realpath"
  | .rename => "node_rename"
  | .rmdir => "node_rmdir"
  | .stat => "node_stat"
  | .symlink => "node_symlink"
  | .unlink => "node_unlink"
  | .utime => "node_utime"

/-- The position of the completion callback among the arguments. -/
def UvFs.asyncPos : UvFs → Nat
  | .close | .lstat | .readlink | .realpath | .rmdir | .stat | .unlink => 3
  | .access | .chmod | .link | .mkdir | .rename => 4
  | .copyfile | .chown | .openFile | .lchown | .symlink | .utime => 5

/-- A submitted operation. -/
structure Submission where
  request : Nat
  id : String
  eventId : Option Nat
  deriving DecidableEq, Repr

/-- The tracer. `started` says that `node::Start` was called. -/
structure System where
  started : Bool
  callStack : List String
  eventCount : Nat
  syncOpCount : Nat
  createdEvent : Option Nat
  promiseEvent : Bool
  timers : List Nat
  blocks : BlockBrackets.TraceGenerator
  pool : Pool

namespace System

/-- Before the first callback. -/
def init : System :=
  ⟨false, [], 0, 0, none, false, [], ⟨[], none, 0, []⟩, .init⟩

/-- The operation that a call of libuv submits: with a callback it is the one of the event that
    was created last. -/
def submission (s : System) (f : UvFs) (args : List Nat) : Option Submission :=
  if getArg args f.asyncPos = 0 then
    some ⟨getArg args 1, "sync_" ++ toString (s.syncOpCount + 1), none⟩
  else s.createdEvent.map fun e => ⟨getArg args 1, "async_" ++ toString e, some e⟩

/-- The number of expressions of the current block. -/
def size (s : System) : Nat := (s.blocks.getCurrentBlock.elim [] Block.exprs).length

/-- The event of an asynchronous operation is tagged, then the operation is submitted. -/
def submitCommands (s : System) (opName : String) (sub : Submission) :
    List BlockBrackets.Callback :=
  (if 2 ≤ s.size ∧ sub.eventId.isSome then
    [.setExprDebugInfo (s.size - 2) "fs", .setExprDebugInfo (s.size - 2) opName]
  else []) ++ [.addExpr (.submitOp ⟨sub.id, sub.eventId, [opName]⟩)]

/-- **What a callback does to the blocks.** -/
def commands (s : System) : Callback → List BlockBrackets.Callback
  | .node (.pushAsyncIds x t) => [.pushAsyncIds x t]
  | .node (.popAsyncId x) => [.popAsyncId x]
  | .node (.emitAsyncInit x t) =>
      if s.callStack.head? = some newTimerWrap then
        [.addExpr (.newEvent ⟨x, ⟨.W, 0⟩, ["timerWrap"]⟩)]
      else if s.promiseEvent then [.addPromise x]
      else [.addExpr (.newEvent ⟨x, ⟨.EXT, 0⟩, []⟩), .addExpr (.link ⟨t, x, []⟩)]
  | .node .timerWrapNow =>
      [.popExpr, .addExpr (.newEvent ⟨s.eventCount, ⟨.W, 1⟩, ["setTimeout"]⟩)]
  | .node (.emitPromiseResolve x) => [.addExpr (.newEvent ⟨x, ⟨.S, 0⟩, ["promise"]⟩)]
  | .node .newAsyncId =>
      [.addExpr (.newEvent ⟨s.eventCount + 1, ⟨.W, 3⟩, ["setImmediate"]⟩)]
  | .node .newTickInfo =>
      [.popExpr, .addExpr (.newEvent ⟨s.eventCount, ⟨.S, 0⟩, ["nextTick"]⟩)]
  | .thenable => [.popExpr]
  | .uvFs f args => (s.submission f args).elim [] (s.submitCommands f.opName)
  | _ => []

/-- The function that a callback pushes or pops. -/
def nextStack (s : System) : Callback → List String
  | .node call => call.funcName :: s.callStack
  | .nodeReturn => s.callStack.tail
  | _ => s.callStack

/-- The callbacks that count an event. -/
def nextEventCount (s : System) : Callback → Nat
  | .node .start | .node (.emitAsyncInit ..) | .node (.emitPromiseResolve _) | .node .newAsyncId =>
      s.eventCount + 1
  | _ => s.eventCount

/-- The synchronous operations that are submitted. -/
def nextSyncOpCount (s : System) : Callback → Nat
  | .uvFs f args => if getArg args f.asyncPos = 0 then s.syncOpCount + 1 else s.syncOpCount
  | _ => s.syncOpCount

/-- The event whose operation is to be submitted. -/
def nextCreatedEvent (s : System) : Callback → Option Nat
  | .node (.emitAsyncInit x _) =>
      if s.callStack.head? = some newTimerWrap ∨ s.promiseEvent then s.createdEvent else some x
  | .uvFs f args => if getArg args f.asyncPos = 0 then s.createdEvent else none
  | _ => s.createdEvent

/-- Whether the next event is a promise. -/
def nextPromiseEvent (s : System) : Callback → Bool
  | .node .promiseWrapNew => true
  | .node (.emitAsyncInit ..) => decide (s.callStack.head? = some newTimerWrap) && s.promiseEvent
  | _ => s.promiseEvent

/-- The set of timers. -/
def nextTimers (s : System) : Callback → List Nat
  | .node .start => []
  | .node .timerWrapNow => s.eventCount :: s.timers
  | _ => s.timers

/-- Whether `node::Start` was called. -/
def nextStarted (s : System) : Callback → Bool
  | .node .start => true
  | _ => s.started

/-- The blocks: a call of `node::Start` begins with a main block and no promises. -/
def nextBlocks (s : System) : Callback → BlockBrackets.TraceGenerator
  | .node .start => BlockBrackets.addMainBlock { s.blocks with promiseSet := [] }
  | c => (s.commands c).foldl BlockBrackets.step s.blocks

/-- **What a callback does to the pool.** -/
def poolEvents (s : System) : Callback → List PoolEvent
  | .uvFs f args => ((s.submission f args).map fun sub => .submit sub.request sub.id).toList
  | .uvFsWork thread ptr => [.start thread (ptr - workerOffset)]
  | .uvFsWorkReturn thread => [.leave thread]
  | .sysCall thread call => [.sysCall thread call]
  | .sysReturn thread call retVal => [.sysReturn thread call retVal]
  | .node _ | .nodeReturn | .thenable => []

/-- The operation that a callback submits, with its request. -/
def submitted (s : System) : Callback → List (Nat × String)
  | .uvFs f args => ((s.submission f args).map fun sub => (sub.request, sub.id)).toList
  | _ => []

/-- What is still submitted under the request when a callback submits another operation. -/
def overwritten (s : System) : Callback → List (Nat × String)
  | .uvFs f args => (s.submission f args).elim [] fun sub =>
      ((s.pool.pending sub.request).map (sub.request, ·)).toList
  | _ => []

/-- One callback. -/
def step (s : System) (c : Callback) : System where
  started := s.nextStarted c
  callStack := s.nextStack c
  eventCount := s.nextEventCount c
  syncOpCount := s.nextSyncOpCount c
  createdEvent := s.nextCreatedEvent c
  promiseEvent := s.nextPromiseEvent c
  timers := s.nextTimers c
  blocks := s.nextBlocks c
  pool := (s.poolEvents c).foldl Pool.step s.pool

/-- **A run of the system.** -/
def run (cs : List Callback) : System := cs.foldl step init

theorem run_snoc (cs : List Callback) (c : Callback) : run (cs ++ [c]) = (run cs).step c :=
  List.foldl_concat ..

end System

end NodeGenerator

end Fsracer

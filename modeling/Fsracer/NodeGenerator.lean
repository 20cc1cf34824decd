/-
  File:      Fsracer/NodeGenerator.lean
  Subject:   THE NODE TRACER (tools/drfsracer/NodeGenerator.cpp, DynamoTraceGenerator.cpp and .h).

  The wrappers of one process: those of Node and libuv, which the main thread calls, and those of
  `uv__fs_work` and of the system calls, which every thread calls. They share the trace, the
  string-keyed store of `void *` and the call stack of one `DynamoTraceGenerator`. A callback is
  one step; a run is any interleaving of the callbacks of all threads.

  * `AbortWithErr` and undefined behaviour (a null pointer, `top()` of an empty stack, a cast to
    another type than that of the stored value) end a run: `Halt`;
  * a pointer to a block or an `ExecOp` of the trace is its position there, a pointer into the
    program is a number. Async ids are not negative.

  NOT here: the timer, the registration of symbols with DynamoRIO and the table from addresses
  to function names that it fills; a call is known by its name.
-/
import Mathlib
import Fsracer.BlockBrackets
import Fsracer.UvFsWork

namespace Fsracer

/-! ## 1. Errors and texts of traces -/

/-- `utils::err::ErrType`. -/
inductive ErrType where
  | RUNTIME
  | TRACE_ERROR
  | ANALYZER_ERROR
  deriving DecidableEq, Repr

/-- `ErrToString`. -/
def errToString : ErrType → String
  | .RUNTIME => "Runtime Error"
  | .TRACE_ERROR => "Trace Error"
  | .ANALYZER_ERROR => "Analyzer Error"

/-- `utils::err::Error`. -/
structure Error where
  errType : ErrType
  msg : String
  desc : String
  location : String
  deriving DecidableEq, Repr

/-- `Error::ToString`. -/
def Error.toStr (e : Error) : String :=
  (if e.desc ≠ "" then e.desc ++ "\n" else "") ++ errToString e.errType ++
    (if e.msg ≠ "" then ": " ++ e.msg else "") ++
    (if e.location ≠ "" then " (location: " ++ e.location ++ ")" else "")

/-- `Block::ToString`. -/
def Block.toStr (b : Block) : String :=
  b.exprs.foldl (fun str e => str ++ e.toStr ++ "\n") ("Begin " ++ b.getPrettyBlockId ++ "\n")
    ++ "end"

/-- `Trace::ToString`. -/
def Trace.toStr (t : Trace) : String :=
  t.blocks.foldl (fun str b => str ++ b.toStr ++ "\n")
    (t.execOps.foldl (fun str e => str ++ e.toStr ++ "\n") "")

/-- `ExecOp::MarkLastOperationFailed`. -/
def ExecOp.markLastOperationFailed (e : ExecOp) : ExecOp :=
  { e with operations := e.operations.modify (e.operations.length - 1) Operation.markFailed }

namespace NodeGenerator

open BlockBrackets (addDebugInfo)
open UvFsWork (countKey threadKey opKey)

/-! ## 2. The generator -/

/-- What a `void *` of the store points to. A `set<int>` is the list of what was inserted. -/
inductive StoreValue where
  | eventId (id : Nat)
  | isPromise (b : Bool)
  | idSet (ids : List Nat)
  | opId (id : String)
  | workCount (n : Nat)
  | execOp (position : Nat)
  | path (p : String)
  deriving DecidableEq, Repr

namespace StoreValue

/-- The casts of the wrappers. -/
def asEventId : StoreValue → Option Nat
  | .eventId id => some id
  | _ => none

@[inherit_doc asEventId]
def asIsPromise : StoreValue → Option Bool
  | .isPromise b => some b
  | _ => none

@[inherit_doc asEventId]
def asIdSet : StoreValue → Option (List Nat)
  | .idSet ids => some ids
  | _ => none

@[inherit_doc asEventId]
def asOpId : StoreValue → Option String
  | .opId id => some id
  | _ => none

@[inherit_doc asEventId]
def asWorkCount : StoreValue → Option Nat
  | .workCount n => some n
  | _ => none

@[inherit_doc asEventId]
def asExecOp : StoreValue → Option Nat
  | .execOp i => some i
  | _ => none

@[inherit_doc asEventId]
def asPath : StoreValue → Option String
  | .path p => some p
  | _ => none

end StoreValue

/-- `DynamoTraceGenerator`. -/
structure TraceGenerator where
  trace : Trace
  currentBlock : Option Nat
  eventCount : Nat
  syncOpCount : Nat
  mainBlockCount : Nat
  store : Table String StoreValue compare
  callStack : List String

/-- How a callback ends the process. -/
inductive Halt where
  | aborted (e : Error)
  | undefined
  deriving DecidableEq, Repr

/-- A step of the generator. -/
abbrev Result := Except Halt TraceGenerator

namespace TraceGenerator

/-- The constructor; the thread id and the directory are set when the module is loaded. -/
def init (threadId : Nat) (cwd : String) : TraceGenerator :=
  ⟨⟨threadId, cwd, [], []⟩, none, 0, 0, 0, ∅, []⟩

/-- `AddToStore`. -/
def addToStore (g : TraceGenerator) (key : String) (value : StoreValue) : TraceGenerator :=
  { g with store := g.store.addEntry key value }

/-- `GetStoreValue`. -/
def getStoreValue (g : TraceGenerator) (key : String) : Option StoreValue := g.store.getValue key

/-- `DeleteFromStore`. -/
def deleteFromStore (g : TraceGenerator) (key : String) : TraceGenerator :=
  { g with store := g.store.erase key }

/-- `GetStoreValue` with the cast of the value; the null pointer is cast to itself. -/
def getAs {α : Type} (cast : StoreValue → Option α) (g : TraceGenerator) (key : String) :
    Except Halt (Option α) :=
  match g.getStoreValue key with
  | none => .ok none
  | some value =>
      match cast value with
      | some a => .ok (some a)
      | none => .error .undefined

/-- `PopFromStore` with the cast of the value. -/
def popAs {α : Type} (cast : StoreValue → Option α) (g : TraceGenerator) (key : String) :
    Except Halt (Option α × TraceGenerator) := do
  return (← g.getAs cast key, g.deleteFromStore key)

/-- `TopStack`. -/
def topStack (g : TraceGenerator) : Except Halt String :=
  match g.callStack with
  | name :: _ => .ok name
  | [] => .error .undefined

/-- `PushFunction`. -/
def pushFunction (g : TraceGenerator) (name : String) : TraceGenerator :=
  { g with callStack := name :: g.callStack }

/-- `PopStack`. -/
def popStack (g : TraceGenerator) : TraceGenerator := { g with callStack := g.callStack.tail }

/-- `GetCurrentBlock`. -/
def getCurrentBlock (g : TraceGenerator) : Option Block :=
  g.currentBlock.bind (g.trace.blocks[·]?)

/-- `SetCurrentBlock` and `AddBlock` of a new block. -/
def openBlock (g : TraceGenerator) (b : Block) : TraceGenerator :=
  { g with
    trace := { g.trace with blocks := g.trace.blocks ++ [b] }
    currentBlock := some g.trace.blocks.length }

/-- `Trace::PopBlock`. -/
def popBlock (g : TraceGenerator) : TraceGenerator :=
  { g with trace := { g.trace with blocks := g.trace.blocks.dropLast } }

/-- A change of the expressions of the current block. -/
def editBlock (g : TraceGenerator) (edit : List Expr → List Expr) : TraceGenerator :=
  match g.currentBlock with
  | some i =>
      { g with trace := { g.trace with
          blocks := g.trace.blocks.modify i fun b => { b with exprs := edit b.exprs } } }
  | none => g

/-- `Block::AddExpr` of the current block. -/
def addExpr (g : TraceGenerator) (e : Expr) : TraceGenerator := g.editBlock fun es => es ++ [e]

/-- `Block::PopExpr` of the current block. -/
def popExpr (g : TraceGenerator) : TraceGenerator := g.editBlock List.dropLast

/-- `Block::SetExprDebugInfo` of the current block. -/
def setExprDebugInfo (g : TraceGenerator) (index : Nat) (tag : String) : TraceGenerator :=
  g.editBlock fun es => es.modify index (addDebugInfo tag)

/-- A change of an `ExecOp` of the trace. -/
def editExecOp (g : TraceGenerator) (i : Nat) (edit : ExecOp → ExecOp) : TraceGenerator :=
  { g with trace := { g.trace with execOps := g.trace.execOps.modify i edit } }

/-- `Trace::AddExecOp`. -/
def addExecOp (g : TraceGenerator) (e : ExecOp) : TraceGenerator :=
  { g with trace := { g.trace with execOps := g.trace.execOps ++ [e] } }

/-- `AbortWithErr`. -/
def abortWithErr {α : Type} (g : TraceGenerator) (errType : ErrType) (msg location : String) :
    Except Halt α :=
  .error (.aborted ⟨errType, msg, "Current Trace:\n" ++ g.trace.toStr, location⟩)

end TraceGenerator

open TraceGenerator
open StoreValue (asEventId asIsPromise asIdSet asOpId asWorkCount asExecOp asPath)

/-! ## 3. Keys of the store -/

/-- `PtrToString`: how a stream prints a pointer. -/
def ptrToString (ptr : Nat) : String :=
  if ptr = 0 then "0" else "0x" ++ String.ofList (Nat.toDigits 16 ptr)

/-- `FUNC_ARGS + "wrap_pre_emit_init"`. -/
def emitInitKey : String := "args/wrap_pre_emit_init"

/-- `PROMISE_SET`. -/
def promiseSetKey : String := "promises/set"

/-- `PROMISE_EVENT`. -/
def promiseEventKey : String := "promises/event"

/-- `TIMER_SET`. -/
def timerSetKey : String := "timers/set"

/-- `FUNC_ARGS + "/" + to_string(thread_id) + "/open"`. -/
def openKey (thread : Nat) : String := "args//" ++ toString thread ++ "/open"

/-! ## 4. Wrappers of Node -/

/-- `check_block`. -/
def checkBlock (g : TraceGenerator) (msg : String) : Except Halt Block :=
  match g.getCurrentBlock with
  | some block => .ok block
  | none =>
      let errmsg := "Block points to `NULL`" ++ (if msg ≠ "" then ": " ++ msg else "") ++
        ". Trace is not generated properly." ++
        " Perhaps, a wrapper to a native function is missing"
      g.abortWithErr .RUNTIME errmsg "check_block"

/-- `add_to_set`. -/
def addToSet (g : TraceGenerator) (eventId : Nat) (key : String) : Result := do
  match ← g.getAs asIdSet key with
  | none => return g
  | some ids => return g.addToStore key (.idSet (eventId :: ids))

/-- `has_event_id`. -/
def hasEventId (g : TraceGenerator) (eventId : Nat) (key : String) : Except Halt Bool := do
  match ← g.getAs asIdSet key with
  | none => return false
  | some ids => return decide (eventId ∈ ids)

/-- `wrap_pre_emit_before`. -/
def wrapPreEmitBefore (g : TraceGenerator) (asyncId triggerAsyncId : Nat) : Result := do
  if asyncId = 0 ∨ asyncId = 1 then return g
  else
    let isPromise ← hasEventId g asyncId promiseSetKey
    let id := if isPromise then triggerAsyncId else asyncId
    match g.getCurrentBlock with
    | some block =>
        if ¬ block.isMain then return g.addExpr (.trigger ⟨asyncId, []⟩)
        else if block.exprs.length = 0 then return g.popBlock.openBlock ⟨id, .REG, []⟩
        else return g.openBlock ⟨id, .REG, []⟩
    | none => return g.openBlock ⟨id, .REG, []⟩

/-- `add_main_block`. -/
def addMainBlock (g : TraceGenerator) : TraceGenerator :=
  let g := { g with mainBlockCount := g.mainBlockCount + 1 }
  g.openBlock ⟨g.mainBlockCount, .MAIN, []⟩

/-- `wrap_pre_emit_after`. -/
def wrapPreEmitAfter (g : TraceGenerator) (asyncId : Nat) : Result := do
  match g.getCurrentBlock with
  | none => return g
  | some block =>
      if block.blockId = asyncId then return addMainBlock g
      else if ← hasEventId g asyncId promiseSetKey then return addMainBlock g
      else return g

/-- `add_new_event_expr`. -/
def addNewEventExpr (g : TraceGenerator) (eventId : Nat) (event : Event) (debugInfo : String)
    (addStore : Bool) : Result := do
  let _ ← checkBlock g ("Create event " ++ toString eventId ++ " " ++ event.toStr)
  let g := g.addExpr (.newEvent ⟨eventId, event, if debugInfo ≠ "" then [debugInfo] else []⟩)
  if addStore then return g.addToStore emitInitKey (.eventId eventId) else return g

/-- `NEW_TIMERWRAP`. -/
def newTimerWrap : String := "node::(anonymous namespace)::TimerWrap::New"

/-- `wrap_pre_emit_init`. -/
def wrapPreEmitInit (g : TraceGenerator) (asyncId triggerAsyncId : Nat) : Result := do
  let g := { g with eventCount := g.eventCount + 1 }
  let topFunc ← g.topStack
  if topFunc = newTimerWrap then
    addNewEventExpr g asyncId ⟨.W, 0⟩ "timerWrap" false
  else
    match ← g.popAs asIsPromise promiseEventKey with
    | (some isPromise, g) =>
        if isPromise then addToSet g asyncId promiseSetKey else return g
    | (none, g) =>
        let g ← addNewEventExpr g asyncId ⟨.EXT, 0⟩ "" true
        return g.addExpr (.link ⟨triggerAsyncId, asyncId, []⟩)

/-- `wrap_pre_start`. -/
def wrapPreStart (g : TraceGenerator) : TraceGenerator :=
  let g := (g.addToStore promiseSetKey (.idSet [])).addToStore timerSetKey (.idSet [])
  let g := addMainBlock g
  { g with eventCount := g.eventCount + 1 }

/-- `wrap_pre_new_tick_info`. -/
def wrapPreNewTickInfo (g : TraceGenerator) : Result := do
  let _ ← checkBlock g ("Create newTick " ++ toString g.eventCount)
  return g.popExpr.addExpr (.newEvent ⟨g.eventCount, ⟨.S, 0⟩, ["nextTick"]⟩)

/-- `wrap_pre_timerwrap`. -/
def wrapPreTimerwrap (g : TraceGenerator) : Result := do
  let _ ← checkBlock g ("Create timerwrap " ++ toString g.eventCount)
  addToSet (g.popExpr.addExpr (.newEvent ⟨g.eventCount, ⟨.W, 1⟩, ["setTimeout"]⟩)) g.eventCount
    timerSetKey

/-- `wrap_pre_promise_resolve`. -/
def wrapPrePromiseResolve (g : TraceGenerator) (asyncId : Nat) : Result := do
  let _ ← checkBlock g ("Resolve promise " ++ toString asyncId)
  let g := { g with eventCount := g.eventCount + 1 }
  return g.addExpr (.newEvent ⟨asyncId, ⟨.S, 0⟩, ["promise"]⟩)

/-- `wrap_pre_thenable`. -/
def wrapPreThenable (g : TraceGenerator) : Result := do
  let _ ← checkBlock g ""
  return g.popExpr

/-- `wrap_pre_promise_wrap`. -/
def wrapPrePromiseWrap (g : TraceGenerator) : TraceGenerator :=
  g.addToStore promiseEventKey (.isPromise true)

/-- `wrap_pre_new_async_id`. -/
def wrapPreNewAsyncId (g : TraceGenerator) : Result := do
  let g := { g with eventCount := g.eventCount + 1 }
  let _ ← checkBlock g ("Create setImmediate " ++ toString g.eventCount)
  return g.addExpr (.newEvent ⟨g.eventCount, ⟨.W, 3⟩, ["setImmediate"]⟩)

/-! ## 5. Wrappers of libuv -/

/-- `drwrap_get_arg`. -/
def getArg (args : List Nat) (pos : Nat) : Nat := args.getD pos 0

/-- The second half of `AddSubmitOp`: the operation is stored under the address of its request
    and submitted in the current block. -/
def submit (g : TraceGenerator) (ptr : Nat) (id : String) (eventId : Option Nat)
    (opName : String) : Result := do
  let block ← checkBlock g ("Submit operation " ++ opName)
  let g := g.addToStore (opKey (ptrToString ptr)) (.opId id)
  let size := block.exprs.length
  let g :=
    if 2 ≤ size ∧ eventId.isSome then
      (g.setExprDebugInfo (size - 2) "fs").setExprDebugInfo (size - 2) opName
    else g
  return g.addExpr (.submitOp ⟨id, eventId, [opName]⟩)

/-- `AddSubmitOp`. -/
def addSubmitOp (g : TraceGenerator) (args : List Nat) (opName : String) (asyncPos : Nat) :
    Result := do
  let ptr := getArg args 1
  let clb := getArg args asyncPos
  if clb = 0 then
    let g := { g with syncOpCount := g.syncOpCount + 1 }
    submit g ptr ("sync_" ++ toString g.syncOpCount) none opName
  else
    match ← g.popAs asEventId emitInitKey with
    | (none, g) => return g
    | (some eventId, g) => submit g ptr ("async_" ++ toString eventId) (some eventId) opName

/-- `wrap_pre_uv_fs_access`. -/
def wrapPreUvFsAccess (g : TraceGenerator) (args : List Nat) : Result :=
  addSubmitOp g args "node_access" 4

/-- `wrap_pre_uv_fs_chmod`. -/
def wrapPreUvFsChmod (g : TraceGenerator) (args : List Nat) : Result :=
  addSubmitOp g args "node_chmod" 4

/-- `wrap_pre_uv_fs_chown`. -/
def wrapPreUvFsChown (g : TraceGenerator) (args : List Nat) : Result :=
  addSubmitOp g args "node_chown" 5

/-- `wrap_pre_uv_fs_copyfile`. -/
def wrapPreUvFsCopyfile (g : TraceGenerator) (args : List Nat) : Result :=
  addSubmitOp g args "node_copyFile" 5

/-- `wrap_pre_uv_fs_close`. -/
def wrapPreUvFsClose (g : TraceGenerator) (args : List Nat) : Result :=
  addSubmitOp g args "node_close" 3

/-- `wrap_pre_uv_fs_lchown`. -/
def wrapPreUvFsLchown (g : TraceGenerator) (args : List Nat) : Result :=
  addSubmitOp g args "node_lchown" 5

/-- `wrap_pre_uv_fs_lstat`. -/
def wrapPreUvFsLstat (g : TraceGenerator) (args : List Nat) : Result :=
  addSubmitOp g args "node_lstat" 3

/-- `wrap_pre_uv_fs_link`. -/
def wrapPreUvFsLink (g : TraceGenerator) (args : List Nat) : Result :=
  addSubmitOp g args "node_link" 4

/-- `wrap_pre_uv_fs_mkdir`. -/
def wrapPreUvFsMkdir (g : TraceGenerator) (args : List Nat) : Result :=
  addSubmitOp g args "node_mkdir" 4

/-- `wrap_pre_uv_fs_open`. -/
def wrapPreUvFsOpen (g : TraceGenerator) (args : List Nat) : Result :=
  addSubmitOp g args "node_open" 5

/-- `wrap_pre_uv_fs_readlink`. -/
def wrapPreUvFsReadlink (g : TraceGenerator) (args : List Nat) : Result :=
  addSubmitOp g args "node_readlink" 3

/-- `wrap_pre_uv_fs_realpath`. -/
def wrapPreUvFsRealpath (g : TraceGenerator) (args : List Nat) : Result :=
  addSubmitOp g args "node_realpath" 3

/-- `wrap_pre_uv_fs_rename`. -/
def wrapPreUvFsRename (g : TraceGenerator) (args : List Nat) : Result :=
  addSubmitOp g args "node_rename" 4

/-- `wrap_pre_uv_fs_rmdir`. -/
def wrapPreUvFsRmdir (g : TraceGenerator) (args : List Nat) : Result :=
  addSubmitOp g args "node_rmdir" 3

/-- `wrap_pre_uv_fs_stat`. -/
def wrapPreUvFsStat (g : TraceGenerator) (args : List Nat) : Result :=
  addSubmitOp g args "node_stat" 3

/-- `wrap_pre_uv_fs_symlink`. -/
def wrapPreUvFsSymlink (g : TraceGenerator) (args : List Nat) : Result :=
  addSubmitOp g args "node_symlink" 5

/-- `wrap_pre_uv_fs_unlink`. -/
def wrapPreUvFsUnlink (g : TraceGenerator) (args : List Nat) : Result :=
  addSubmitOp g args "node_unlink" 3

/-- `wrap_pre_uv_fs_utime`. -/
def wrapPreUvFsUtime (g : TraceGenerator) (args : List Nat) : Result :=
  addSubmitOp g args "node_utime" 5

/-- The wrapped functions of libuv that submit an operation. -/
inductive UvFs where
  | copyfile | access | chmod | chown | openFile | close | lchown | link | lstat | mkdir
  | readlink | realpath | rename | rmdir | stat | symlink | unlink | utime
  deriving DecidableEq, Repr

/-- The wrapper of a function of libuv. -/
def wrapPreUvFs (g : TraceGenerator) (args : List Nat) : UvFs → Result
  | .copyfile => wrapPreUvFsCopyfile g args
  | .access => wrapPreUvFsAccess g args
  | .chmod => wrapPreUvFsChmod g args
  | .chown => wrapPreUvFsChown g args
  | .openFile => wrapPreUvFsOpen g args
  | .close => wrapPreUvFsClose g args
  | .lchown => wrapPreUvFsLchown g args
  | .link => wrapPreUvFsLink g args
  | .lstat => wrapPreUvFsLstat g args
  | .mkdir => wrapPreUvFsMkdir g args
  | .readlink => wrapPreUvFsReadlink g args
  | .realpath => wrapPreUvFsRealpath g args
  | .rename => wrapPreUvFsRename g args
  | .rmdir => wrapPreUvFsRmdir g args
  | .stat => wrapPreUvFsStat g args
  | .symlink => wrapPreUvFsSymlink g args
  | .unlink => wrapPreUvFsUnlink g args
  | .utime => wrapPreUvFsUtime g args

/-- `WORKER_OFFSET`. -/
def workerOffset : Nat := 336

/-- The first half of `wrap_pre_uv_fs_work`. -/
def countEntry (g : TraceGenerator) (thread : Nat) : Result := do
  match ← g.getAs asWorkCount (countKey thread) with
  | none => return g.addToStore (countKey thread) (.workCount 1)
  | some n => return g.addToStore (countKey thread) (.workCount (n + 1))

/-- `wrap_pre_uv_fs_work`. -/
def wrapPreUvFsWork (g : TraceGenerator) (thread ptr : Nat) : Result := do
  let addr := ptrToString (ptr - workerOffset)
  let g ← countEntry g thread
  match ← g.popAs asOpId (opKey addr) with
  | (none, g) => return g
  | (some id, g) =>
      return (g.addToStore (threadKey thread) (.execOp g.trace.execOps.length)).addExecOp ⟨id, []⟩

/-- `wrap_post_uv_fs_work`. -/
def wrapPostUvFsWork (g : TraceGenerator) (thread : Nat) : Result := do
  match ← g.getAs asWorkCount (countKey thread) with
  | none => return g
  | some n =>
      if n = 0 ∨ n = 1 then
        return (g.deleteFromStore (countKey thread)).deleteFromStore (threadKey thread)
      else return g

/-! ## 6. Wrappers of system calls -/

/-- `get_exec_op` and `get_exec_op_post`. -/
def getExecOp (g : TraceGenerator) (thread : Nat) : Except Halt (Option Nat) :=
  g.getAs asExecOp (threadKey thread)

/-- `CHECK_EXEC_OP`, then `AddOperation`. -/
def emitOperation (g : TraceGenerator) (thread : Nat) (op : Operation) : Result := do
  match ← getExecOp g thread with
  | none => return g
  | some i => return g.editExecOp i fun e => { e with operations := e.operations ++ [op] }

/-- `EmitDelFd`. -/
def emitDelFd (g : TraceGenerator) (thread : Nat) (fd : Int) (opName : String) : Result :=
  emitOperation g thread ⟨.delFd (fd % 2 ^ 64).toNat, false, opName⟩

/-- `EmitHpath`. -/
def emitHpath (g : TraceGenerator) (thread : Nat) (path : String) (effectType : EffectType)
    (followSymlink : Bool) (opName : String) : Result :=
  if followSymlink then emitOperation g thread ⟨.hpath atFdcwd path effectType, false, opName⟩
  else emitOperation g thread ⟨.hpathSym atFdcwd path effectType, false, opName⟩

/-- `EmitLink`. -/
def emitLink (g : TraceGenerator) (thread : Nat) (oldPath newPath opName : String) : Result :=
  emitOperation g thread ⟨.link atFdcwd oldPath atFdcwd newPath, false, opName⟩

/-- `EmitRename`. -/
def emitRename (g : TraceGenerator) (thread : Nat) (oldPath newPath opName : String) : Result :=
  emitOperation g thread ⟨.rename atFdcwd oldPath atFdcwd newPath, false, opName⟩

/-- `EmitSymlink`. -/
def emitSymlink (g : TraceGenerator) (thread : Nat) (oldPath newPath opName : String) : Result :=
  emitOperation g thread ⟨.symlink atFdcwd newPath oldPath, false, opName⟩

/-- `MarkOperationStatus`. -/
def markOperationStatus (g : TraceGenerator) (thread : Nat) (retVal : Int) : Result := do
  match ← getExecOp g thread with
  | none => return g
  | some i => if retVal < 0 then return g.editExecOp i ExecOp.markLastOperationFailed else return g

/-- `wrap_pre_access`. -/
def wrapPreAccess (g : TraceGenerator) (thread : Nat) (path : String) : Result :=
  emitHpath g thread path .consumed true "access"

/-- `wrap_pre_chmod`. -/
def wrapPreChmod (g : TraceGenerator) (thread : Nat) (path : String) : Result :=
  emitHpath g thread path .consumed true "chmod"

/-- `wrap_pre_chown`. -/
def wrapPreChown (g : TraceGenerator) (thread : Nat) (path : String) : Result :=
  emitHpath g thread path .consumed true "chown"

/-- `wrap_pre_close`. -/
def wrapPreClose (g : TraceGenerator) (thread : Nat) (fd : Int) : Result :=
  emitDelFd g thread fd "close"

/-- `wrap_pre_lchown`. -/
def wrapPreLchown (g : TraceGenerator) (thread : Nat) (path : String) : Result :=
  emitHpath g thread path .consumed false "lchown"

/-- `wrap_pre_lstat`. -/
def wrapPreLstat (g : TraceGenerator) (thread : Nat) (path : String) : Result :=
  emitHpath g thread path .consumed false "lstat"

/-- `wrap_pre_mkdir`. -/
def wrapPreMkdir (g : TraceGenerator) (thread : Nat) (path : String) : Result :=
  emitHpath g thread path .produced false "mkdir"

/-- `wrap_pre_readlink`. -/
def wrapPreReadlink (g : TraceGenerator) (thread : Nat) (path : String) : Result :=
  emitHpath g thread path .consumed true "readlink"

/-- `wrap_pre_realpath`. -/
def wrapPreRealpath (g : TraceGenerator) (thread : Nat) (path : String) : Result :=
  emitHpath g thread path .consumed true "realpath"

/-- `wrap_pre_rmdir`. -/
def wrapPreRmdir (g : TraceGenerator) (thread : Nat) (path : String) : Result :=
  emitHpath g thread path .expunged true "rmdir"

/-- `wrap_pre_stat`. -/
def wrapPreStat (g : TraceGenerator) (thread : Nat) (path : String) : Result :=
  emitHpath g thread path .consumed true "stat"

/-- `wrap_pre_symlink`. -/
def wrapPreSymlink (g : TraceGenerator) (thread : Nat) (oldPath newPath : String) : Result :=
  emitSymlink g thread oldPath newPath "symlink"

/-- `wrap_pre_unlink`. -/
def wrapPreUnlink (g : TraceGenerator) (thread : Nat) (path : String) : Result :=
  emitHpath g thread path .expunged true "unlink"

/-- `wrap_pre_utime`. -/
def wrapPreUtime (g : TraceGenerator) (thread : Nat) (path : String) : Result :=
  emitHpath g thread path .consumed true "utime"

/-- `wrap_pre_open`: the mode is in the two lowest bits of the flags. -/
def wrapPreOpen (g : TraceGenerator) (thread : Nat) (path : String) (flags : Int) : Result := do
  let mode := flags % 4
  let g ← emitHpath g thread path (if mode = 0 then .consumed else .produced) true "open"
  return g.addToStore (openKey thread) (.path path)

/-- `wrap_post_open`. -/
def wrapPostOpen (g : TraceGenerator) (thread : Nat) (retVal : Int) : Result := do
  match ← g.popAs asPath (openKey thread) with
  | (none, _) => .error .undefined
  | (some path, g) =>
      emitOperation g thread ⟨.newFd atFdcwd path retVal, decide (retVal < 0), "open"⟩

/-- `wrap_pre_link`. -/
def wrapPreLink (g : TraceGenerator) (thread : Nat) (oldPath newPath : String) : Result := do
  let g ← emitHpath g thread oldPath .consumed false "link"
  let g ← emitHpath g thread newPath .produced false "link"
  emitLink g thread oldPath newPath "link"

/-- `wrap_pre_rename`. -/
def wrapPreRename (g : TraceGenerator) (thread : Nat) (oldPath newPath : String) : Result := do
  let g ← emitHpath g thread oldPath .expunged true "rename"
  let g ← emitHpath g thread newPath .produced true "rename"
  emitRename g thread oldPath newPath "rename"

/-- The wrapped system calls with the arguments that are read. -/
inductive SysCall where
  | access (path : String)
  | chmod (path : String)
  | chown (path : String)
  | openFile (path : String) (flags : Int)
  | close (fd : Int)
  | lchown (path : String)
  | lstat (path : String)
  | link (oldPath newPath : String)
  | mkdir (path : String)
  | readlink (path : String)
  | realpath (path : String)
  | rename (oldPath newPath : String)
  | rmdir (path : String)
  | stat (path : String)
  | symlink (oldPath newPath : String)
  | unlink (path : String)
  | utime (path : String)
  deriving DecidableEq, Repr

/-- The wrappers before the system calls. -/
def wrapPreSysCall (g : TraceGenerator) (thread : Nat) : SysCall → Result
  | .access path => wrapPreAccess g thread path
  | .chmod path => wrapPreChmod g thread path
  | .chown path => wrapPreChown g thread path
  | .openFile path flags => wrapPreOpen g thread path flags
  | .close fd => wrapPreClose g thread fd
  | .lchown path => wrapPreLchown g thread path
  | .lstat path => wrapPreLstat g thread path
  | .link oldPath newPath => wrapPreLink g thread oldPath newPath
  | .mkdir path => wrapPreMkdir g thread path
  | .readlink path => wrapPreReadlink g thread path
  | .realpath path => wrapPreRealpath g thread path
  | .rename oldPath newPath => wrapPreRename g thread oldPath newPath
  | .rmdir path => wrapPreRmdir g thread path
  | .stat path => wrapPreStat g thread path
  | .symlink oldPath newPath => wrapPreSymlink g thread oldPath newPath
  | .unlink path => wrapPreUnlink g thread path
  | .utime path => wrapPreUtime g thread path

/-- `wrap_post_status`. -/
def wrapPostStatus (g : TraceGenerator) (thread : Nat) (retVal : Int) : Result :=
  markOperationStatus g thread retVal

/-- The wrappers after the system calls. -/
def wrapPostSysCall (g : TraceGenerator) (thread : Nat) (retVal : Int) : SysCall → Result
  | .openFile _ _ => wrapPostOpen g thread retVal
  | .close _ | .link .. | .mkdir _ | .rename .. | .rmdir _ | .symlink .. | .unlink _ =>
      wrapPostStatus g thread retVal
  | .access _ | .chmod _ | .chown _ | .lchown _ | .lstat _ | .readlink _ | .realpath _ | .stat _
  | .utime _ => .ok g

/-! ## 7. Callbacks and runs -/

/-- The wrapped functions of Node, with what their wrappers read. -/
inductive NodeCall where
  | start
  | pushAsyncIds (asyncId triggerAsyncId : Nat)
  | popAsyncId (asyncId : Nat)
  | emitAsyncInit (asyncId triggerAsyncId : Nat)
  | timerWrapNow
  | timerWrapNew
  | emitPromiseResolve (asyncId : Nat)
  | promiseWrapNew
  | newAsyncId
  | newTickInfo
  deriving DecidableEq, Repr

/-- The names in `GetWrappers`. -/
def NodeCall.funcName : NodeCall → String
  | .start => "node::Start"
  | .pushAsyncIds .. => "node::Environment::AsyncHooks::push_async_ids"
  | .popAsyncId _ => "node::Environment::AsyncHooks::pop_async_id"
  | .emitAsyncInit .. => "node::AsyncWrap::EmitAsyncInit"
  | .timerWrapNow => "node::(anonymous namespace)::TimerWrap::Now"
  | .timerWrapNew => newTimerWrap
  | .emitPromiseResolve _ => "node::AsyncWrap::EmitPromiseResolve"
  | .promiseWrapNew => "node::PromiseWrap::New"
  | .newAsyncId => "node::AsyncWrap::NewAsyncId"
  | .newTickInfo => "node::AsyncWrap::NewTickInfo"

/-- The wrapper of a function of Node. -/
def wrapPreNode (g : TraceGenerator) : NodeCall → Result
  | .start => .ok (wrapPreStart g)
  | .pushAsyncIds asyncId triggerAsyncId => wrapPreEmitBefore g asyncId triggerAsyncId
  | .popAsyncId asyncId => wrapPreEmitAfter g asyncId
  | .emitAsyncInit asyncId triggerAsyncId => wrapPreEmitInit g asyncId triggerAsyncId
  | .timerWrapNow => wrapPreTimerwrap g
  | .timerWrapNew => .ok g
  | .emitPromiseResolve asyncId => wrapPrePromiseResolve g asyncId
  | .promiseWrapNew => .ok (wrapPrePromiseWrap g)
  | .newAsyncId => wrapPreNewAsyncId g
  | .newTickInfo => wrapPreNewTickInfo g

/-- What the tracer is called for. -/
inductive Callback where
  | node (call : NodeCall)
  | nodeReturn
  | thenable
  | uvFs (f : UvFs) (args : List Nat)
  | uvFsWork (thread ptr : Nat)
  | uvFsWorkReturn (thread : Nat)
  | sysCall (thread : Nat) (call : SysCall)
  | sysReturn (thread : Nat) (call : SysCall) (retVal : Int)
  deriving DecidableEq, Repr

/-- One callback. The wrappers of Node run before `DefaultPre` pushes the function, and
    `DefaultPost` pops it. -/
def step (g : TraceGenerator) : Callback → Result
  | .node call => (wrapPreNode g call).map (·.pushFunction call.funcName)
  | .nodeReturn => .ok g.popStack
  | .thenable => wrapPreThenable g
  | .uvFs f args => wrapPreUvFs g args f
  | .uvFsWork thread ptr => wrapPreUvFsWork g thread ptr
  | .uvFsWorkReturn thread => wrapPostUvFsWork g thread
  | .sysCall thread call => wrapPreSysCall g thread call
  | .sysReturn thread call retVal => wrapPostSysCall g thread retVal call

/-- **A run of the tracer.** -/
def run (threadId : Nat) (cwd : String) (cs : List Callback) : Result :=
  cs.foldlM step (init threadId cwd)

/-- `Stop`: the two sets are dropped. -/
def stop (g : TraceGenerator) : TraceGenerator :=
  (g.deleteFromStore promiseSetKey).deleteFromStore timerSetKey

end NodeGenerator

end Fsracer

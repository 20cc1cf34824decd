/-
  File:      Fsracer/FSAnalyzer.lean
  Subject:   THE FILE SYSTEM ANALYZER (lib/FSAnalyzer.h, lib/FSAnalyzer.cpp): which event accesses
             which path, and how.

  `FsState` has the private fields of the class that the analysis uses; the block that
  `current_block` points to is an argument of the functions that read it. `Abort` lists the ways
  in which a run does not return: an `optional` without a value is dereferenced, `ToInode`
  recurses without end, `PopEntry` is called for a missing key. The functions run in `Except
  Abort` and keep the order of the source, so the first fault of a run is the one that is
  reported.

  NOT here: `proc_table` (never read) and the timers. `DumpJSON` and `DumpCSV` have modules of
  their own.
-/
import Mathlib
import Fsracer.Trace
import Fsracer.InodeTable

namespace Fsracer

/-- `FSAccess`. -/
structure FSAccess where
  eventId : String
  effectType : EffectType
  debugInfo : DebugInfo
  operationName : String
  deriving DecidableEq, Repr

/-- The order of `pair<fs::path, string>`. -/
def accessCmp : Path × String → Path × String → Ordering :=
  compareLex (fun a b => Path.cmp a.1 b.1) (compareOn (·.2))

instance : Std.TransCmp fun (a b : Path × String) => Path.cmp a.1 b.1 :=
  inferInstanceAs (Std.TransCmp (compareOn fun a : Path × String => a.1.components))

instance : Std.TransCmp accessCmp := inferInstanceAs (Std.TransCmp (compareLex _ _))

/-- `block_accesses`. -/
abbrev BlockAccesses := Table (Path × String) FSAccess accessCmp

/-- `fs_accesses_table_t`. -/
abbrev EffectTable := Table Path (List FSAccess) Path.cmp

/-- The private fields of `FSAnalyzer`. -/
structure FsState where
  cwdTable : Table Nat Nat compare
  fdTable : Table (Nat × Nat) InodeKey (Ordered.pairCmp Nat Nat)
  symlinkTable : Table Nat Path compare
  inodeTable : InodeTable
  effectTable : EffectTable
  blockAccesses : BlockAccesses
  opTable : Table String ExecOp compare
  eventInfo : Table String NewEventExpr compare
  mainProcess : Nat
  cwd : Path
  blockId : String

/-- The state the constructor sets up. -/
def FsState.init : FsState where
  cwdTable := ∅
  fdTable := ∅
  symlinkTable := ∅
  inodeTable := .init
  effectTable := ∅
  blockAccesses := ∅
  opTable := ∅
  eventInfo := ∅
  mainProcess := 0
  cwd := .empty
  blockId := ""

/-- How a run of the analyzer fails to return. -/
inductive Abort where
  | badOptionalAccess
  | endlessRecursion
  | missingKey
  deriving DecidableEq, Repr

/-- `utils::GetRightSubstr` for a delimiter of one character: what follows its first occurrence,
    or everything. -/
def getRightSubstr (str : String) (delm : Char) : String :=
  match str.toList.dropWhile (· ≠ delm) with
  | [] => str
  | _ :: rest => String.ofList rest

/-- `utils::StartsWith`. -/
def startsWith (str pre : String) : Bool := pre.toList.isPrefixOf str.toList

namespace FSAnalyzer

/-! ## 1. Paths of operations -/

/-- `inode_table.ToInode(p)`, the new table put back into the state. -/
def toInode (st : FsState) (p : Path) : Except Abort (Nat × FsState) :=
  match st.inodeTable.toInode p with
  | some (inode, inodeTable) => .ok (inode, { st with inodeTable := inodeTable })
  | none => .error .endlessRecursion

/-- `GetParentDir`. -/
def getParentDir (st : FsState) (dirfd : Nat) : Option Path :=
  let inode :=
    if dirfd = atFdcwd then st.cwdTable.getValue st.mainProcess
    else
      match st.fdTable.getValue (st.mainProcess, dirfd) with
      | some key => st.inodeTable.getInode key.1 key.2
      | none => none
  match inode with
  | some inode => st.inodeTable.toPath inode
  | none => none

/-- `GetAbsolutePath`. -/
def getAbsolutePath (st : FsState) (dirfd : Nat) (p : Path) : Option Path :=
  if p.isAbsolute then some p
  else
    match getParentDir st dirfd with
    | some parentP => some (parentP.append p)
    | none => none

/-! ## 2. Effects on paths -/

/-- `AddPathEffect`. `RemoveEntry` is called for the key that was just found. -/
def addPathEffect (accesses : BlockAccesses) (p : Path) (fsAccess : FSAccess) : BlockAccesses :=
  let keyPair := (p, fsAccess.eventId)
  match accesses.getValue keyPair with
  | none => accesses.addEntry keyPair fsAccess
  | some oldFsAcc =>
      match fsAccess.effectType, oldFsAcc.effectType with
      | .consumed, .consumed => accesses.addEntry keyPair fsAccess
      | .consumed, .produced | .consumed, .expunged => accesses.addEntry keyPair oldFsAcc
      | .produced, _ => accesses.addEntry keyPair fsAccess
      | .expunged, .consumed | .expunged, .expunged => accesses.addEntry keyPair fsAccess
      | .expunged, .produced => accesses.erase keyPair

/-- `UnlinkResource`. -/
def unlinkResource (st : FsState) (inodeP : Nat) (basename : String) : Except Abort FsState :=
  match st.inodeTable.removeEntry inodeP basename with
  | some inodeTable => .ok { st with inodeTable := inodeTable }
  | none => .error .missingKey

/-- The tags of an event: `main` for a main block, those of its `newEvent` otherwise. -/
def eventTags (st : FsState) : Except Abort DebugInfo :=
  if startsWith st.blockId "MAIN_" then .ok ["main"]
  else
    match st.eventInfo.getValue st.blockId with
    | some expr => .ok expr.debugInfo
    | none => .error .badOptionalAccess

/-- `ProcessPathEffect`. -/
def processPathEffect (st : FsState) (p : Path) (effect : EffectType) (operationName : String) :
    Except Abort FsState := do
  let debugInfo ← eventTags st
  let fsAccess : FSAccess := ⟨st.blockId, effect, debugInfo, operationName⟩
  match effect with
  | .consumed | .produced =>
      return { st with blockAccesses := addPathEffect st.blockAccesses p fsAccess }
  | .expunged =>
      let (inodeP, st) ← toInode st p.parentPath
      let st := { st with blockAccesses := addPathEffect st.blockAccesses p fsAccess }
      unlinkResource st inodeP p.filename.native

/-! ## 3. Operations -/

/-- `AnalyzeNewFd`. -/
def analyzeNewFd (st : FsState) (dirfd : Nat) (path : String) (fd : Int) :
    Except Abort FsState :=
  if fd < 0 then .ok st
  else
    match getAbsolutePath st dirfd ⟨path⟩ with
    | none => .ok st
    | some absPath => do
        let (inodeP, st) ← toInode st absPath.parentPath
        let basename := absPath.filename.native
        let inodeTable := (st.inodeTable.addEntry inodeP basename absPath).openInode inodeP basename
        return { st with
          inodeTable := inodeTable
          fdTable := st.fdTable.addEntry (st.mainProcess, fd.toNat) (inodeP, basename) }

/-- `AnalyzeDelFd`. -/
def analyzeDelFd (st : FsState) (fd : Nat) : Except Abort FsState :=
  match st.fdTable.popEntry (st.mainProcess, fd) with
  | none => .error .missingKey
  | some (key, fdTable) =>
      match st.inodeTable.closeInode key.1 key.2 with
      | none => .error .missingKey
      | some inodeTable => .ok { st with fdTable := fdTable, inodeTable := inodeTable }

/-- `AnalyzeHpath`: a known symbolic link is dereferenced once. -/
def analyzeHpath (st : FsState) (dirfd : Nat) (path : String) (effect : EffectType)
    (operationName : String) : Except Abort FsState :=
  match getAbsolutePath st dirfd ⟨path⟩ with
  | none => .ok st
  | some p => do
      let (inode, st) ← toInode st p
      let p :=
        match st.symlinkTable.getValue inode with
        | some derPath => derPath
        | none => p
      processPathEffect st p effect operationName

/-- `AnalyzeHpathSym`. -/
def analyzeHpathSym (st : FsState) (dirfd : Nat) (path : String) (effect : EffectType)
    (operationName : String) : Except Abort FsState :=
  match getAbsolutePath st dirfd ⟨path⟩ with
  | none => .ok st
  | some absPath => processPathEffect st absPath effect operationName

/-- `AnalyzeLink`. -/
def analyzeLink (st : FsState) (oldDirfd : Nat) (oldPath : String) (newDirfd : Nat)
    (newPath : String) : Except Abort FsState :=
  match getAbsolutePath st oldDirfd ⟨oldPath⟩, getAbsolutePath st newDirfd ⟨newPath⟩ with
  | some oldPath, some newPath => do
      let (inode, st) ← toInode st oldPath
      let (inodeP, st) ← toInode st newPath.parentPath
      let basename := newPath.filename.native
      return { st with inodeTable := st.inodeTable.addEntryWith inodeP basename newPath inode }
  | _, _ => .ok st

/-- `AnalyzeRename`. -/
def analyzeRename (st : FsState) (oldDirfd : Nat) (oldPath : String) (newDirfd : Nat)
    (newPath : String) : Except Abort FsState :=
  match getAbsolutePath st oldDirfd ⟨oldPath⟩, getAbsolutePath st newDirfd ⟨newPath⟩ with
  | some oldPath, some newPath => do
      let (inode, st) ← toInode st oldPath
      let (inodeP, st) ← toInode st newPath.parentPath
      let basename := newPath.filename.native
      if st.inodeTable.getInode inodeP basename = some inode then return st
      else
        let st := { st with inodeTable := st.inodeTable.addEntryWith inodeP basename newPath inode }
        let (inodeP, st) ← toInode st oldPath.parentPath
        unlinkResource st inodeP oldPath.filename.native
  | _, _ => .ok st

/-- `AnalyzeSymlink`. -/
def analyzeSymlink (st : FsState) (dirfd : Nat) (path target : String) : Except Abort FsState :=
  match getAbsolutePath st dirfd ⟨path⟩ with
  | none => .ok st
  | some absPath => do
      let (inode, st) ← toInode st absPath
      return { st with symlinkTable := st.symlinkTable.addEntry inode ⟨target⟩ }

/-- `AnalyzeOperation`: the visitor's dispatch. -/
def analyzeOperation (st : FsState) (op : Operation) : Except Abort FsState :=
  match op.kind with
  | .newFd dirfd path fd => analyzeNewFd st dirfd path fd
  | .delFd fd => analyzeDelFd st fd
  | .hpath dirfd path effect => analyzeHpath st dirfd path effect op.actualOpName
  | .hpathSym dirfd path effect => analyzeHpathSym st dirfd path effect op.actualOpName
  | .link oldDirfd oldPath newDirfd newPath => analyzeLink st oldDirfd oldPath newDirfd newPath
  | .rename oldDirfd oldPath newDirfd newPath => analyzeRename st oldDirfd oldPath newDirfd newPath
  | .symlink dirfd path target => analyzeSymlink st dirfd path target

/-! ## 4. Blocks and traces -/

/-- The event that an operation is charged to: the event in the id of the operation for an
    asynchronous one, the running block for a synchronous one. -/
def submitBlockId (block : Block) (submitOp : SubmitOp) : String :=
  match submitOp.getType with
  | .sync => block.getPrettyBlockId
  | .async => getRightSubstr submitOp.opId '_'

/-- `AnalyzeSubmitOp`; `block` is `current_block`. -/
def analyzeSubmitOp (st : FsState) (block : Block) (submitOp : SubmitOp) : Except Abort FsState :=
  match st.opTable.getValue submitOp.opId with
  | none => .ok st
  | some execOp =>
      execOp.operations.foldlM analyzeOperation
        { st with blockId := submitBlockId block submitOp }

/-- `AnalyzeNewEvent`. -/
def analyzeNewEvent (st : FsState) (e : NewEventExpr) : FsState :=
  { st with eventInfo := st.eventInfo.addEntry (toString e.eventId) e }

/-- `AnalyzeExpr`; links and triggers are ignored. -/
def analyzeExpr (block : Block) (st : FsState) : Expr → Except Abort FsState
  | .submitOp e => analyzeSubmitOp st block e
  | .newEvent e => .ok (analyzeNewEvent st e)
  | .link _ => .ok st
  | .trigger _ => .ok st

/-- `AnalyzeBlock`: every block is walked, also one that the dependency analyzer skips. -/
def analyzeBlock (st : FsState) (block : Block) : Except Abort FsState :=
  block.exprs.foldlM (analyzeExpr block) st

/-- `AnalyzeTrace`. -/
def analyzeTrace (st : FsState) (trace : Trace) : Except Abort FsState := do
  let st := { st with mainProcess := trace.threadId, cwd := ⟨trace.cwd⟩ }
  let (inode, st) ← toInode st st.cwd
  let st := { st with cwdTable := st.cwdTable.addEntry st.mainProcess inode }
  let st := { st with
    opTable := trace.execOps.foldl (fun table op => table.addEntry op.id op) st.opTable }
  trace.blocks.foldlM analyzeBlock st

/-- The loop of `Analyze`: the accesses are collected path by path. -/
def groupAccesses (table : EffectTable) (accesses : BlockAccesses) : EffectTable :=
  accesses.toList.foldl (fun table elem =>
    match table.getValue elem.1.1 with
    | some fsAccesses => table.addEntry elem.1.1 (fsAccesses ++ [elem.2])
    | none => table.addEntry elem.1.1 [elem.2]) table

/-- `Analyze`, from the state of the constructor. -/
def analyze (trace : Trace) : Except Abort FsState := do
  let st ← analyzeTrace .init trace
  return { st with effectTable := groupAccesses st.effectTable st.blockAccesses }

end FSAnalyzer

end Fsracer

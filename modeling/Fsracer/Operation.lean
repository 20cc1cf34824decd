/-
  File:      Fsracer/Operation.lean
  Subject:   FILE SYSTEM OPERATIONS (lib/Operation.h, lib/Operation.cpp).

  An `Operation` is one FStrace primitive: the seven kinds that the trace parser and the Node
  tracer can build, with the two fields of the base class (`failed`, `actualOpName`). `toStr`
  is the virtual method `ToString` of each class.

  NOT here: `DupFd`, `NewProc`, `SetCwd` and `Nop`. The parser has no rule for them, no wrapper
  of the tracer creates one and no analyzer has a visitor method for them.
-/
import Mathlib

namespace Fsracer

/-- `#define AT_FDCWD 0`: the value that stands for the working directory. -/
def atFdcwd : Nat := 0

/-- `DirfdToString`: zero is printed as the name of the flag. -/
def dirfdToString (dirfd : Nat) : String :=
  if dirfd = atFdcwd then "AT_FDCWD" else toString dirfd

/-- `Hpath::EffectType`. -/
inductive EffectType where
  | produced
  | consumed
  | expunged
  deriving DecidableEq, Repr

/-- `Hpath::EffToString`. -/
def effToString : EffectType → String
  | .consumed => "consumed"
  | .produced => "produced"
  | .expunged => "expunged"

/-- `Hpath::Consumes`. -/
def consumes : EffectType → Bool
  | .consumed => true
  | _ => false

/-- The class of an operation with the fields of its own. `DelFd` stores its descriptor in a
    `size_t`, `NewFd` in an `int` (a failed `open` leaves a negative one). -/
inductive OpKind where
  | delFd (fd : Nat)
  | hpath (dirfd : Nat) (path : String) (effectType : EffectType)
  | hpathSym (dirfd : Nat) (path : String) (effectType : EffectType)
  | link (oldDirfd : Nat) (oldPath : String) (newDirfd : Nat) (newPath : String)
  | newFd (dirfd : Nat) (path : String) (fd : Int)
  | rename (oldDirfd : Nat) (oldPath : String) (newDirfd : Nat) (newPath : String)
  | symlink (dirfd : Nat) (path : String) (target : String)
  deriving DecidableEq, Repr

/-- An operation: its class, the failed mark and the name of the traced system call. -/
structure Operation where
  kind : OpKind
  failed : Bool := false
  actualOpName : String := ""
  deriving DecidableEq, Repr

/-- `GetOpName`. -/
def OpKind.getOpName : OpKind → String
  | .delFd _ => "delFd"
  | .hpath .. => "hpath"
  | .hpathSym .. => "hpathsym"
  | .link .. => "link"
  | .newFd .. => "newFd"
  | .rename .. => "rename"
  | .symlink .. => "symlink"

namespace Operation

/-- `MarkFailed`. -/
def markFailed (op : Operation) : Operation := { op with failed := true }

/-- `SetActualOpName`. -/
def setActualOpName (op : Operation) (name : String) : Operation :=
  { op with actualOpName := name }

/-- The macro `FAILED`. -/
def failedStr (op : Operation) : String := if op.failed then " !failed" else ""

/-- The macro `ACTUAL_NAME`. -/
def actualNameStr (op : Operation) : String :=
  if op.actualOpName ≠ "" then " !" ++ op.actualOpName else ""

/-- What `ToString` prints between the name of the operation and the two macros. `NewFd` drops
    the descriptor of a failed call. -/
def argsStr (op : Operation) : String :=
  match op.kind with
  | .delFd fd => toString fd
  | .hpath dirfd path eff | .hpathSym dirfd path eff =>
      dirfdToString dirfd ++ " " ++ path ++ " " ++ effToString eff
  | .link oldDirfd oldPath newDirfd newPath | .rename oldDirfd oldPath newDirfd newPath =>
      dirfdToString oldDirfd ++ " " ++ oldPath ++ " " ++ dirfdToString newDirfd ++ " " ++ newPath
  | .newFd dirfd path fd =>
      if op.failed then dirfdToString dirfd ++ " " ++ path
      else dirfdToString dirfd ++ " " ++ path ++ " " ++ toString fd
  | .symlink dirfd path target => dirfdToString dirfd ++ " " ++ path ++ " " ++ target

/-- `ToString`, for every class. -/
def toStr (op : Operation) : String :=
  op.kind.getOpName ++ " " ++ op.argsStr ++ op.actualNameStr ++ op.failedStr

end Operation

end Fsracer

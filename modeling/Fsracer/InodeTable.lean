/-
  File:      Fsracer/InodeTable.lean
  Subject:   THE INODE TABLE (lib/InodeTable.h, lib/InodeTable.cpp).

  The table maps a parent inode and a name to an inode; `revTable` maps an inode to its paths;
  `openInodes` counts the open handles of an entry. The functions that pop an entry return
  `none` where the entry is missing (see Table.lean).

  `toInode` recurses on `parent_path` until it meets "/". A path whose parents never reach "/"
  sends the source into an endless recursion; `toInode` is `none` there.
-/
import Mathlib
import Fsracer.Path
import Fsracer.Table

namespace Fsracer

/-- `#define ROOT_INODE 0`. -/
def rootInode : Nat := 0

/-- `inode_key_t`. -/
abbrev InodeKey := Nat × String

/-- `INodeType`. -/
inductive INodeType where
  | linked
  | unlinked
  deriving DecidableEq, Repr

/-- `InodeTable`. -/
structure InodeTable where
  table : Table InodeKey Nat (Ordered.pairCmp Nat String)
  revTable : Std.TreeMap Nat (Std.TreeSet Path Path.cmp)
  openInodes : Table InodeKey (INodeType × Nat) (Ordered.pairCmp Nat String)
  nextInode : Nat

namespace InodeTable

/-- `ToPaths`. -/
def toPaths (t : InodeTable) (inode : Nat) : Std.TreeSet Path Path.cmp :=
  match t.revTable[inode]? with
  | some paths => paths
  | none => ∅

/-- `AddEntry` with an inode. -/
def addEntryWith (t : InodeTable) (inodeP : Nat) (basename : String) (p : Path) (inode : Nat) :
    InodeTable :=
  { t with
    revTable := t.revTable.insert inode ((t.toPaths inode).insert p)
    table := t.table.addEntry (inodeP, basename) inode }

/-- `AddEntry`: the entry gets a new inode. -/
def addEntry (t : InodeTable) (inodeP : Nat) (basename : String) (p : Path) : InodeTable :=
  { t.addEntryWith inodeP basename p t.nextInode with nextInode := t.nextInode + 1 }

/-- The constructor: the root is entered as the first inode. -/
def init : InodeTable :=
  addEntry ⟨∅, ∅, ∅, 1⟩ rootInode "/" ⟨"/"⟩

/-- `ToPath`: the path of an inode that has exactly one. -/
def toPath (t : InodeTable) (inode : Nat) : Option Path :=
  match (t.toPaths inode).toList with
  | [p] => some p
  | _ => none

/-- `GetInode`. -/
def getInode (t : InodeTable) (inodeP : Nat) (basename : String) : Option Nat :=
  t.table.getValue (inodeP, basename)

/-- `RemoveEntry`. An entry that is open is marked and stays. -/
def removeEntry (t : InodeTable) (inodeP : Nat) (basename : String) : Option InodeTable :=
  match t.toPath inodeP with
  | none => some t
  | some pathP =>
      let absolutePath := pathP.append ⟨basename⟩
      let key := (inodeP, basename)
      match t.openInodes.getValue key with
      | none =>
          match t.table.popEntry key with
          | none => none
          | some (inode, table) =>
              match t.revTable[inode]? with
              | none => some { t with table := table }
              | some paths =>
                  let paths := paths.erase absolutePath
                  some { t with
                    table := table
                    revTable :=
                      if paths.isEmpty then t.revTable.erase inode
                      else t.revTable.insert inode paths }
      | some (.linked, counter) =>
          some { t with openInodes := t.openInodes.addEntry key (.unlinked, counter) }
      | some (.unlinked, _) => some t

/-- `OpenInode`. -/
def openInode (t : InodeTable) (inodeP : Nat) (basename : String) : InodeTable :=
  let key := (inodeP, basename)
  match t.openInodes.getValue key with
  | none => { t with openInodes := t.openInodes.addEntry key (.linked, 1) }
  | some (_, counter) =>
      { t with openInodes := t.openInodes.addEntry key (.linked, counter + 1) }

/-- `CloseInode`. -/
def closeInode (t : InodeTable) (inodeP : Nat) (basename : String) : Option InodeTable :=
  let key := (inodeP, basename)
  match t.openInodes.getValue key with
  | none => some t
  | some (_, 0) => some t
  | some (.linked, 1) =>
      (t.openInodes.removeEntry key).map fun openInodes => { t with openInodes := openInodes }
  | some (.unlinked, 1) =>
      match t.openInodes.removeEntry key with
      | none => none
      | some openInodes => { t with openInodes := openInodes }.removeEntry inodeP basename
  | some (inodeType, counter) =>
      some { t with openInodes := t.openInodes.addEntry key (inodeType, counter - 1) }

/-- The recursion of `ToInode`, one call per unit of fuel. -/
def toInodeLoop (t : InodeTable) : Nat → Path → Option (Nat × InodeTable)
  | 0, _ => none
  | n + 1, p =>
      if p.native = "/" then some (rootInode + 1, t)
      else
        match t.toInodeLoop n p.parentPath with
        | none => none
        | some (inodeP, t) =>
            match t.getInode inodeP p.filename.native with
            | some i => some (i, t)
            | none => some (t.nextInode, t.addEntry inodeP p.filename.native p)

/-- `ToInode`; `none` where the recursion does not end. -/
def toInode (t : InodeTable) (p : Path) : Option (Nat × InodeTable) :=
  t.toInodeLoop (p.components.length + 1) p

end InodeTable

end Fsracer

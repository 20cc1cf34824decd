/-
  File:      Fsracer/OpenFrame.lean
  Subject:   WHAT OPENING A FILE DOES TO THE NAMES.

  `AnalyzeNewFd` enters the path it opens with the `AddEntry` that takes a new inode, whether the
  path has an entry or not. **`newFdKeeps_iff`**: the operation keeps every name exactly when the
  opened path is below the root and led nowhere before. A path that led somewhere leads to the new
  inode afterwards, and a symbolic link or the children of a directory stay with the old one; for
  the root, or a path that is not below it, the operation does not return. The tracer records an
  `hpath` before every `newFd`, so the path has been entered by then (`newFdKeeps_fails`).
-/
import Mathlib
import Fsracer.Recursion

namespace Fsracer

open FSAnalyzer

/-- **The names of a state are kept**: every path leads to its inode as before, and a path that
    was known as a symbolic link is still dereferenced. -/
structure NamesKept (st st' : FsState) : Prop where
  resolved : ∀ q i, st.inodeTable.resolve q = some i → st'.inodeTable.resolve q = some i
  dereferenced : ∀ q i target, st.inodeTable.resolve q = some i →
    st.symlinkTable.getValue i = some target →
    ∃ j, st'.inodeTable.resolve q = some j ∧ st'.symlinkTable.getValue j = some target

/-- Opening a file returns and keeps the names of a state. -/
def NewFdKeeps (st : FsState) (dirfd : Nat) (path : String) (fd : Int) : Prop :=
  ∃ st', analyzeNewFd st dirfd path fd = .ok st' ∧ NamesKept st st'

/-- The path that is opened, if one is, is below the root and has no entry yet. -/
def OpensNewPath (st : FsState) (dirfd : Nat) (path : String) (fd : Int) : Prop :=
  0 ≤ fd → ∀ p, getAbsolutePath st dirfd ⟨path⟩ = some p →
    p.BelowRoot ∧ st.inodeTable.resolve p = none

section Table

variable {t t' : InodeTable} {ns : List String} {a : Nat} {n : String} {p : Path}

/-- A new entry where there was none keeps every name. -/
theorem resolve_newEntry (hl : t.LookedUp ns a t') (hnone : t.walk (ns ++ [n]) = none)
    {q : Path} {i : Nat} (hq : t.resolve q = some i) :
    ((t'.addEntry a n p).openInode a n).resolve q = some i := by
  obtain ⟨ms, hr, hw⟩ := InodeTable.resolve_eq_some.mp hq
  have hgrow := hl.wellFormed.grows_addEntry ((hl.getInode_eq n).trans hnone) p
  refine InodeTable.resolve_eq_some.mpr ⟨ms, hr, ?_⟩
  refine NameTree.walk_mono (fun b m j hj => ?_) hw
  rw [InodeTable.getInode_openInode]
  exact hgrow.keeps b m j (hl.grows.keeps b m j hj)

/-- A new inode for an entry that is there takes the name away from the old inode. -/
theorem resolve_reentered (hw : t.WellFormed) (hl : t.LookedUp ns a t')
    (hp : p.Rooted (ns ++ [n])) {j : Nat} (hj : t.walk (ns ++ [n]) = some j) :
    ((t'.addEntry a n p).openInode a n).resolve p ≠ some j := by
  obtain ⟨c, hc, _⟩ := NameTree.walk_snoc_eq_some.mp hj
  obtain ⟨rfl, rfl⟩ := hl.of_some hc
  intro hq
  rw [InodeTable.resolve_rooted hp] at hq
  obtain ⟨b, hb, hbj⟩ := NameTree.walk_snoc_eq_some.mp hq
  -- no entry below the new inode, and no entry but the one at hand leads to it
  have hold : ∀ c m k, ((t'.addEntry a n p).openInode a n).getInode c m = some k →
      k < t'.nextInode → c < t'.nextInode ∧ t'.getInode c m = some k := by
    intro c m k hk hlt
    rw [InodeTable.getInode_openInode, InodeTable.getInode_addEntry] at hk
    split at hk
    · cases hk
      exact absurd hlt (lt_irrefl _)
    · exact ⟨(hw.known c m k hk).1, hk⟩
  have hjlt := hw.walk_lt hj
  obtain ⟨hblt, _⟩ := hold b n j hbj hjlt
  have hwalk : NameTree.walk t'.getInode (rootInode + 1) ns = some b :=
    NameTree.walk_of_closed (P := (· < t'.nextInode)) hold hb hblt
  cases hl.found.symm.trans hwalk
  rw [InodeTable.getInode_openInode, InodeTable.getInode_addEntry, if_pos rfl] at hbj
  cases hbj
  exact lt_irrefl _ hjlt

end Table

section Opened

variable {st : FsState} {dirfd : Nat} {path : String} {fd : Int} {p : Path}

/-- What opening a path below the root comes to. -/
theorem analyzeNewFd_belowRoot (hw : st.inodeTable.WellFormed) (hfd : 0 ≤ fd)
    (hp : getAbsolutePath st dirfd ⟨path⟩ = some p) (hb : p.BelowRoot) :
    ∃ ns n a t st', p.Rooted (ns ++ [n]) ∧ st.inodeTable.LookedUp ns a t ∧
      analyzeNewFd st dirfd path fd = .ok st' ∧
      st'.inodeTable = (t.addEntry a n p).openInode a n ∧
      st'.symlinkTable = st.symlinkTable := by
  obtain ⟨ns, n, hr⟩ := Path.belowRoot_iff.mp hb
  have hns : ∀ x ∈ ns, Path.IsName x := fun x hx => hr.names x (by simp [hx])
  obtain ⟨a, t, ht, hl⟩ := InodeTable.toInode_rooted hw (Path.rooted_ofNames hns)
  rw [← hr.parentPath] at ht
  have hstep : ∃ st', analyzeNewFd st dirfd path fd = .ok st' ∧
      st'.inodeTable = (t.addEntry a n p).openInode a n ∧ st'.symlinkTable = st.symlinkTable := by
    unfold analyzeNewFd
    rw [if_neg (not_lt.mpr hfd), hp]
    dsimp only
    rw [toInode_eq_ok.mpr ⟨t, ht, rfl⟩, hr.filename]
    exact ⟨_, rfl, rfl, rfl⟩
  obtain ⟨st', hst⟩ := hstep
  exact ⟨ns, n, a, t, st', hr, hl, hst⟩

/-- An operation that opens nothing changes nothing. -/
theorem analyzeNewFd_idle (h : fd < 0 ∨ getAbsolutePath st dirfd ⟨path⟩ = none) :
    analyzeNewFd st dirfd path fd = .ok st := by
  unfold analyzeNewFd
  rcases h with hfd | hp
  · rw [if_pos hfd]
  · rw [hp]
    split
    · rfl
    · rfl

end Opened

/-- **Opening a file keeps the names exactly when it opens a new path.** -/
theorem newFdKeeps_iff {st : FsState} (h : Reached st) (dirfd : Nat) (path : String) (fd : Int) :
    NewFdKeeps st dirfd path fd ↔ OpensNewPath st dirfd path fd := by
  have hw := h.wellFormed
  constructor
  · intro hkeep hfd p hp
    obtain ⟨st', hst, hkept⟩ := hkeep
    -- a path that is not below the root has no parent to look up
    have hb : p.BelowRoot := by
      by_contra hb
      have hendless : analyzeNewFd st dirfd path fd = .error .endlessRecursion :=
        (analyzeNewFd_eq_endless hw.inodes).mpr fun hall => hb (hall hfd p hp)
      rw [hst] at hendless
      cases hendless
    refine ⟨hb, ?_⟩
    obtain ⟨ns, n, a, t, st₁, hr, hl, hst₁, htab, -⟩ := analyzeNewFd_belowRoot hw.inodes hfd hp hb
    cases hst.symm.trans hst₁
    cases hres : st.inodeTable.resolve p with
    | none => rfl
    | some j =>
        have hsame := hkept.resolved p j hres
        rw [htab] at hsame
        rw [InodeTable.resolve_rooted hr] at hres
        exact absurd hsame (resolve_reentered hw.inodes hl hr hres)
  · intro hnew
    by_cases hidle : fd < 0 ∨ getAbsolutePath st dirfd ⟨path⟩ = none
    · exact ⟨st, analyzeNewFd_idle hidle, fun q i hq => hq,
        fun q i target hq htarget => ⟨i, hq, htarget⟩⟩
    · obtain ⟨hfd, hp⟩ := not_or.mp hidle
      have hfd := not_lt.mp hfd
      obtain ⟨p, hp⟩ := Option.ne_none_iff_exists'.mp hp
      obtain ⟨hb, hnone⟩ := hnew hfd p hp
      obtain ⟨ns, n, a, t, st', hr, hl, hst, htab, hlinks⟩ :=
        analyzeNewFd_belowRoot hw.inodes hfd hp hb
      rw [InodeTable.resolve_rooted hr] at hnone
      have hkept : ∀ q i, st.inodeTable.resolve q = some i → st'.inodeTable.resolve q = some i := by
        intro q i hq
        rw [htab]
        exact resolve_newEntry hl hnone hq
      refine ⟨st', hst, hkept, fun q i target hq htarget => ⟨i, hkept q i hq, ?_⟩⟩
      rw [hlinks]
      exact htarget

/-- The tracer's record of `open("/a")`: the path, then the descriptor. -/
def openedFile : Trace where
  threadId := 1
  cwd := "/home"
  execOps := [⟨"sync_1", [⟨.hpath atFdcwd "/a" .produced, false, "open"⟩]⟩]
  blocks := [⟨1, .MAIN, [.submitOp ⟨"sync_1", none, ["node_open"]⟩]⟩]

theorem newFdKeeps_iff_openedFile : ∃ st, analyzeTrace .init openedFile = .ok st ∧
    (NewFdKeeps st atFdcwd "/a" 3 ↔ OpensNewPath st atFdcwd "/a" 3) := by
  have hok : (analyzeTrace .init openedFile).toOption.isSome = true := by decide +kernel
  obtain ⟨st, hst⟩ := Option.isSome_iff_exists.mp hok
  have hst := toOption_eq_some.mp hst
  exact ⟨st, hst, newFdKeeps_iff (reached_analyzeTrace hst) atFdcwd "/a" 3⟩

/-- After the `hpath` of a trace that the parser accepts, the `newFd` gives "/a" another inode. -/
theorem newFdKeeps_fails : ¬ ∀ t st, TraceParser.Accepts t → analyzeTrace .init t = .ok st →
    ∀ dirfd path fd, NewFdKeeps st dirfd path fd := by
  intro h
  have hp : TraceParser.parse (dump openedFile) = .ok openedFile := by decide +kernel
  have hrun : ((analyzeTrace .init openedFile).toOption.bind fun st =>
      (analyzeNewFd st atFdcwd "/a" 3).toOption.map fun st' =>
        (st.inodeTable.resolve ⟨"/a"⟩, st'.inodeTable.resolve ⟨"/a"⟩)) =
      some (some 3, some 4) := by decide +kernel
  obtain ⟨st, hst, hnext⟩ := Option.bind_eq_some_iff.mp hrun
  obtain ⟨st', hst', hboth⟩ := Option.map_eq_some_iff.mp hnext
  obtain ⟨hbefore, hafter⟩ := Prod.mk.inj hboth
  obtain ⟨st₁, hst₁, hkept⟩ := h _ st ⟨_, hp⟩ (toOption_eq_some.mp hst) atFdcwd "/a" 3
  cases hst₁.symm.trans (toOption_eq_some.mp hst')
  have hkept := hkept.resolved _ _ hbefore
  rw [hafter] at hkept
  cases hkept

end Fsracer

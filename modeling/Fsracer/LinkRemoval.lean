/-
  File:      Fsracer/LinkRemoval.lean
  Subject:   REMOVING A SYMBOLIC LINK: from the wrapper of `unlink` to the inode table.

  `EmitHpath` takes from its caller whether a link is to be followed: an `hpath` is dereferenced
  by the analyzer, an `hpathsym` is not. The wrappers of `lstat`, `lchown` and `link` ask for the
  second; `wrap_pre_unlink` asks for the first. So the removal of a known link is charged to its
  target, and either the target loses its entry or the link stays (`unlink_of_link`); in no state
  is it the link alone that goes (**`unlink_never_keeps_target`**).
-/
import Mathlib
import Fsracer.RenameIdentity
import Fsracer.NodeGenerator

namespace Fsracer

open FSAnalyzer

/-! ## 1. What the tracer records -/

namespace NodeGenerator

/-- `op` is what a wrapper of a system call adds to the current `ExecOp`. -/
def Records (wrapper : TraceGenerator → Nat → Result) (op : Operation) : Prop :=
  ∀ g thread, wrapper g thread = emitOperation g thread op

/-- A generator in which the thread 0 has an `ExecOp`. -/
def withExecOp : TraceGenerator :=
  ((TraceGenerator.init 0 "").addToStore (UvFsWork.threadKey 0) (.execOp 0)).addExecOp ⟨"", []⟩

theorem emitOperation_withExecOp (op : Operation) : emitOperation withExecOp 0 op =
    .ok (withExecOp.editExecOp 0 fun e => { e with operations := e.operations ++ [op] }) := by
  have hkey : withExecOp.getStoreValue (UvFsWork.threadKey 0) = some (.execOp 0) := by
    show (Table.addEntry _ _ _).getValue _ = _
    rw [Table.getValue_addEntry]
    simp
  unfold emitOperation getExecOp TraceGenerator.getAs
  rw [hkey]
  rfl

/-- A wrapper records one operation. -/
theorem Records.unique {wrapper : TraceGenerator → Nat → Result} {op op' : Operation}
    (h : Records wrapper op) (h' : Records wrapper op') : op = op' := by
  have hsame := (h withExecOp 0).symm.trans (h' withExecOp 0)
  rw [emitOperation_withExecOp, emitOperation_withExecOp] at hsame
  have hops := congrArg (·.trace.execOps) (Except.ok.inj hsame)
  simpa [withExecOp, TraceGenerator.editExecOp, TraceGenerator.addExecOp,
    TraceGenerator.addToStore, TraceGenerator.init] using hops

/-- `wrap_pre_unlink` asks for the link to be followed. -/
theorem records_unlink {path : String} {op : Operation} :
    Records (wrapPreUnlink · · path) op ↔ op = ⟨.hpath atFdcwd path .expunged, false, "unlink"⟩ := by
  have hself : Records (wrapPreUnlink · · path) ⟨.hpath atFdcwd path .expunged, false, "unlink"⟩ :=
    fun _ _ => rfl
  refine ⟨fun h => h.unique hself, fun h => ?_⟩
  rw [h]
  exact hself

end NodeGenerator

open NodeGenerator (Records wrapPreUnlink records_unlink)

/-- **The removal of a link `l` to `target` touches the link only.** The running event expunges
    `l`, has no other access to the target than before, the target keeps its entry, and `l` is no
    longer known as a link. -/
structure RemovesOnlyLink (st st' : FsState) (l target : Path) : Prop where
  linkCharged : ∃ tags, tagsOf st = some tags ∧
    st'.blockAccesses.getValue (l, st.blockId) =
      (addPathEffect st.blockAccesses l ⟨st.blockId, .expunged, tags, "unlink"⟩).getValue
        (l, st.blockId)
  targetFree : st'.blockAccesses.getValue (target, st.blockId) =
    st.blockAccesses.getValue (target, st.blockId)
  targetEntry : st'.inodeTable.resolve target = st.inodeTable.resolve target
  linkGone : ∀ i, st'.inodeTable.resolve l = some i → st'.symlinkTable.getValue i = none

/-! ## 2. What the analyzer makes of it -/

/-- **The unlink of a known link works on its target**: the access is charged to the target; the
    target loses its entry, or the link is known as before. -/
theorem unlink_of_link {st st' : FsState} (hr : Reached st) {l target : Path} {i : Nat}
    (hl : st.inodeTable.resolve l = some i) (hlink : st.symlinkTable.getValue i = some target)
    (h : analyzeOperation st ⟨.hpath atFdcwd l.native .expunged, false, "unlink"⟩ = .ok st') :
    (∃ tags, tagsOf st = some tags ∧ st'.blockAccesses = addPathEffect st.blockAccesses target
        ⟨st.blockId, .expunged, tags, "unlink"⟩) ∧
      (((st.inodeTable.resolve target).isSome ∧ st'.inodeTable.resolve target = none) ∨
        (st'.inodeTable.resolve l = some i ∧ st'.symlinkTable.getValue i = some target)) := by
  have hw : st.inodeTable.WellFormed := hr.wellFormed.inodes
  obtain ⟨ns, hrooted, hwalk⟩ := InodeTable.resolve_eq_some.mp hl
  obtain ⟨j, t, ht, h⟩ := (analyzeHpath_eq_ok (getAbsolutePath_rooted hrooted _)).mp h
  cases (InodeTable.toInode_of_walk hw hrooted hwalk).symm.trans ht
  have hfollow : followed st.symlinkTable i l = target := by rw [followed, hlink]
  rw [hfollow] at h
  obtain ⟨tags, u, htags, hcase, rfl⟩ := processPathEffect_eq_ok.mp h
  obtain ⟨_, a, t', ht', hrem⟩ := hcase.resolve_left fun h => h.1 rfl
  obtain ⟨ms, n, hp, hname, hl'⟩ := InodeTable.toInode_parent_spec hw ht'
  rw [hname] at hrem
  refine ⟨⟨tags, htags, rfl⟩, ?_⟩
  have hkept : (∀ c m, u.getInode c m = t'.getInode c m) → u.resolve l = some i := by
    intro hsame
    refine InodeTable.resolve_mono (fun c m k _ hk => ?_) hl
    rw [hsame]
    exact hl'.grows.keeps c m k hk
  rcases InodeTable.removeEntry_cases hrem with ⟨rfl, _⟩ | ⟨c, _, rfl⟩ | ⟨_, k, _, _, hk, rfl⟩
  · exact .inr ⟨hkept fun _ _ => rfl, hlink⟩
  · exact .inr ⟨hkept fun _ _ => rfl, hlink⟩
  · have hthere : st.inodeTable.resolve target = some k := by
      rw [InodeTable.resolve_rooted hp, ← hl'.getInode_eq n]
      exact hk
    exact .inl ⟨Option.isSome_iff_exists.mpr ⟨k, hthere⟩,
      InodeTable.resolve_dropEntry hp hl'.found⟩

/-- **In no state does the unlink of a known link remove the link and nothing else**: `op` is what
    `wrap_pre_unlink` records for it. -/
theorem unlink_never_keeps_target {st : FsState} (hr : Reached st) {l target : Path} {i : Nat}
    (hl : st.inodeTable.resolve l = some i) (hlink : st.symlinkTable.getValue i = some target) :
    ∃ op, (∀ op', Records (wrapPreUnlink · · l.native) op' ↔ op' = op) ∧
      ¬ ∃ st', analyzeOperation st op = .ok st' ∧ RemovesOnlyLink st st' l target := by
  refine ⟨_, fun _ => records_unlink, fun hc => ?_⟩
  obtain ⟨st', h, honly⟩ := hc
  rcases (unlink_of_link hr hl hlink h).2 with ⟨hsome, hnone⟩ | ⟨hl', hlink'⟩
  · rw [← honly.targetEntry, hnone] at hsome
    cases hsome
  · rw [honly.linkGone i hl'] at hlink'
    cases hlink'

/-- A file and a link to it. -/
def linkedFile : Trace where
  threadId := 1
  cwd := "/home"
  execOps := [⟨"sync_1", [⟨.hpath atFdcwd "/t" .produced, false, "open"⟩]⟩,
    ⟨"sync_2", [⟨.symlink atFdcwd "/l" "/t", false, "symlinkat"⟩]⟩]
  blocks := [⟨1, .MAIN, [.submitOp ⟨"sync_1", none, ["node_open"]⟩,
    .submitOp ⟨"sync_2", none, ["node_symlink"]⟩]⟩]

/-- After the operations of the trace "/l" is a link to "/t". -/
theorem linkedFile_links : ∃ st, analyzeTrace .init linkedFile = .ok st ∧
    st.inodeTable.resolve ⟨"/l"⟩ = some 4 ∧ st.symlinkTable.getValue 4 = some ⟨"/t"⟩ := by
  have hrun : ((analyzeTrace .init linkedFile).toOption.map fun st =>
      (st.inodeTable.resolve ⟨"/l"⟩, st.symlinkTable.getValue 4)) =
      some (some 4, some ⟨"/t"⟩) := by decide +kernel
  obtain ⟨st, hst, hboth⟩ := Option.map_eq_some_iff.mp hrun
  obtain ⟨hl, hlink⟩ := Prod.mk.inj hboth
  exact ⟨st, toOption_eq_some.mp hst, hl, hlink⟩

theorem unlink_never_keeps_target_linkedFile : ∃ st, analyzeTrace .init linkedFile = .ok st ∧
    ∃ op, (∀ op', Records (wrapPreUnlink · · (Path.mk "/l").native) op' ↔ op' = op) ∧
      ¬ ∃ st', analyzeOperation st op = .ok st' ∧ RemovesOnlyLink st st' ⟨"/l"⟩ ⟨"/t"⟩ := by
  obtain ⟨st, hst, hl, hlink⟩ := linkedFile_links
  exact ⟨st, hst, unlink_never_keeps_target (reached_analyzeTrace hst) hl hlink⟩

/-- The unlink of "/l" removes the entry of "/t". -/
theorem unlinkOnlyLink_fails : ¬ ∀ t st, TraceParser.Accepts t → analyzeTrace .init t = .ok st →
    ∀ l target i, st.inodeTable.resolve l = some i → st.symlinkTable.getValue i = some target →
      target ≠ l → ∃ op st', Records (wrapPreUnlink · · l.native) op ∧
        analyzeOperation st op = .ok st' ∧ RemovesOnlyLink st st' l target := by
  intro h
  have hp : TraceParser.parse (dump linkedFile) = .ok linkedFile := by decide +kernel
  have hgone : ((analyzeTrace .init linkedFile).toOption.bind fun st =>
      (analyzeOperation st ⟨.hpath atFdcwd "/l" .expunged, false, "unlink"⟩).toOption.map fun st' =>
        (st.inodeTable.resolve ⟨"/t"⟩, st'.inodeTable.resolve ⟨"/t"⟩)) =
      some (some 3, none) := by decide +kernel
  obtain ⟨st, hst, hl, hlink⟩ := linkedFile_links
  obtain ⟨st₁, hst₁, hnext⟩ := Option.bind_eq_some_iff.mp hgone
  cases hst.symm.trans (toOption_eq_some.mp hst₁)
  obtain ⟨st', hst', hboth⟩ := Option.map_eq_some_iff.mp hnext
  obtain ⟨hbefore, hafter⟩ := Prod.mk.inj hboth
  obtain ⟨op, st₂, hop, hst₂, honly⟩ := h _ st ⟨_, hp⟩ hst ⟨"/l"⟩ ⟨"/t"⟩ 4 hl hlink (by decide)
  obtain rfl := records_unlink.mp hop
  cases hst₂.symm.trans (toOption_eq_some.mp hst')
  have hsame := honly.targetEntry
  rw [hbefore, hafter] at hsame
  cases hsame

end Fsracer

/-
  File:      Fsracer/FsRun.lean
  Subject:   THE FILE SYSTEM ANALYSIS AS A RUN, one operation at a time.

  A trace is read as a list of `FsAction`s: an event is charged from now on, an event is
  declared, an operation is analysed. `analyzeTrace_eq_run` is the refinement: the run over the
  actions of a trace, from the state that `setUp` leaves, is `AnalyzeTrace`.

  `Outcome` says once what an action can do to the inode table, the descriptors and the symbolic
  links (`outcome_step`); invariants of the tables are proved from it. The first one is that the
  tables are well formed (`wellFormed_run`).
-/
import Mathlib
import Fsracer.Accesses
import Fsracer.Lookup

namespace Fsracer

open FSAnalyzer

/-! ## 1. Actions and runs -/

/-- One step of the file system analysis. -/
inductive FsAction where
  | charge (blockId : String)
  | newEvent (e : NewEventExpr)
  | operation (op : Operation)
  deriving DecidableEq, Repr

/-- One action. -/
def fsStep (st : FsState) : FsAction → Except Abort FsState
  | .charge blockId => .ok { st with blockId := blockId }
  | .newEvent e => .ok (FSAnalyzer.analyzeNewEvent st e)
  | .operation op => analyzeOperation st op

/-- A list of actions. -/
def fsRun (st : FsState) (as : List FsAction) : Except Abort FsState := as.foldlM fsStep st

/-- The actions of an expression. -/
def Expr.fsActions (opTable : Table String ExecOp compare) (block : Block) : Expr → List FsAction
  | .submitOp e =>
      match opTable.getValue e.opId with
      | none => []
      | some execOp => .charge (submitBlockId block e) :: execOp.operations.map .operation
  | .newEvent e => [.newEvent e]
  | .link _ | .trigger _ => []

/-- The operations that a trace declares, by id. -/
def Trace.opTable (t : Trace) : Table String ExecOp compare :=
  t.execOps.foldl (fun table op => table.addEntry op.id op) ∅

/-- The actions of a trace. -/
def Trace.fsActions (t : Trace) : List FsAction :=
  t.blocks.flatMap fun b => b.exprs.flatMap (Expr.fsActions t.opTable b)

theorem fsRun_append (st : FsState) (as bs : List FsAction) :
    fsRun st (as ++ bs) = fsRun st as >>= fun st => fsRun st bs := List.foldlM_append

theorem fsRun_singleton (st : FsState) (a : FsAction) : fsRun st [a] = fsStep st a := by
  show (fsStep st a >>= pure) = _
  rw [bind_pure]

theorem fsRun_cons_eq_ok {st st' : FsState} {a : FsAction} {as : List FsAction} :
    fsRun st (a :: as) = .ok st' ↔ ∃ st₁, fsStep st a = .ok st₁ ∧ fsRun st₁ as = .ok st' := by
  unfold fsRun
  rw [List.foldlM_cons, bind_eq_ok]

theorem fsRun_snoc_eq_ok {st st' : FsState} {as : List FsAction} {a : FsAction} :
    fsRun st (as ++ [a]) = .ok st' ↔ ∃ st₁, fsRun st as = .ok st₁ ∧ fsStep st₁ a = .ok st' := by
  rw [fsRun_append, bind_eq_ok]
  simp only [fsRun_singleton]

theorem toOption_eq_some {α : Type} {x : Except Abort α} {a : α} :
    x.toOption = some a ↔ x = .ok a := by
  cases x with
  | error e => exact iff_of_false nofun nofun
  | ok b => exact ⟨fun h => congrArg _ (Option.some.inj h), fun h => congrArg _ h⟩

/-- The fault of a run that does not return. -/
def abortOf {α : Type} : Except Abort α → Option Abort
  | .ok _ => none
  | .error e => some e

theorem abortOf_eq_some {α : Type} {x : Except Abort α} {e : Abort} :
    abortOf x = some e ↔ x = .error e := by
  cases x with
  | error e' => exact ⟨fun h => congrArg _ (Option.some.inj h), fun h => by cases h; rfl⟩
  | ok b => exact iff_of_false nofun nofun

/-! ## 2. What an action can do -/

theorem toInode_eq_ok {st st' : FsState} {p : Path} {i : Nat} : toInode st p = .ok (i, st') ↔
    ∃ t, st.inodeTable.toInode p = some (i, t) ∧ st' = { st with inodeTable := t } := by
  unfold toInode
  cases h : st.inodeTable.toInode p with
  | none => simp
  | some r =>
      obtain ⟨j, t⟩ := r
      simp only [Except.ok.injEq, Prod.mk.injEq, Option.some.injEq]
      refine ⟨fun ⟨h1, h2⟩ => ⟨t, ⟨h1, rfl⟩, h2.symm⟩, fun ⟨t', ⟨h1, h2⟩, h3⟩ => ⟨h1, ?_⟩⟩
      rw [h3, h2]

theorem unlinkResource_eq_ok {st st' : FsState} {a : Nat} {n : String} :
    unlinkResource st a n = .ok st' ↔
      ∃ t, st.inodeTable.removeEntry a n = some t ∧ st' = { st with inodeTable := t } := by
  unfold unlinkResource
  cases h : st.inodeTable.removeEntry a n with
  | none => simp
  | some t => simp [eq_comm]

/-- The tables that the operations work on. -/
structure FileTables where
  inodes : InodeTable
  fds : Table (Nat × Nat) InodeKey (Ordered.pairCmp Nat Nat)
  links : Table Nat Path compare

/-- The tables of a state. -/
def FsState.tables (st : FsState) : FileTables := ⟨st.inodeTable, st.fdTable, st.symlinkTable⟩

/-- The path that an operation names is used; a known link is followed once. -/
def followed (links : Table Nat Path compare) (inode : Nat) (p : Path) : Path :=
  match links.getValue inode with
  | some derPath => derPath
  | none => p

/-- The actions that leave the tables alone: no operation on a path, or one whose path cannot be
    made absolute. -/
def Quiet (st : FsState) : FsAction → Prop
  | .charge _ | .newEvent _ => True
  | .operation op =>
      match op.kind with
      | .newFd dirfd path fd => fd < 0 ∨ getAbsolutePath st dirfd ⟨path⟩ = none
      | .delFd _ => False
      | .hpath dirfd path _ => getAbsolutePath st dirfd ⟨path⟩ = none
      | .hpathSym dirfd path effect =>
          getAbsolutePath st dirfd ⟨path⟩ = none ∨ effect ≠ .expunged
      | .link oldDirfd oldPath newDirfd newPath | .rename oldDirfd oldPath newDirfd newPath =>
          getAbsolutePath st oldDirfd ⟨oldPath⟩ = none ∨
            getAbsolutePath st newDirfd ⟨newPath⟩ = none
      | .symlink dirfd path _ => getAbsolutePath st dirfd ⟨path⟩ = none

/-- What an action can make of the tables. -/
inductive Outcome (st : FsState) : FsAction → FileTables → Prop where
  /-- Nothing. -/
  | idle {a : FsAction} (h : Quiet st a) : Outcome st a st.tables
  /-- `AnalyzeNewFd`. -/
  | newFd {op : Operation} {dirfd : Nat} {path : String} {fd : Int} {p : Path} {a : Nat}
      {t : InodeTable} (hop : op.kind = .newFd dirfd path fd) (hfd : 0 ≤ fd)
      (hp : getAbsolutePath st dirfd ⟨path⟩ = some p)
      (ht : st.inodeTable.toInode p.parentPath = some (a, t)) :
      Outcome st (.operation op)
        ⟨(t.addEntry a p.filename.native p).openInode a p.filename.native,
          st.fdTable.addEntry (st.mainProcess, fd.toNat) (a, p.filename.native), st.symlinkTable⟩
  /-- `AnalyzeDelFd`. -/
  | delFd {op : Operation} {fd : Nat} {key : InodeKey} {t : InodeTable}
      (hop : op.kind = .delFd fd)
      (hk : st.fdTable.getValue (st.mainProcess, fd) = some key)
      (ht : st.inodeTable.closeInode key.1 key.2 = some t) :
      Outcome st (.operation op) ⟨t, st.fdTable.erase (st.mainProcess, fd), st.symlinkTable⟩
  /-- `AnalyzeHpath` of a path that is read or written. -/
  | lookup {op : Operation} {dirfd : Nat} {path : String} {effect : EffectType} {p : Path}
      {i : Nat} {t : InodeTable} (hop : op.kind = .hpath dirfd path effect)
      (heff : effect ≠ .expunged) (hp : getAbsolutePath st dirfd ⟨path⟩ = some p)
      (ht : st.inodeTable.toInode p = some (i, t)) :
      Outcome st (.operation op) ⟨t, st.fdTable, st.symlinkTable⟩
  /-- `AnalyzeHpath` of a path that is removed. -/
  | expunge {op : Operation} {dirfd : Nat} {path : String} {p : Path} {i a : Nat}
      {t t' t'' : InodeTable} (hop : op.kind = .hpath dirfd path .expunged)
      (hp : getAbsolutePath st dirfd ⟨path⟩ = some p)
      (ht : st.inodeTable.toInode p = some (i, t))
      (ht' : t.toInode (followed st.symlinkTable i p).parentPath = some (a, t'))
      (hr : t'.removeEntry a (followed st.symlinkTable i p).filename.native = some t'') :
      Outcome st (.operation op) ⟨t'', st.fdTable, st.symlinkTable⟩
  /-- `AnalyzeHpathSym` of a path that is removed. -/
  | expungeSym {op : Operation} {dirfd : Nat} {path : String} {p : Path} {a : Nat}
      {t t' : InodeTable} (hop : op.kind = .hpathSym dirfd path .expunged)
      (hp : getAbsolutePath st dirfd ⟨path⟩ = some p)
      (ht : st.inodeTable.toInode p.parentPath = some (a, t))
      (hr : t.removeEntry a p.filename.native = some t') :
      Outcome st (.operation op) ⟨t', st.fdTable, st.symlinkTable⟩
  /-- `AnalyzeLink`. -/
  | link {op : Operation} {od nd : Nat} {op' np : String} {p q : Path} {i a : Nat}
      {t t' : InodeTable} (hop : op.kind = .link od op' nd np)
      (hp : getAbsolutePath st od ⟨op'⟩ = some p) (hq : getAbsolutePath st nd ⟨np⟩ = some q)
      (ht : st.inodeTable.toInode p = some (i, t)) (ht' : t.toInode q.parentPath = some (a, t')) :
      Outcome st (.operation op)
        ⟨t'.addEntryWith a q.filename.native q i, st.fdTable, st.symlinkTable⟩
  /-- `AnalyzeRename` onto a name of the same inode. -/
  | renameSame {op : Operation} {od nd : Nat} {op' np : String} {p q : Path} {i a : Nat}
      {t t' : InodeTable} (hop : op.kind = .rename od op' nd np)
      (hp : getAbsolutePath st od ⟨op'⟩ = some p) (hq : getAbsolutePath st nd ⟨np⟩ = some q)
      (ht : st.inodeTable.toInode p = some (i, t)) (ht' : t.toInode q.parentPath = some (a, t'))
      (hs : t'.getInode a q.filename.native = some i) :
      Outcome st (.operation op) ⟨t', st.fdTable, st.symlinkTable⟩
  /-- `AnalyzeRename`. -/
  | rename {op : Operation} {od nd : Nat} {op' np : String} {p q : Path} {i a b : Nat}
      {t t' t'' u : InodeTable} (hop : op.kind = .rename od op' nd np)
      (hp : getAbsolutePath st od ⟨op'⟩ = some p) (hq : getAbsolutePath st nd ⟨np⟩ = some q)
      (ht : st.inodeTable.toInode p = some (i, t)) (ht' : t.toInode q.parentPath = some (a, t'))
      (hs : t'.getInode a q.filename.native ≠ some i)
      (ht'' : (t'.addEntryWith a q.filename.native q i).toInode p.parentPath = some (b, t''))
      (hr : t''.removeEntry b p.filename.native = some u) :
      Outcome st (.operation op) ⟨u, st.fdTable, st.symlinkTable⟩
  /-- `AnalyzeSymlink`. -/
  | symlink {op : Operation} {dirfd : Nat} {path target : String} {p : Path} {i : Nat}
      {t : InodeTable} (hop : op.kind = .symlink dirfd path target)
      (hp : getAbsolutePath st dirfd ⟨path⟩ = some p)
      (ht : st.inodeTable.toInode p = some (i, t)) :
      Outcome st (.operation op) ⟨t, st.fdTable, st.symlinkTable.addEntry i ⟨target⟩⟩

/-- The fields that no action writes. -/
structure SameProcess (st st' : FsState) : Prop where
  mainProcess : st'.mainProcess = st.mainProcess
  cwdTable : st'.cwdTable = st.cwdTable
  opTable : st'.opTable = st.opTable

theorem SameProcess.refl (st : FsState) : SameProcess st st := ⟨rfl, rfl, rfl⟩

theorem SameProcess.trans {st st' st'' : FsState} (h : SameProcess st st')
    (h' : SameProcess st' st'') : SameProcess st st'' :=
  ⟨h'.mainProcess.trans h.mainProcess, h'.cwdTable.trans h.cwdTable, h'.opTable.trans h.opTable⟩

/-! ### One statement for each function -/

theorem eventTags_eq {st : FsState} : eventTags st =
    match tagsOf st with
    | some debugInfo => .ok debugInfo
    | none => .error .badOptionalAccess := by
  unfold eventTags tagsOf
  split
  · rfl
  · cases st.eventInfo.getValue st.blockId <;> rfl

theorem eventTags_eq_ok {st : FsState} {debugInfo : DebugInfo} :
    eventTags st = .ok debugInfo ↔ tagsOf st = some debugInfo := by
  rw [eventTags_eq]
  cases tagsOf st with
  | none => exact iff_of_false nofun nofun
  | some tags => exact ⟨fun h => congrArg _ (Except.ok.inj h), fun h => congrArg _ (Option.some.inj h)⟩

/-- `ProcessPathEffect` returns for an event with tags; an expunged path is unlinked. -/
theorem processPathEffect_eq_ok {st st' : FsState} {p : Path} {effect : EffectType}
    {name : String} : processPathEffect st p effect name = .ok st' ↔
      ∃ debugInfo t, tagsOf st = some debugInfo ∧
        ((effect ≠ .expunged ∧ t = st.inodeTable) ∨
          (effect = .expunged ∧ ∃ a u, st.inodeTable.toInode p.parentPath = some (a, u) ∧
            u.removeEntry a p.filename.native = some t)) ∧
        st' = { st with
          inodeTable := t
          blockAccesses := addPathEffect st.blockAccesses p
            ⟨st.blockId, effect, debugInfo, name⟩ } := by
  unfold processPathEffect
  rw [bind_eq_ok]
  constructor
  · intro hc
    obtain ⟨tags, htags, h⟩ := hc
    have htags := eventTags_eq_ok.mp htags
    cases effect with
    | consumed => exact ⟨tags, _, htags, .inl ⟨nofun, rfl⟩, (pure_eq_ok.mp h).symm⟩
    | produced => exact ⟨tags, _, htags, .inl ⟨nofun, rfl⟩, (pure_eq_ok.mp h).symm⟩
    | expunged =>
        obtain ⟨⟨a, st₁⟩, h1, h⟩ := bind_eq_ok.mp h
        obtain ⟨u, hu, rfl⟩ := toInode_eq_ok.mp h1
        obtain ⟨t, ht, rfl⟩ := unlinkResource_eq_ok.mp h
        exact ⟨tags, t, htags, .inr ⟨rfl, a, u, hu, ht⟩, rfl⟩
  · intro hc
    obtain ⟨tags, t, htags, hcase, rfl⟩ := hc
    refine ⟨tags, eventTags_eq_ok.mpr htags, ?_⟩
    cases effect with
    | consumed =>
        obtain ⟨_, rfl⟩ := hcase.resolve_right fun h => nomatch h.1
        rfl
    | produced =>
        obtain ⟨_, rfl⟩ := hcase.resolve_right fun h => nomatch h.1
        rfl
    | expunged =>
        obtain ⟨_, a, u, hu, hr⟩ := hcase.resolve_left fun h => h.1 rfl
        exact bind_eq_ok.mpr ⟨_, toInode_eq_ok.mpr ⟨u, hu, rfl⟩,
          unlinkResource_eq_ok.mpr ⟨t, hr, rfl⟩⟩

/-- `AnalyzeHpath` of a path: looked up, followed if it is a known link, processed. -/
theorem analyzeHpath_eq_ok {st st' : FsState} {dirfd : Nat} {path name : String}
    {effect : EffectType} {p : Path} (hp : getAbsolutePath st dirfd ⟨path⟩ = some p) :
    analyzeHpath st dirfd path effect name = .ok st' ↔
      ∃ i t, st.inodeTable.toInode p = some (i, t) ∧
        processPathEffect { st with inodeTable := t } (followed st.symlinkTable i p) effect name =
          .ok st' := by
  unfold analyzeHpath
  rw [hp]
  dsimp only
  rw [bind_eq_ok]
  constructor
  · intro hc
    obtain ⟨⟨i, st₁⟩, h1, h⟩ := hc
    obtain ⟨t, ht, rfl⟩ := toInode_eq_ok.mp h1
    exact ⟨i, t, ht, h⟩
  · intro hc
    obtain ⟨i, t, ht, h⟩ := hc
    exact ⟨_, toInode_eq_ok.mpr ⟨t, ht, rfl⟩, h⟩

/-- `AnalyzeRename` of a path onto another. -/
theorem analyzeRename_eq_ok {st st' : FsState} {od nd : Nat} {oldPath newPath : String}
    {p q : Path} (hp : getAbsolutePath st od ⟨oldPath⟩ = some p)
    (hq : getAbsolutePath st nd ⟨newPath⟩ = some q) :
    analyzeRename st od oldPath nd newPath = .ok st' ↔
      ∃ i a t t' u, st.inodeTable.toInode p = some (i, t) ∧
        t.toInode q.parentPath = some (a, t') ∧
        ((t'.getInode a q.filename.native = some i ∧ u = t') ∨
          (t'.getInode a q.filename.native ≠ some i ∧ ∃ b t'',
            (t'.addEntryWith a q.filename.native q i).toInode p.parentPath = some (b, t'') ∧
            t''.removeEntry b p.filename.native = some u)) ∧
        st' = { st with inodeTable := u } := by
  unfold analyzeRename
  rw [hp, hq]
  dsimp only
  rw [bind_eq_ok]
  constructor
  · intro hc
    obtain ⟨⟨i, st₁⟩, h1, h⟩ := hc
    obtain ⟨t, ht, rfl⟩ := toInode_eq_ok.mp h1
    obtain ⟨⟨a, st₂⟩, h2, h⟩ := bind_eq_ok.mp h
    obtain ⟨t', ht', rfl⟩ := toInode_eq_ok.mp h2
    dsimp only at h
    split at h
    · rename_i hs
      cases pure_eq_ok.mp h
      exact ⟨i, a, t, t', t', ht, ht', .inl ⟨hs, rfl⟩, rfl⟩
    · rename_i hs
      obtain ⟨⟨b, st₃⟩, h3, h⟩ := bind_eq_ok.mp h
      obtain ⟨t'', ht'', rfl⟩ := toInode_eq_ok.mp h3
      obtain ⟨u, hr, rfl⟩ := unlinkResource_eq_ok.mp h
      exact ⟨i, a, t, t', u, ht, ht', .inr ⟨hs, b, t'', ht'', hr⟩, rfl⟩
  · intro hc
    obtain ⟨i, a, t, t', u, ht, ht', hcase, rfl⟩ := hc
    refine ⟨_, toInode_eq_ok.mpr ⟨t, ht, rfl⟩, bind_eq_ok.mpr
      ⟨_, toInode_eq_ok.mpr ⟨t', ht', rfl⟩, ?_⟩⟩
    dsimp only
    rcases hcase with ⟨hs, rfl⟩ | ⟨hs, b, t'', ht'', hr⟩
    · rw [if_pos hs]
      rfl
    · rw [if_neg hs]
      exact bind_eq_ok.mpr ⟨_, toInode_eq_ok.mpr ⟨t'', ht'', rfl⟩,
        unlinkResource_eq_ok.mpr ⟨u, hr, rfl⟩⟩

section Functions

variable {st st' : FsState} {op : Operation}

theorem outcome_quiet {a : FsAction} (hq : Quiet st a) (h : st' = st) :
    SameProcess st st' ∧ Outcome st a st'.tables := by
  subst h
  exact ⟨.refl _, .idle hq⟩

theorem outcome_newFd {dirfd : Nat} {path : String} {fd : Int}
    (hop : op.kind = .newFd dirfd path fd) (h : analyzeNewFd st dirfd path fd = .ok st') :
    SameProcess st st' ∧ Outcome st (.operation op) st'.tables := by
  unfold analyzeNewFd at h
  split at h
  · rename_i hfd
    cases h
    exact outcome_quiet (by unfold Quiet; simp [hop, hfd]) rfl
  · rename_i hfd
    cases hp : getAbsolutePath st dirfd ⟨path⟩ with
    | none =>
        rw [hp] at h
        cases h
        exact outcome_quiet (by unfold Quiet; simp [hop, hp]) rfl
    | some p =>
        rw [hp] at h
        obtain ⟨⟨a, st₁⟩, h1, h⟩ := bind_eq_ok.mp h
        obtain ⟨t, ht, rfl⟩ := toInode_eq_ok.mp h1
        cases pure_eq_ok.mp h
        exact ⟨⟨rfl, rfl, rfl⟩, .newFd hop (not_lt.mp hfd) hp ht⟩

theorem outcome_delFd {fd : Nat} (hop : op.kind = .delFd fd)
    (h : analyzeDelFd st fd = .ok st') :
    SameProcess st st' ∧ Outcome st (.operation op) st'.tables := by
  unfold analyzeDelFd at h
  cases hk : st.fdTable.popEntry (st.mainProcess, fd) with
  | none =>
      rw [hk] at h
      cases h
  | some r =>
      obtain ⟨hv, hr⟩ := Table.popEntry_eq_some.mp hk
      rw [hk] at h
      dsimp only at h
      cases ht : st.inodeTable.closeInode r.1.1 r.1.2 with
      | none =>
          rw [ht] at h
          cases h
      | some t =>
          rw [ht] at h
          cases h
          refine ⟨⟨rfl, rfl, rfl⟩, ?_⟩
          show Outcome st (.operation op) ⟨t, r.2, st.symlinkTable⟩
          rw [hr]
          exact .delFd hop hv ht

theorem outcome_hpath {dirfd : Nat} {path name : String} {effect : EffectType}
    (hop : op.kind = .hpath dirfd path effect)
    (h : analyzeHpath st dirfd path effect name = .ok st') :
    SameProcess st st' ∧ Outcome st (.operation op) st'.tables := by
  cases hp : getAbsolutePath st dirfd ⟨path⟩ with
  | none =>
      rw [analyzeHpath, hp] at h
      cases h
      exact outcome_quiet (by unfold Quiet; simp [hop, hp]) rfl
  | some p =>
      obtain ⟨i, t, ht, h⟩ := (analyzeHpath_eq_ok hp).mp h
      obtain ⟨_, u, _, hcase, rfl⟩ := processPathEffect_eq_ok.mp h
      refine ⟨⟨rfl, rfl, rfl⟩, ?_⟩
      rcases hcase with ⟨he, rfl⟩ | ⟨rfl, a, t', ht', hr⟩
      · exact .lookup hop he hp ht
      · exact .expunge hop hp ht ht' hr

theorem outcome_hpathSym {dirfd : Nat} {path name : String} {effect : EffectType}
    (hop : op.kind = .hpathSym dirfd path effect)
    (h : analyzeHpathSym st dirfd path effect name = .ok st') :
    SameProcess st st' ∧ Outcome st (.operation op) st'.tables := by
  unfold analyzeHpathSym at h
  cases hp : getAbsolutePath st dirfd ⟨path⟩ with
  | none =>
      rw [hp] at h
      cases h
      exact outcome_quiet (by unfold Quiet; simp [hop, hp]) rfl
  | some p =>
      rw [hp] at h
      obtain ⟨_, u, _, hcase, rfl⟩ := processPathEffect_eq_ok.mp h
      refine ⟨⟨rfl, rfl, rfl⟩, ?_⟩
      rcases hcase with ⟨he, rfl⟩ | ⟨rfl, a, t, ht, hr⟩
      · exact .idle (by unfold Quiet; simp [hop, he])
      · exact .expungeSym hop hp ht hr

theorem none_or_none {α β : Type} {x : Option α} {y : Option β}
    (h : ∀ a b, x = some a → y = some b → False) : x = none ∨ y = none := by
  cases x with
  | none => exact .inl rfl
  | some a =>
      cases y with
      | none => exact .inr rfl
      | some b => exact absurd rfl (h a b rfl)

theorem outcome_link {od nd : Nat} {oldPath newPath : String}
    (hop : op.kind = .link od oldPath nd newPath)
    (h : FSAnalyzer.analyzeLink st od oldPath nd newPath = .ok st') :
    SameProcess st st' ∧ Outcome st (.operation op) st'.tables := by
  unfold FSAnalyzer.analyzeLink at h
  split at h
  · rename_i p q hp hq
    obtain ⟨⟨i, st₁⟩, h1, h⟩ := bind_eq_ok.mp h
    obtain ⟨t, ht, rfl⟩ := toInode_eq_ok.mp h1
    obtain ⟨⟨a, st₂⟩, h2, h⟩ := bind_eq_ok.mp h
    obtain ⟨t', ht', rfl⟩ := toInode_eq_ok.mp h2
    cases pure_eq_ok.mp h
    exact ⟨⟨rfl, rfl, rfl⟩, .link hop hp hq ht ht'⟩
  · rename_i hno
    cases h
    exact outcome_quiet (by unfold Quiet; simp [hop, none_or_none hno]) rfl

theorem outcome_rename {od nd : Nat} {oldPath newPath : String}
    (hop : op.kind = .rename od oldPath nd newPath)
    (h : analyzeRename st od oldPath nd newPath = .ok st') :
    SameProcess st st' ∧ Outcome st (.operation op) st'.tables := by
  by_cases hboth : ∃ p q, getAbsolutePath st od ⟨oldPath⟩ = some p ∧
      getAbsolutePath st nd ⟨newPath⟩ = some q
  · obtain ⟨p, q, hp, hq⟩ := hboth
    obtain ⟨i, a, t, t', u, ht, ht', hcase, rfl⟩ := (analyzeRename_eq_ok hp hq).mp h
    refine ⟨⟨rfl, rfl, rfl⟩, ?_⟩
    rcases hcase with ⟨hs, rfl⟩ | ⟨hs, b, t'', ht'', hr⟩
    · exact .renameSame hop hp hq ht ht' hs
    · exact .rename hop hp hq ht ht' hs ht'' hr
  · unfold analyzeRename at h
    split at h
    · rename_i p q hp hq
      exact absurd ⟨p, q, hp, hq⟩ hboth
    · rename_i hno
      cases h
      exact outcome_quiet (by unfold Quiet; simp [hop, none_or_none hno]) rfl

theorem outcome_symlink {dirfd : Nat} {path target : String}
    (hop : op.kind = .symlink dirfd path target)
    (h : analyzeSymlink st dirfd path target = .ok st') :
    SameProcess st st' ∧ Outcome st (.operation op) st'.tables := by
  unfold analyzeSymlink at h
  cases hp : getAbsolutePath st dirfd ⟨path⟩ with
  | none =>
      rw [hp] at h
      cases h
      exact outcome_quiet (by unfold Quiet; simp [hop, hp]) rfl
  | some p =>
      rw [hp] at h
      obtain ⟨⟨i, st₁⟩, h1, h⟩ := bind_eq_ok.mp h
      obtain ⟨t, ht, rfl⟩ := toInode_eq_ok.mp h1
      cases pure_eq_ok.mp h
      exact ⟨⟨rfl, rfl, rfl⟩, .symlink hop hp ht⟩

end Functions

/-- **What a step does**: one of the outcomes, and the process keeps its own fields. -/
theorem outcome_step {st st' : FsState} {a : FsAction} (h : fsStep st a = .ok st') :
    SameProcess st st' ∧ Outcome st a st'.tables := by
  cases a with
  | charge blockId =>
      cases h
      exact ⟨⟨rfl, rfl, rfl⟩, .idle trivial⟩
  | newEvent e =>
      cases h
      exact ⟨⟨rfl, rfl, rfl⟩, .idle trivial⟩
  | operation op =>
      have h : analyzeOperation st op = .ok st' := h
      unfold analyzeOperation at h
      cases hop : op.kind with
      | newFd dirfd path fd =>
          rw [hop] at h
          exact outcome_newFd hop h
      | delFd fd =>
          rw [hop] at h
          exact outcome_delFd hop h
      | hpath dirfd path effect =>
          rw [hop] at h
          exact outcome_hpath hop h
      | hpathSym dirfd path effect =>
          rw [hop] at h
          exact outcome_hpathSym hop h
      | link od oldPath nd newPath =>
          rw [hop] at h
          exact outcome_link hop h
      | rename od oldPath nd newPath =>
          rw [hop] at h
          exact outcome_rename hop h
      | symlink dirfd path target =>
          rw [hop] at h
          exact outcome_symlink hop h

/-! ## 3. What runs keep -/

/-- Every step of a run meets a condition on the state before it. -/
def EachStep (C : FsState → FsAction → Prop) (st : FsState) (as : List FsAction) : Prop :=
  ∀ bs a st₁, bs ++ [a] <+: as → fsRun st bs = .ok st₁ → C st₁ a

section Runs

variable {P : FsState → Prop} {C : FsState → FsAction → Prop} {st st' : FsState}
  {as bs : List FsAction}

theorem EachStep.mono (h : EachStep C st bs) (hp : as <+: bs) : EachStep C st as :=
  fun cs a st₁ hcs => h cs a st₁ (hcs.trans hp)

/-- What every step under the condition keeps, a run under the condition keeps. -/
theorem fsRun_invariant
    (hstep : ∀ st₁ a st₂, C st₁ a → fsStep st₁ a = .ok st₂ → P st₁ → P st₂)
    (h0 : P st) (hc : EachStep C st as) (h : fsRun st as = .ok st') : P st' := by
  induction as using List.reverseRecOn generalizing st' with
  | nil =>
      cases h
      exact h0
  | append_singleton as a ih =>
      obtain ⟨st₁, h1, h2⟩ := fsRun_snoc_eq_ok.mp h
      exact hstep st₁ a st' (hc as a st₁ (List.prefix_refl _) h1) h2
        (ih (hc.mono (List.prefix_append _ _)) h1)

/-- What every step keeps, every run keeps. -/
theorem fsRun_keeps (hstep : ∀ st₁ a st₂, fsStep st₁ a = .ok st₂ → P st₁ → P st₂)
    (h0 : P st) (h : fsRun st as = .ok st') : P st' :=
  fsRun_invariant (C := fun _ _ => True) (fun st₁ a st₂ _ => hstep st₁ a st₂) h0
    (fun _ _ _ _ _ => trivial) h

theorem sameProcess_run (h : fsRun st as = .ok st') : SameProcess st st' :=
  fsRun_keeps (P := SameProcess st) (fun _ _ _ h2 h1 => h1.trans (outcome_step h2).1) (.refl st) h

end Runs

/-- The inode table is well formed, and the symbolic links belong to inodes that it knows. -/
structure FileTables.WellFormed (f : FileTables) : Prop where
  inodes : f.inodes.WellFormed
  links : ∀ i p, f.links.getValue i = some p → i < f.inodes.nextInode

theorem Outcome.wellFormed {st : FsState} {a : FsAction} {f : FileTables}
    (hw : st.tables.WellFormed) (h : Outcome st a f) : f.WellFormed := by
  have hlinks : ∀ n, st.inodeTable.nextInode ≤ n → ∀ i p, st.symlinkTable.getValue i = some p →
      i < n := fun n hn i p hi => (hw.links i p hi).trans_le hn
  cases h with
  | idle _ => exact hw
  | newFd _ _ _ ht =>
      obtain ⟨ns, n, _, _, hl⟩ := InodeTable.toInode_parent_spec hw.inodes ht
      refine ⟨(hl.wellFormed.addEntry hl.lt _ _).openInode ?_, hlinks _ ?_⟩
      · rw [InodeTable.getInode_addEntry, if_pos rfl]
        rfl
      · rw [InodeTable.nextInode_openInode]
        exact hl.nextInode.trans (Nat.le_succ _)
  | delFd _ _ ht =>
      exact ⟨hw.inodes.closeInode ht, hlinks _ (InodeTable.nextInode_closeInode ht).ge⟩
  | lookup _ _ _ ht =>
      obtain ⟨ns, _, hl⟩ := InodeTable.toInode_spec hw.inodes ht
      exact ⟨hl.wellFormed, hlinks _ hl.nextInode⟩
  | expunge _ _ ht ht' hr =>
      obtain ⟨ns, _, hl⟩ := InodeTable.toInode_spec hw.inodes ht
      obtain ⟨ms, m, _, _, hl'⟩ := InodeTable.toInode_parent_spec hl.wellFormed ht'
      refine ⟨hl'.wellFormed.removeEntry hr, hlinks _ ?_⟩
      rw [InodeTable.nextInode_removeEntry hr]
      exact hl.nextInode.trans hl'.nextInode
  | expungeSym _ _ ht hr =>
      obtain ⟨ns, n, _, _, hl⟩ := InodeTable.toInode_parent_spec hw.inodes ht
      refine ⟨hl.wellFormed.removeEntry hr, hlinks _ ?_⟩
      rw [InodeTable.nextInode_removeEntry hr]
      exact hl.nextInode
  | link _ _ _ ht ht' =>
      obtain ⟨ns, _, hl⟩ := InodeTable.toInode_spec hw.inodes ht
      obtain ⟨ms, m, _, _, hl'⟩ := InodeTable.toInode_parent_spec hl.wellFormed ht'
      exact ⟨hl'.wellFormed.addEntryWith hl'.lt (hl.lt.trans_le hl'.nextInode) _ _,
        hlinks _ (hl.nextInode.trans hl'.nextInode)⟩
  | renameSame _ _ _ ht ht' _ =>
      obtain ⟨ns, _, hl⟩ := InodeTable.toInode_spec hw.inodes ht
      obtain ⟨ms, m, _, _, hl'⟩ := InodeTable.toInode_parent_spec hl.wellFormed ht'
      exact ⟨hl'.wellFormed, hlinks _ (hl.nextInode.trans hl'.nextInode)⟩
  | rename _ _ _ ht ht' _ ht'' hr =>
      obtain ⟨ns, _, hl⟩ := InodeTable.toInode_spec hw.inodes ht
      obtain ⟨ms, m, _, _, hl'⟩ := InodeTable.toInode_parent_spec hl.wellFormed ht'
      obtain ⟨os, o, _, _, hl''⟩ := InodeTable.toInode_parent_spec
        (hl'.wellFormed.addEntryWith hl'.lt (hl.lt.trans_le hl'.nextInode) _ _) ht''
      refine ⟨hl''.wellFormed.removeEntry hr, hlinks _ ?_⟩
      rw [InodeTable.nextInode_removeEntry hr]
      exact (hl.nextInode.trans hl'.nextInode).trans hl''.nextInode
  | symlink _ _ ht =>
      obtain ⟨ns, _, hl⟩ := InodeTable.toInode_spec hw.inodes ht
      refine ⟨hl.wellFormed, fun i p hi => ?_⟩
      rw [Table.getValue_addEntry] at hi
      split at hi
      · rename_i he
        cases Std.LawfulEqCmp.compare_eq_iff_eq.mp he
        exact hl.lt
      · exact hlinks _ hl.nextInode i p hi

/-- **The tables are well formed in every state of a run.** -/
theorem wellFormed_run {st st' : FsState} {as : List FsAction} (hw : st.tables.WellFormed)
    (h : fsRun st as = .ok st') : st'.tables.WellFormed :=
  fsRun_keeps (P := fun st => st.tables.WellFormed)
    (fun _ _ _ h2 h1 => (outcome_step h2).2.wellFormed h1) hw h

/-! ## 4. Traces are runs -/

/-- What `setUp` leaves. -/
theorem setUp_eq_ok {t : Trace} {st : FsState} (h : setUp t = .ok st) :
    ∃ i u, InodeTable.init.toInode ⟨t.cwd⟩ = some (i, u) ∧ st.tables = ⟨u, ∅, ∅⟩ ∧
      st.mainProcess = t.threadId ∧ st.opTable = t.opTable := by
  unfold setUp at h
  obtain ⟨⟨i, st₁⟩, h1, h⟩ := bind_eq_ok.mp h
  obtain ⟨u, hu, rfl⟩ := toInode_eq_ok.mp h1
  cases pure_eq_ok.mp h
  exact ⟨i, u, hu, rfl, rfl, rfl⟩

theorem wellFormed_setUp {t : Trace} {st : FsState} (h : setUp t = .ok st) :
    st.tables.WellFormed := by
  obtain ⟨i, u, hu, ht, _, _⟩ := setUp_eq_ok h
  obtain ⟨ns, _, hl⟩ := InodeTable.toInode_spec InodeTable.wellFormed_init hu
  rw [ht]
  exact ⟨hl.wellFormed, fun j p hj => by simp at hj⟩

theorem analyzeExpr_eq_run (b : Block) (st : FsState) (e : Expr) :
    FSAnalyzer.analyzeExpr b st e = fsRun st (e.fsActions st.opTable b) := by
  cases e with
  | submitOp e =>
      unfold FSAnalyzer.analyzeExpr analyzeSubmitOp Expr.fsActions
      dsimp only
      cases st.opTable.getValue e.opId with
      | none => rfl
      | some execOp =>
          show _ = List.foldlM fsStep _ (execOp.operations.map FsAction.operation)
          rw [List.foldlM_map]
          rfl
  | newEvent e => rfl
  | link e => rfl
  | trigger e => rfl

/-- Steps that are runs, one after the other. -/
theorem foldlM_eq_run {α : Type} {f : FsState → α → Except Abort FsState}
    {g : α → List FsAction} {opTable : Table String ExecOp compare}
    (hf : ∀ st x, st.opTable = opTable → f st x = fsRun st (g x)) (xs : List α) {st : FsState}
    (hst : st.opTable = opTable) : xs.foldlM f st = fsRun st (xs.flatMap g) := by
  induction xs generalizing st with
  | nil => rfl
  | cons x xs ih =>
      rw [List.foldlM_cons, List.flatMap_cons, fsRun_append, hf st x hst]
      cases h : fsRun st (g x) with
      | error e => rfl
      | ok st₁ => exact ih ((sameProcess_run h).opTable.trans hst)

/-- **The analysis of a trace is a run.** -/
theorem analyzeTrace_eq_run (t : Trace) :
    analyzeTrace .init t = setUp t >>= fun st => fsRun st t.fsActions := by
  have hsetUp : analyzeTrace .init t =
      setUp t >>= fun st => t.blocks.foldlM FSAnalyzer.analyzeBlock st := by
    unfold analyzeTrace setUp
    simp only [bind_assoc, pure_bind]
  rw [hsetUp]
  cases h : setUp t with
  | error e => rfl
  | ok st =>
      obtain ⟨_, _, _, _, _, hop⟩ := setUp_eq_ok h
      exact foldlM_eq_run (fun st' b h' => foldlM_eq_run
        (fun st'' e h'' => by rw [analyzeExpr_eq_run, h'']) b.exprs h') t.blocks hop

theorem analyzeTrace_eq_ok {t : Trace} {st : FsState} : analyzeTrace .init t = .ok st ↔
    ∃ st₀, setUp t = .ok st₀ ∧ fsRun st₀ t.fsActions = .ok st := by
  rw [analyzeTrace_eq_run, bind_eq_ok]

/-- The states that an analysis comes to: any actions after the set-up for any trace. -/
def Reached (st : FsState) : Prop :=
  ∃ t st₀ as, setUp t = .ok st₀ ∧ fsRun st₀ as = .ok st

theorem Reached.wellFormed {st : FsState} (h : Reached st) : st.tables.WellFormed := by
  obtain ⟨t, st₀, as, h0, hrun⟩ := h
  exact wellFormed_run (wellFormed_setUp h0) hrun

theorem reached_analyzeTrace {t : Trace} {st : FsState} (h : analyzeTrace .init t = .ok st) :
    Reached st := by
  obtain ⟨st₀, h0, hrun⟩ := analyzeTrace_eq_ok.mp h
  exact ⟨t, st₀, _, h0, hrun⟩

end Fsracer

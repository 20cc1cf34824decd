/-
  File:      Fsracer/Verdicts.lean
  Subject:   THE VERDICT DOES NOT DEPEND ON THE SCHEDULE.

  The analyses read the table of operations through its ids only, and never change it. Two traces
  with the same blocks and the same operations in another order have the same graph, the same
  table of accesses and the same report (`SameVerdict.raceReport`).
  **`verdict_interleaving`** -- so have any two interleavings of the same threads.
-/
import Mathlib
import Fsracer.Threads
import Fsracer.Recording
import Fsracer.Traced

namespace Fsracer

open FSAnalyzer Detector

/-! ## 1. The operation table is not read by the operations -/

/-- The state with another table of operations. -/
def withOps (table : Table String ExecOp compare) (st : FsState) : FsState :=
  { st with opTable := table }

section Frame

variable (table : Table String ExecOp compare) (st : FsState)

theorem toInode_withOps (p : Path) : toInode (withOps table st) p =
    (toInode st p).map fun r => (r.1, withOps table r.2) := by
  unfold toInode
  have h : (withOps table st).inodeTable = st.inodeTable := rfl
  rw [h]
  cases st.inodeTable.toInode p <;> rfl

theorem getAbsolutePath_withOps (dirfd : Nat) (p : Path) :
    getAbsolutePath (withOps table st) dirfd p = getAbsolutePath st dirfd p := rfl

theorem unlinkResource_withOps (inodeP : Nat) (basename : String) :
    unlinkResource (withOps table st) inodeP basename =
      (unlinkResource st inodeP basename).map (withOps table) := by
  unfold unlinkResource
  have h : (withOps table st).inodeTable = st.inodeTable := rfl
  rw [h]
  cases st.inodeTable.removeEntry inodeP basename <;> rfl

theorem analyzeNewFd_withOps (dirfd : Nat) (path : String) (fd : Int) :
    analyzeNewFd (withOps table st) dirfd path fd =
      (analyzeNewFd st dirfd path fd).map (withOps table) := by
  unfold analyzeNewFd
  rw [getAbsolutePath_withOps]
  split
  · rfl
  · cases getAbsolutePath st dirfd ⟨path⟩ with
    | none => rfl
    | some p =>
        simp only [toInode_withOps]
        cases toInode st p.parentPath <;> rfl

theorem analyzeDelFd_withOps (fd : Nat) :
    analyzeDelFd (withOps table st) fd = (analyzeDelFd st fd).map (withOps table) := by
  unfold analyzeDelFd
  have h1 : (withOps table st).fdTable = st.fdTable := rfl
  have h2 : (withOps table st).inodeTable = st.inodeTable := rfl
  have h3 : (withOps table st).mainProcess = st.mainProcess := rfl
  rw [h1, h2, h3]
  cases st.fdTable.popEntry (st.mainProcess, fd) with
  | none => rfl
  | some r =>
      dsimp only
      cases st.inodeTable.closeInode r.1.1 r.1.2 <;> rfl

theorem eventTags_withOps : eventTags (withOps table st) = eventTags st := rfl

theorem processPathEffect_withOps (p : Path) (effect : EffectType) (name : String) :
    processPathEffect (withOps table st) p effect name =
      (processPathEffect st p effect name).map (withOps table) := by
  unfold processPathEffect
  rw [eventTags_withOps]
  cases eventTags st with
  | error e => rfl
  | ok tags =>
      cases effect with
      | consumed => rfl
      | produced => rfl
      | expunged =>
          simp only [bind, Except.bind, toInode_withOps]
          cases toInode st p.parentPath with
          | error e => rfl
          | ok r => exact unlinkResource_withOps table { r.2 with
              blockAccesses := addPathEffect r.2.blockAccesses p
                ⟨st.blockId, .expunged, tags, name⟩ } r.1 _

theorem analyzeHpath_withOps (dirfd : Nat) (path : String) (effect : EffectType) (name : String) :
    analyzeHpath (withOps table st) dirfd path effect name =
      (analyzeHpath st dirfd path effect name).map (withOps table) := by
  unfold analyzeHpath
  rw [getAbsolutePath_withOps]
  cases getAbsolutePath st dirfd ⟨path⟩ with
  | none => rfl
  | some p =>
      simp only [toInode_withOps]
      cases toInode st p with
      | error e => rfl
      | ok r => exact processPathEffect_withOps table r.2 _ effect name

theorem analyzeHpathSym_withOps (dirfd : Nat) (path : String) (effect : EffectType)
    (name : String) : analyzeHpathSym (withOps table st) dirfd path effect name =
      (analyzeHpathSym st dirfd path effect name).map (withOps table) := by
  unfold analyzeHpathSym
  rw [getAbsolutePath_withOps]
  cases getAbsolutePath st dirfd ⟨path⟩ with
  | none => rfl
  | some p => exact processPathEffect_withOps table st p effect name

theorem analyzeLink_withOps (od : Nat) (op : String) (nd : Nat) (np : String) :
    FSAnalyzer.analyzeLink (withOps table st) od op nd np =
      (FSAnalyzer.analyzeLink st od op nd np).map (withOps table) := by
  unfold FSAnalyzer.analyzeLink
  rw [getAbsolutePath_withOps, getAbsolutePath_withOps]
  cases getAbsolutePath st od ⟨op⟩ with
  | none => rfl
  | some p =>
      cases getAbsolutePath st nd ⟨np⟩ with
      | none => rfl
      | some q =>
          simp only [toInode_withOps]
          cases toInode st p with
          | error e => rfl
          | ok r =>
              simp only [Except.map, bind, Except.bind, toInode_withOps]
              cases toInode r.2 q.parentPath <;> rfl

theorem analyzeRename_withOps (od : Nat) (op : String) (nd : Nat) (np : String) :
    analyzeRename (withOps table st) od op nd np =
      (analyzeRename st od op nd np).map (withOps table) := by
  unfold analyzeRename
  rw [getAbsolutePath_withOps, getAbsolutePath_withOps]
  cases getAbsolutePath st od ⟨op⟩ with
  | none => rfl
  | some p =>
      cases getAbsolutePath st nd ⟨np⟩ with
      | none => rfl
      | some q =>
          simp only [toInode_withOps]
          cases toInode st p with
          | error e => rfl
          | ok r =>
              simp only [Except.map, bind, Except.bind, toInode_withOps]
              cases toInode r.2 q.parentPath with
              | error e => rfl
              | ok r' =>
                  have hi : (withOps table r'.2).inodeTable = r'.2.inodeTable := rfl
                  simp only [hi]
                  by_cases h : r'.2.inodeTable.getInode r'.1 q.filename.native = some r.1
                  · rw [if_pos h, if_pos h]
                    rfl
                  · rw [if_neg h, if_neg h]
                    have hw : ∀ t : InodeTable, { withOps table r'.2 with inodeTable := t } =
                        withOps table { r'.2 with inodeTable := t } := fun _ => rfl
                    rw [hw, toInode_withOps]
                    set r₂ := { r'.2 with
                      inodeTable := r'.2.inodeTable.addEntryWith r'.1 q.filename.native q r.1 }
                    cases toInode r₂ p.parentPath with
                    | error e => rfl
                    | ok r'' => exact unlinkResource_withOps table r''.2 r''.1 _

theorem analyzeSymlink_withOps (dirfd : Nat) (path target : String) :
    analyzeSymlink (withOps table st) dirfd path target =
      (analyzeSymlink st dirfd path target).map (withOps table) := by
  unfold analyzeSymlink
  rw [getAbsolutePath_withOps]
  cases getAbsolutePath st dirfd ⟨path⟩ with
  | none => rfl
  | some p =>
      simp only [toInode_withOps]
      cases toInode st p <;> rfl

/-- **One action.** -/
theorem fsStep_withOps (a : FsAction) :
    fsStep (withOps table st) a = (fsStep st a).map (withOps table) := by
  cases a with
  | charge blockId => rfl
  | newEvent e => rfl
  | operation op =>
      obtain ⟨kind, failed, name⟩ := op
      cases kind with
      | newFd dirfd path fd => exact analyzeNewFd_withOps table st dirfd path fd
      | delFd fd => exact analyzeDelFd_withOps table st fd
      | hpath dirfd path effect => exact analyzeHpath_withOps table st dirfd path effect name
      | hpathSym dirfd path effect => exact analyzeHpathSym_withOps table st dirfd path effect name
      | link od op nd np => exact analyzeLink_withOps table st od op nd np
      | rename od op nd np => exact analyzeRename_withOps table st od op nd np
      | symlink dirfd path target => exact analyzeSymlink_withOps table st dirfd path target

/-- **A run of the analysis.** -/
theorem fsRun_withOps (as : List FsAction) :
    fsRun (withOps table st) as = (fsRun st as).map (withOps table) := by
  induction as generalizing st with
  | nil => rfl
  | cons a as ih =>
      unfold fsRun at ih ⊢
      rw [List.foldlM_cons, List.foldlM_cons, fsStep_withOps]
      cases fsStep st a with
      | error e => rfl
      | ok st₁ => exact ih st₁

end Frame

/-! ## 2. Traces that differ in the order of their operations -/

/-- The same blocks, and the same operations under every id. -/
structure SameVerdict (t t' : Trace) : Prop where
  threadId : t'.threadId = t.threadId
  cwd : t'.cwd = t.cwd
  blocks : t'.blocks = t.blocks
  ops : ∀ id, t'.opTable.getValue id = t.opTable.getValue id

theorem sameVerdict_of_perm {t t' : Trace} (hthread : t'.threadId = t.threadId)
    (hcwd : t'.cwd = t.cwd) (hblocks : t'.blocks = t.blocks)
    (hperm : t.execOps.Perm t'.execOps) (hids : (t.execOps.map (·.id)).Nodup) :
    SameVerdict t t' := by
  refine ⟨hthread, hcwd, hblocks, fun id => Option.ext fun op => ?_⟩
  have hids' : (t'.execOps.map (·.id)).Nodup := (hperm.map (·.id)).nodup_iff.mp hids
  rw [NodeGenerator.getValue_opTable hids, NodeGenerator.getValue_opTable hids', hperm.mem_iff]

theorem SameVerdict.fsActions {t t' : Trace} (h : SameVerdict t t') :
    t'.fsActions = t.fsActions := by
  unfold Trace.fsActions
  rw [h.blocks]
  refine List.flatMap_congr fun b _ => List.flatMap_congr fun e _ => ?_
  cases e with
  | submitOp e =>
      unfold Expr.fsActions
      dsimp only
      rw [h.ops]
  | newEvent e => rfl
  | link e => rfl
  | trigger e => rfl

theorem SameVerdict.setUp {t t' : Trace} (h : SameVerdict t t') :
    setUp t' = (setUp t).map (withOps t'.opTable) := by
  unfold Fsracer.FSAnalyzer.setUp toInode
  rw [h.threadId, h.cwd]
  dsimp only
  cases FsState.init.inodeTable.toInode ⟨t.cwd⟩ <;> rfl

theorem SameVerdict.analyze {t t' : Trace} (h : SameVerdict t t') :
    FSAnalyzer.analyze t' = (FSAnalyzer.analyze t).map (withOps t'.opTable) := by
  unfold FSAnalyzer.analyze
  rw [analyzeTrace_eq_run, analyzeTrace_eq_run, h.setUp, h.fsActions]
  cases FSAnalyzer.setUp t with
  | error e => rfl
  | ok st =>
      show (fsRun (withOps t'.opTable st) t.fsActions).bind _ =
        Except.map _ ((fsRun st t.fsActions).bind _)
      rw [fsRun_withOps]
      cases fsRun st t.fsActions <;> rfl

theorem SameVerdict.graph {t t' : Trace} (h : SameVerdict t t') :
    dependencyGraph t' = dependencyGraph t := by
  unfold dependencyGraph inferTrace
  rw [h.blocks]

/-- What is printed about the races of a trace; `none` where an assertion of `DFS` fails. -/
def raceReport (t : Trace) : Except Abort (Option (List String)) :=
  (FSAnalyzer.analyze t).map fun st =>
    (detect (dependencyGraph t) st.effectTable .init).map Prod.fst

theorem raceReport_of_ok {t : Trace} {st : FsState} (h : FSAnalyzer.analyze t = .ok st) :
    raceReport t = .ok ((detect (dependencyGraph t) st.effectTable .init).map Prod.fst) := by
  unfold raceReport
  rw [h]
  rfl

theorem SameVerdict.raceReport {t t' : Trace} (h : SameVerdict t t') :
    raceReport t' = raceReport t := by
  unfold Fsracer.raceReport
  rw [h.analyze, h.graph]
  cases FSAnalyzer.analyze t <;> rfl

/-! ## 3. Empty main blocks -/

/-- The trace without its empty main blocks. -/
def Trace.printed (t : Trace) : Trace := { t with blocks := t.printedBlocks }

theorem graph_printed (t : Trace) : dependencyGraph t.printed = dependencyGraph t := by
  have hskip : ∀ (st : DepState) (b : Block), (!b.isEmptyMain) = false →
      Fsracer.analyzeBlock st b = st := by
    intro st b hb
    have he : b.isEmptyMain = true := by simpa using hb
    unfold Fsracer.analyzeBlock enterBlock
    rw [if_pos he]
  unfold dependencyGraph inferTrace
  exact congrArg (·.depGraph)
    (Machine.run_filter (π := id) hskip (fun s s' b (h : s = s') => h ▸ rfl) rfl).symm

theorem fsActions_printed (t : Trace) : t.printed.fsActions = t.fsActions := by
  have hflat : ∀ f : Block → List FsAction, (∀ b, b.isEmptyMain = true → f b = []) →
      ∀ bs : List Block, (bs.filter fun b => !b.isEmptyMain).flatMap f = bs.flatMap f := by
    intro f hf bs
    induction bs with
    | nil => rfl
    | cons b bs ih =>
        cases hb : b.isEmptyMain with
        | true =>
            rw [List.filter_cons_of_neg (by simp [hb]), ih, List.flatMap_cons, hf b hb]
            rfl
        | false =>
            rw [List.filter_cons_of_pos (by simp [hb]), List.flatMap_cons, ih, List.flatMap_cons]
  refine hflat _ (fun b hb => ?_) t.blocks
  have hnil : b.exprs = [] := by
    unfold Block.isEmptyMain at hb
    rw [Bool.and_eq_true, List.isEmpty_iff] at hb
    exact hb.1
  rw [hnil]
  rfl

theorem analyze_printed (t : Trace) : FSAnalyzer.analyze t.printed = FSAnalyzer.analyze t := by
  unfold FSAnalyzer.analyze
  rw [analyzeTrace_eq_run, analyzeTrace_eq_run, fsActions_printed]
  rfl

theorem raceReport_printed (t : Trace) : raceReport t.printed = raceReport t := by
  unfold raceReport
  rw [analyze_printed, graph_printed]

/-! ## 4. The verdict on the tracer's traces -/

namespace NodeGenerator

/-- **The verdict does not depend on the schedule.** Two interleavings of the same threads have
    the same graph, the same accesses and the same report. -/
theorem verdict_interleaving (threadId : Nat) (cwd : String) {cs cs' : List Callback}
    (h : Legal cs) (h' : Legal cs')
    (hmain : cs.filter Callback.isMain = cs'.filter Callback.isMain)
    (halone : ∀ t, alone t (poolEvents cs) = alone t (poolEvents cs'))
    (hids : (asyncIds cs).Nodup) :
    ∃ g g', run threadId cwd cs = .ok g ∧ run threadId cwd cs' = .ok g' ∧
      dependencyGraph g'.trace = dependencyGraph g.trace ∧
      (FSAnalyzer.analyze g'.trace).map (·.effectTable) =
        (FSAnalyzer.analyze g.trace).map (·.effectTable) ∧
      raceReport g'.trace = raceReport g.trace := by
  obtain ⟨g, hg, hr⟩ := refines_run threadId cwd h
  obtain ⟨g', hg', hr'⟩ := refines_run threadId cwd h'
  have hheader : (g'.trace.threadId, g'.trace.cwd) = (g.trace.threadId, g.trace.cwd) :=
    (header_run hg').trans (header_run hg).symm
  have hsame : SameVerdict g.trace g'.trace := by
    refine sameVerdict_of_perm (congrArg Prod.fst hheader) (congrArg Prod.snd hheader) ?_ ?_ ?_
    · rw [hr.traceBlocks, hr'.traceBlocks, run_main hmain]
    · rw [hr.execOps, hr'.execOps]
      exact execOps_perm halone
    · exact hr.execOps ▸ ids_nodup hids
  refine ⟨g, g', hg, hg', hsame.graph, ?_, hsame.raceReport⟩
  rw [hsame.analyze]
  cases FSAnalyzer.analyze g.trace <;> rfl

/-- The verdicts on the two sample runs. -/
theorem verdict_interleaving_sampleRun :
    ∃ g g', run 1 "/" sampleRun = .ok g ∧ run 1 "/" otherRun = .ok g' ∧
      dependencyGraph g'.trace = dependencyGraph g.trace ∧
      (FSAnalyzer.analyze g'.trace).map (·.effectTable) =
        (FSAnalyzer.analyze g.trace).map (·.effectTable) ∧
      raceReport g'.trace = raceReport g.trace :=
  verdict_interleaving 1 "/" legal_sampleRun legal_otherRun filter_otherRun alone_otherRun
    (by decide +kernel)

end NodeGenerator

end Fsracer

/-
  File:      Fsracer/Provenance.lean
  Subject:   WHERE THE RACES COME FROM: from a line of the report back to the system calls.

  The analysis makes up no access: what is recorded under a path stems from an operation that the
  analysis charged there (`charged_of_access`), and that from a system call that a thread made
  while it performed the submitted `ExecOp` (`attributed_run`). **`run_races`** -- every race that
  is reported on the trace of a run is between two such calls, made for two different submissions.

  The path of the report is the one that the operation is charged with: the absolute path of the
  call, or the target of the link that it is known as, the way it was written.
-/
import Mathlib
import Fsracer.Agreement
import Fsracer.Verdicts

namespace Fsracer

open FSAnalyzer Detector

/-! ## 1. Accesses and operations -/

/-- An access that is recorded is the new one or the one before. -/
theorem eq_of_update {old : Option FSAccess} {fsAccess x : FSAccess}
    (h : update old fsAccess = some x) : old = some x ∨ fsAccess = x := by
  unfold update at h
  split at h
  · exact .inr (Option.some.inj h)
  · split at h
    · exact .inl h
    · exact .inl h
    · cases h
    · exact .inr (Option.some.inj h)

/-- The operation `op`, which comes after the actions `before`, is what an access to `p` shows: it
    has the name of the access, and is charged with its effect on `p` there. -/
structure Shows (t : Trace) (before : List FsAction) (op : Operation) (p : Path) (x : FSAccess) :
    Prop where
  reached : before ++ [.operation op] <+: t.fsActions
  name : op.actualOpName = x.operationName
  effect : ∃ st₀ st q, setUp t = .ok st₀ ∧ fsRun st₀ before = .ok st ∧
    effectOf st op = some (q, x.effectType) ∧ Path.cmp q p = .eq

/-- **What is recorded stems from an operation.** -/
theorem charged_of_run {st₀ st : FsState} {as : List FsAction} (hw : st₀.tables.WellFormed)
    (h0 : st₀.blockAccesses = ∅) (h : fsRun st₀ as = .ok st) {p : Path} {id : String}
    {x : FSAccess} (hx : st.blockAccesses.getValue (p, id) = some x) :
    ∃ bs op st₁ q, bs ++ [.operation op] <+: as ∧ fsRun st₀ bs = .ok st₁ ∧ st₁.blockId = id ∧
      effectOf st₁ op = some (q, x.effectType) ∧ Path.cmp q p = .eq ∧
      op.actualOpName = x.operationName := by
  induction as using List.reverseRecOn generalizing st with
  | nil =>
      cases h
      rw [h0] at hx
      cases hx
  | append_singleton as a ih =>
      obtain ⟨st₁, h1, h2⟩ := fsRun_snoc_eq_ok.mp h
      have hold : st₁.blockAccesses.getValue (p, id) = some x →
          ∃ bs op st₂ q, bs ++ [.operation op] <+: as ++ [a] ∧ fsRun st₀ bs = .ok st₂ ∧
            st₂.blockId = id ∧ effectOf st₂ op = some (q, x.effectType) ∧ Path.cmp q p = .eq ∧
            op.actualOpName = x.operationName := by
        intro hx
        obtain ⟨bs, op, st₂, q, hp, hr⟩ := ih h1 hx
        exact ⟨bs, op, st₂, q, hp.trans (List.prefix_append as [a]), hr⟩
      cases a with
      | charge y =>
          cases h2
          exact hold hx
      | newEvent e =>
          cases h2
          exact hold hx
      | operation op =>
          obtain ⟨-, -, hcharged⟩ := charged_step (wellFormed_run hw h1) h2
          generalize st.blockAccesses = accesses at hcharged hx
          cases hcharged with
          | nothing _ => exact hold hx
          | @effect q effect tags heffect _ =>
              rw [getValue_addPathEffect] at hx
              split at hx
              · rename_i hk
                rcases eq_of_update hx with hx | hx
                · exact hold hx
                · subst hx
                  exact ⟨as, op, st₁, q, List.prefix_refl _, h1, hk.2, heffect, hk.1, rfl⟩
              · exact hold hx

/-- **An access that is recorded** stems from an operation that the analysis charged to its event
    and its path. -/
theorem charged_of_access {t : Trace} {st : FsState} (h : FSAnalyzer.analyze t = .ok st)
    {p : String} {x : FSAccess} (hx : HasAccess st.effectTable p x) :
    ∃ before op, chargedBy before "" = x.eventId ∧ Shows t before op ⟨p⟩ x := by
  obtain ⟨st₁, log, hi, htags, rfl⟩ := analyze_eq_ok_iff.mp h
  have htrace := analyzeTrace_eq_ok_iff.mpr ⟨st₁, log, hi, htags, rfl⟩
  rw [analyzeTrace_eq_run] at htrace
  obtain ⟨st₀, h0, hrun⟩ := bind_eq_ok.mp htrace
  have hw := wellFormed_setUp h0
  obtain ⟨hid, -, hnone⟩ := setUp_events h0
  have hx : (summarise log).getValue (⟨p⟩, x.eventId) = some x := by
    rw [getValue_summarise]
    exact recorded_of_hasAccess hx
  obtain ⟨before, op, st₂, q, hp, hbefore, hevent, heffect, hq, hname⟩ :=
    charged_of_run hw hnone hrun hx
  refine ⟨before, op, ?_, hp, hname, st₀, st₂, q, h0, hbefore, heffect, hq⟩
  rw [← hid, ← (events_run hw hbefore).1]
  exact hevent

namespace NodeGenerator

/-- Operations leave the charge as it is. -/
theorem chargedBy_operations {as : List FsAction} (h : ∀ a ∈ as, ∃ op, a = .operation op)
    (id : String) : chargedBy as id = id := by
  induction as with
  | nil => rfl
  | cons a as ih =>
      obtain ⟨op, rfl⟩ := h a List.mem_cons_self
      exact ih fun a ha => h a (List.mem_cons_of_mem _ ha)

/-- An operation of a list of charges belongs to the one that was made last before it. -/
theorem charge_of_prefix {cs : List (String × ExecOp)} {before : List FsAction} {op : Operation}
    (h : before ++ [.operation op] <+: cs.flatMap chargeActions) (id : String) :
    ∃ c ∈ cs, op ∈ c.2.operations ∧ chargedBy before id = c.1 := by
  induction cs generalizing before id with
  | nil => simp at h
  | cons c cs ih =>
      rw [List.flatMap_cons] at h
      have hown : before ++ [.operation op] <+: chargeActions c →
          op ∈ c.2.operations ∧ chargedBy before id = c.1 := by
        intro hp
        unfold chargeActions at hp
        rcases before with _ | ⟨a, before⟩
        · cases (List.cons_prefix_cons.mp hp).1
        · obtain ⟨rfl, htail⟩ := List.cons_prefix_cons.mp hp
          have hops : ∀ a ∈ before ++ [FsAction.operation op],
              ∃ op' ∈ c.2.operations, .operation op' = a := fun a ha =>
            List.mem_map.mp (htail.subset ha)
          constructor
          · obtain ⟨op', hop', heq⟩ := hops (.operation op) (by simp)
            cases heq
            exact hop'
          · refine chargedBy_operations (fun a ha => ?_) c.1
            obtain ⟨op', -, heq⟩ := hops a (List.mem_append_left _ ha)
            exact ⟨op', heq.symm⟩
      rcases List.prefix_or_prefix_of_prefix h (List.prefix_append _ _) with hp | hp
      · exact ⟨c, List.mem_cons_self, hown hp⟩
      · -- the charge at hand is over, unless the operation is its last
        obtain ⟨rest, hrest⟩ := hp
        rcases List.eq_nil_or_concat rest with rfl | ⟨rest, last, rfl⟩
        · rw [List.append_nil] at hrest
          exact ⟨c, List.mem_cons_self, hown (hrest ▸ List.prefix_refl _)⟩
        · rw [List.concat_eq_append, ← List.append_assoc] at hrest
          obtain ⟨rfl, hlast⟩ := List.append_inj' hrest rfl
          cases hlast
          rw [List.append_assoc, List.prefix_append_right_inj] at h
          obtain ⟨c', hc', hop, hevent⟩ := ih h (chargedBy (chargeActions c) id)
          refine ⟨c', List.mem_cons_of_mem c hc', hop, ?_⟩
          rw [← hevent]
          exact List.foldl_append

theorem chargedBy_filter (as : List FsAction) (id : String) :
    chargedBy (as.filter executes) id = chargedBy as id := by
  induction as generalizing id with
  | nil => rfl
  | cons a as ih =>
      cases a with
      | charge x => exact ih x
      | newEvent e => exact ih id
      | operation op => exact ih id

/-- **An operation of a trace** belongs to a charge, by the event that is charged there. -/
theorem charge_of_operation {t : Trace} {before : List FsAction} {op : Operation}
    (h : before ++ [.operation op] <+: t.fsActions) :
    ∃ e, (chargedBy before "", e) ∈ charges t ∧ op ∈ e.operations := by
  have hp : before.filter executes ++ [.operation op] <+: (charges t).flatMap chargeActions := by
    rw [← fsActions_charges]
    have hfilter := h.filter executes
    rwa [List.filter_append] at hfilter
  obtain ⟨c, hc, hop, hevent⟩ := charge_of_prefix hp ""
  rw [chargedBy_filter] at hevent
  exact ⟨c.2, hevent ▸ hc, hop⟩

/-! ## 2. Operations and system calls -/

/-- **The call that an operation was recorded for**: a thread made it while it performed the
    `i`-th `ExecOp`, and its arguments and its name are those of the operation. -/
def RecordedBy (cs : List Callback) (i : Nat) (op : Operation) : Prop :=
  ∃ p thread call, p ++ [Callback.sysCall thread call] <+: cs ∧
    ((System.run p).pool.worker thread).current = some i ∧
    ∃ op' ∈ call.operations, op'.kind = op.kind ∧ op'.actualOpName = op.actualOpName

/-- An operation of an `ExecOp` was recorded for a call, unless it is the `newFd` of a return. -/
def Attributed (cs : List Callback) (p : Pool) : Prop :=
  ∀ i e, p.execOps[i]? = some e → ∀ op ∈ e.operations,
    RecordedBy cs i op ∨ ∃ dirfd path fd, op.kind = .newFd dirfd path fd

section Attribution

variable {cs : List Callback} {p : Pool} {thread : Nat}

theorem Attributed.snoc (h : Attributed cs p) (c : Callback) : Attributed (cs ++ [c]) p := by
  intro i e he op hop
  refine (h i e he op hop).imp_left fun hr => ?_
  obtain ⟨q, t, call, hp, hr⟩ := hr
  exact ⟨q, t, call, hp.trans (List.prefix_append cs [c]), hr⟩

/-- A thread changes its `ExecOp`. -/
theorem Attributed.edit (h : Attributed cs p) {f : ExecOp → ExecOp}
    (hf : ∀ i e, (p.worker thread).current = some i → p.execOps[i]? = some e →
      ∀ op ∈ (f e).operations, op ∈ e.operations ∨ RecordedBy cs i op ∨
        (∃ op' ∈ e.operations, op = op'.markFailed) ∨
        ∃ dirfd path fd, op.kind = .newFd dirfd path fd) :
    Attributed cs (p.edit thread f) := by
  intro i e he op hop
  cases hi : (p.worker thread).current with
  | none =>
      rw [edit_none hi] at he
      exact h i e he op hop
  | some j =>
      have hexec : (p.edit thread f).execOps = p.execOps.modify j f := by rw [edit_some hi]
      rw [hexec, List.getElem?_modify] at he
      obtain ⟨e', he', rfl⟩ := Option.map_eq_some_iff.mp he
      by_cases hij : j = i
      · subst hij
        rw [if_pos rfl] at hop
        rcases hf j e' hi he' op hop with hop | hr | ⟨op', hop', rfl⟩ | hnew
        · exact h j e' he' op hop
        · exact .inl hr
        · exact h j e' he' op' hop'
        · exact .inr hnew
      · rw [if_neg hij] at hop
        exact h i e' he' op hop

theorem Attributed.start (h : Attributed cs p) (request : Nat) :
    Attributed cs (p.start thread request) := by
  cases hp : p.pending request with
  | none =>
      rw [Pool.start_none hp]
      exact h
  | some id =>
      rw [Pool.start_some hp]
      intro i e he op hop
      have he : (p.execOps ++ [⟨id, []⟩])[i]? = some e := he
      rw [List.getElem?_append] at he
      split at he
      · exact h i e he op hop
      · -- the new `ExecOp` is empty
        cases List.mem_singleton.mp (List.mem_of_getElem? he)
        cases hop

theorem Attributed.leave (h : Attributed cs p) : Attributed cs (p.leave thread) := by
  unfold Pool.leave
  dsimp only
  split
  · exact h
  · split <;> exact h

/-- A thread calls: what is recorded is recorded for this call. -/
theorem Attributed.sysCall (h : Attributed cs (System.run cs).pool) (call : SysCall) :
    Attributed (cs ++ [.sysCall thread call]) ((System.run cs).pool.sysCall thread call) := by
  have hrecord : Attributed (cs ++ [.sysCall thread call])
      ((System.run cs).pool.record thread call.operations) := by
    refine (h.snoc _).edit fun i e hi _ op hop => ?_
    rcases List.mem_append.mp hop with hop | hop
    · exact .inl hop
    · exact .inr (.inl ⟨cs, thread, call, List.prefix_refl _, hi, op, hop, rfl, rfl⟩)
  unfold Pool.sysCall
  cases call.opens with
  | none => exact hrecord
  | some path => exact hrecord

/-- A call returns: it may be marked, or a `newFd` recorded. -/
theorem Attributed.sysReturn (h : Attributed cs p) (call : SysCall) (retVal : Int) :
    Attributed cs (p.sysReturn thread call retVal) := by
  unfold Pool.sysReturn
  split
  · cases (p.worker thread).opening with
    | none => exact h
    | some path =>
        have hset : Attributed cs (p.setWorker thread { p.worker thread with opening := none }) := h
        refine hset.edit fun i e _ _ op hop => ?_
        rcases List.mem_append.mp hop with hop | hop
        · exact .inl hop
        · rw [List.mem_singleton.mp hop]
          exact .inr (.inr (.inr ⟨_, _, _, rfl⟩))
  · split
    · refine h.edit fun i e _ _ op hop => ?_
      rcases mem_modify hop with hop | ⟨op', hop', rfl⟩
      · exact .inl hop
      · exact .inr (.inr (.inl ⟨op', List.mem_of_getElem? hop', rfl⟩))
    · exact h

end Attribution

/-- **Every operation of a run was recorded for a call.** -/
theorem attributed_run (cs : List Callback) : Attributed cs (System.run cs).pool := by
  induction cs using List.reverseRecOn with
  | nil =>
      intro i e he
      cases he
  | append_singleton cs c ih =>
      rw [System.run_snoc]
      cases c with
      | node call => exact ih.snoc _
      | nodeReturn => exact ih.snoc _
      | thenable => exact ih.snoc _
      | uvFs f args =>
          show Attributed _ (((System.run cs).poolEvents (.uvFs f args)).foldl Pool.step _)
          rw [poolEvents_uvFs]
          cases (System.run cs).submission f args <;> exact ih.snoc _
      | uvFsWork t ptr => exact (ih.snoc _).start _
      | uvFsWorkReturn t => exact (ih.snoc _).leave
      | sysCall t call => exact ih.sysCall call
      | sysReturn t call retVal => exact (ih.snoc _).sysReturn call retVal

/-! ## 3. Races -/

/-- **A submission made an access to `p`**: a thread made the call that the access shows while it
    performed the `ExecOp` of the submission. -/
structure MadeFor (cs : List Callback) (t : Trace) (s : String × SubmitOp) (p : Path)
    (x : FSAccess) : Prop where
  submitted : s ∈ submitOps cs
  submitter : submitter s = x.eventId
  made : ∃ i e before op, t.execOps[i]? = some e ∧ e.id = s.2.opId ∧ op ∈ e.operations ∧
    chargedBy before "" = x.eventId ∧ Shows t before op p x ∧ RecordedBy cs i op

section Run

variable {threadId : Nat} {cwd : String} {cs : List Callback} {g : TraceGenerator}

/-- **Every access in the table was made for a submission.** -/
theorem madeFor_of_access (h : Legal cs) (hp : Prompt cs) (hids : (asyncIds cs).Nodup)
    (hg : run threadId cwd cs = .ok g) {st : FsState} (hst : FSAnalyzer.analyze g.trace = .ok st)
    {p : String} {x : FSAccess} (hx : HasAccess st.effectTable p x) :
    ∃ s, MadeFor cs g.trace s ⟨p⟩ x := by
  obtain ⟨before, op, hevent, hshows⟩ := charged_of_access hst hx
  obtain ⟨e, hc, hop⟩ := charge_of_operation hshows.reached
  obtain ⟨he, s, hsub, hid, hsubmitter⟩ := submitted_of_charge h hp hids hg hc
  obtain ⟨i, hi⟩ := List.getElem?_of_mem he
  obtain ⟨g₁, hg₁, hr⟩ := refines_run threadId cwd h
  cases hg.symm.trans hg₁
  refine ⟨s, hsub, hsubmitter.symm.trans hevent, i, e, before, op, hi, hid.symm, hop, hevent,
    hshows, ?_⟩
  rcases attributed_run cs i e (hr.execOps ▸ hi) op hop with hrecorded | ⟨dirfd, path, fd, hkind⟩
  · exact hrecorded
  · -- a `newFd` is charged with nothing
    obtain ⟨-, st₁, q, -, -, heffect, -⟩ := hshows.effect
    unfold effectOf at heffect
    rw [hkind] at heffect
    cases heffect

/-- Submissions of different events are different operations. -/
theorem opId_ne (hids : (asyncIds cs).Nodup) {s s' : String × SubmitOp} (hs : s ∈ submitOps cs)
    (hs' : s' ∈ submitOps cs) (hne : submitter s ≠ submitter s') : s.2.opId ≠ s'.2.opId := by
  have hnodup : ((submitOps cs).map (·.2.opId)).Nodup := submitOps_ids cs ▸ (freshIds hids).nodup
  intro heq
  exact hne (congrArg submitter (List.inj_on_of_nodup_map hnodup hs hs' heq))

end Run

/-- **Where the races come from.** The report on the trace of a run shows exactly the races of its
    accesses, and the two accesses of every race were made by system calls of two different
    submissions, one of each event, which the analysis charged on the path that is shown. -/
theorem run_races (threadId : Nat) (cwd : String) {cs : List Callback} (h : Legal cs)
    (hp : Prompt cs) (hids : (asyncIds cs).Nodup) :
    ∃ g, run threadId cwd cs = .ok g ∧ ∀ st, FSAnalyzer.analyze g.trace = .ok st →
      ∃ tags entries, raceReport g.trace = .ok (some (reportLines tags entries)) ∧
        ExactReport (dependencyGraph g.trace) st.effectTable tags entries ∧
        ∀ e ∈ entries, ∀ d ∈ e.descs, ∃ s₁ s₂, s₁.2.opId ≠ s₂.2.opId ∧
          MadeFor cs g.trace s₁ ⟨d.p⟩ d.fsAccess1 ∧ MadeFor cs g.trace s₂ ⟨d.p⟩ d.fsAccess2 := by
  obtain ⟨g, hg, hr⟩ := refines_run threadId cwd h
  refine ⟨g, hg, fun st hst => ?_⟩
  have hclosed : (dependencyGraph g.trace).Closed :=
    closed_of_sentences fun b hb => (written_run h hp).sentences b (hr.traceBlocks ▸ hb)
  obtain ⟨tags, entries, hexact, hdetect⟩ := exactReport_analyze hst hclosed
  obtain ⟨d', hd', -⟩ := hdetect .init (cacheOk_init _)
  refine ⟨tags, entries, ?_, hexact, fun e he d hd => ?_⟩
  · rw [raceReport_of_ok hst, hd']
    rfl
  · obtain ⟨h1, h2⟩ := hexact.own e he d hd
    obtain ⟨hlt, hx, hy, -⟩ := (hexact.races d.p d.fsAccess1 d.fsAccess2).mp
      ⟨e, he, h1.symm, h2.symm, hd⟩
    obtain ⟨s₁, hs₁⟩ := madeFor_of_access h hp hids hg hst hx
    obtain ⟨s₂, hs₂⟩ := madeFor_of_access h hp hids hg hst hy
    refine ⟨s₁, s₂, opId_ne hids hs₁.submitted hs₂.submitted ?_, hs₁, hs₂⟩
    rw [hs₁.submitter, hs₂.submitter]
    exact ne_of_lt hlt

/-- Two threads perform the operations of two events: one opens "/a" for writing, the other one
    removes it. -/
def racingRun : List Callback :=
  [.node .start, .node (.emitAsyncInit 5 1), .nodeReturn, .uvFs .openFile [0, 1000, 0, 0, 0, 77],
    .node (.emitAsyncInit 6 1), .nodeReturn, .uvFs .unlink [0, 2000, 0, 77],
    .uvFsWork 2 1336, .uvFsWork 1 2336, .sysCall 2 (.openFile "/a" 1), .sysCall 1 (.unlink "/a"),
    .sysReturn 1 (.unlink "/a") 0, .sysReturn 2 (.openFile "/a" 1) 7, .uvFsWorkReturn 1,
    .uvFsWorkReturn 2, .nodeReturn]

/-- The accesses to "/a" of the two events. -/
def openAccess : FSAccess := ⟨"5", .produced, ["fs", "node_open"], "open"⟩

def unlinkAccess : FSAccess := ⟨"6", .expunged, ["fs", "node_unlink"], "unlink"⟩

/-- What the analyses make of the run: the two accesses, and no order between their events. -/
theorem racingRun_analysed {g : TraceGenerator} (hg : run 1 "/" racingRun = .ok g) :
    (∃ st, FSAnalyzer.analyze g.trace = .ok st ∧
      st.effectTable.toList = [(⟨"/a"⟩, [openAccess, unlinkAccess])]) ∧
    ¬ IsMainNode (dependencyGraph g.trace) "5" ∧ ¬ (dependencyGraph g.trace).Path "5" "6" ∧
      ¬ (dependencyGraph g.trace).Path "6" "5" := by
  have hall : (run 1 "/" racingRun).toOption.map (fun g =>
      (((FSAnalyzer.analyze g.trace).toOption.map fun st => st.effectTable.toList),
        decide (IsMainNode (dependencyGraph g.trace) "5"),
        (dependencyGraph g.trace).hasPath "5" "6", (dependencyGraph g.trace).hasPath "6" "5")) =
      some (some [(⟨"/a"⟩, [openAccess, unlinkAccess])], false, some false, some false) := by
    decide +kernel
  rw [hg] at hall
  obtain ⟨htable, hrest⟩ := Prod.mk.inj (Option.some.inj hall)
  obtain ⟨hmain, hrest⟩ := Prod.mk.inj hrest
  obtain ⟨h56, h65⟩ := Prod.mk.inj hrest
  exact ⟨FSAnalyzer.exists_analyze_eq_ok htable, of_decide_eq_false hmain,
    Graph.not_path_of_hasPath h56, Graph.not_path_of_hasPath h65⟩

/-- The race of the run, and the two submissions it comes from. -/
theorem run_races_racingRun : ∃ g tags entries, run 1 "/" racingRun = .ok g ∧
    raceReport g.trace = .ok (some (reportLines tags entries)) ∧
    ∃ e ∈ entries, e.first = "5" ∧ e.second = "6" ∧
      (⟨"/a", openAccess, unlinkAccess⟩ : FaultDesc) ∈ e.descs ∧
      ∃ s₁ s₂, s₁.2.opId ≠ s₂.2.opId ∧ MadeFor racingRun g.trace s₁ ⟨"/a"⟩ openAccess ∧
        MadeFor racingRun g.trace s₂ ⟨"/a"⟩ unlinkAccess := by
  have hlegal : Legal racingRun := by decide +kernel
  obtain ⟨g, hg, hraces⟩ := run_races 1 "/" hlegal (by decide +kernel) (by decide +kernel)
  obtain ⟨⟨st, hst, htable⟩, hmain, h56, h65⟩ := racingRun_analysed hg
  obtain ⟨tags, entries, hreport, hexact, hmade⟩ := hraces st hst
  have hrow : (⟨"/a"⟩, [openAccess, unlinkAccess]) ∈ st.effectTable.toList := by
    rw [htable]
    exact List.mem_singleton_self _
  obtain ⟨e, he, h1, h2, hd⟩ := (hexact.races "/a" openAccess unlinkAccess).mpr
    ⟨by decide, ⟨_, hrow, by simp⟩, ⟨_, hrow, by simp⟩, .inl (by decide), fun h => hmain h.1,
      h56, h65⟩
  exact ⟨g, tags, entries, hg, hreport, e, he, h1, h2, hd, hmade e he _ hd⟩

end NodeGenerator

end Fsracer

/-
  File:      Fsracer/TracerRuns.lean
  Subject:   RUNS OF THE TRACER, for every interleaving of the main thread and the others.

  `Legal` are the runs of a Node process: the main thread calls inside of `node::Start`, and an
  `open` that returns was called by its thread.

  * **`run_refines`** -- a legal run never aborts and never leaves the defined behaviour of C++,
    and ends in the state of `System`;
  * **`run_blocks`** -- its blocks are those that `BlockBrackets.run` makes of its commands;
  * **`run_main`** -- the other threads have no part in them.
-/
import Mathlib
import Fsracer.TracerStore
import Fsracer.Lib.Machine

namespace Fsracer

namespace NodeGenerator

open BlockBrackets (AtEnd)

/-! ## 1. Legal runs -/

/-- The functions of Node that have not returned. -/
def openCalls (cs : List Callback) : List String :=
  cs.foldl (fun st c => match c with
    | .node call => call.funcName :: st
    | .nodeReturn => st.tail
    | _ => st) []

/-- Whether the thread has called `open` and `open` has not returned. -/
def isOpening (thread : Nat) (cs : List Callback) : Bool :=
  cs.foldl (fun o c => match c with
    | .sysCall t call => if t = thread ∧ call.opens.isSome then true else o
    | .sysReturn t call _ => if t = thread ∧ call.opens.isSome then false else o
    | _ => o) false

/-- **A run of a Node process.** -/
structure Legal (cs : List Callback) : Prop where
  inside : ∀ p c, p ++ [c] <+: cs → c.isMain = true → c ≠ .node .start →
    "node::Start" ∈ openCalls p
  opened : ∀ p t call retVal, p ++ [Callback.sysReturn t call retVal] <+: cs →
    call.opens.isSome → isOpening t p = true

theorem Legal.of_prefix {cs ds : List Callback} (h : Legal cs) (hp : ds <+: cs) : Legal ds where
  inside p c hpc := h.inside p c (hpc.trans hp)
  opened p t call retVal hpc := h.opened p t call retVal (hpc.trans hp)

/-- Whether a callback can come after a run. -/
def allowed (p : List Callback) (c : Callback) : Bool :=
  (!c.isMain || decide (c = .node .start) || decide ("node::Start" ∈ openCalls p)) &&
    match c with
    | .sysReturn t call _ => !call.opens.isSome || isOpening t p
    | _ => true

theorem allowed_iff {p : List Callback} {c : Callback} : allowed p c = true ↔
    (c.isMain = true → c ≠ .node .start → "node::Start" ∈ openCalls p) ∧
      ∀ t call retVal, c = .sysReturn t call retVal → call.opens.isSome → isOpening t p = true := by
  have hmain : (!c.isMain || decide (c = .node .start) ||
      decide ("node::Start" ∈ openCalls p)) = true ↔
      (c.isMain = true → c ≠ .node .start → "node::Start" ∈ openCalls p) := by
    by_cases hc : c = .node .start
    · simp [hc]
    · cases c.isMain <;> simp [hc]
  unfold allowed
  rw [Bool.and_eq_true, hmain]
  refine and_congr_right fun _ => ?_
  cases c with
  | sysReturn t call retVal =>
      dsimp only
      rw [Bool.or_eq_true, Bool.not_eq_true']
      refine ⟨fun h t' call' retVal' hc ho => ?_, fun h => ?_⟩
      · cases hc
        exact h.resolve_left (by simp [ho])
      · cases ho : call.opens.isSome with
        | false => exact .inl rfl
        | true => exact .inr (h t call retVal rfl ho)
  | _ => simp

theorem legal_iff {cs : List Callback} :
    Legal cs ↔ ∀ i (h : i < cs.length), allowed (cs.take i) cs[i] = true := by
  rw [← Machine.forall_prefix (P := fun p c => allowed p c = true)]
  simp only [allowed_iff]
  refine ⟨fun h p c hp => ⟨h.inside p c hp, fun t call retVal hc => ?_⟩, fun h => ⟨?_, ?_⟩⟩
  · exact h.opened p t call retVal (hc ▸ hp)
  · exact fun p c hp => (h p c hp).1
  · exact fun p t call retVal hp => (h p _ hp).2 t call retVal rfl

instance (cs : List Callback) : Decidable (Legal cs) := decidable_of_iff _ legal_iff.symm

/-! ## 2. What the system knows of a run -/

theorem callStack_run (cs : List Callback) : (System.run cs).callStack = openCalls cs := by
  induction cs using List.reverseRecOn with
  | nil => rfl
  | append_singleton cs c ih =>
      rw [System.run_snoc]
      unfold openCalls at ih ⊢
      rw [List.foldl_concat, ← ih]
      cases c <;> rfl

theorem started_run {cs : List Callback} :
    (System.run cs).started = true ↔ Callback.node .start ∈ cs := by
  induction cs using List.reverseRecOn with
  | nil => simp [System.run, System.init]
  | append_singleton cs c ih =>
      rw [System.run_snoc, List.mem_append, ← ih, List.mem_singleton]
      show (System.run cs).nextStarted c = true ↔ _
      by_cases hc : c = .node .start
      · subst hc
        simp [System.nextStarted]
      · have hs : (System.run cs).nextStarted c = (System.run cs).started := by
          unfold System.nextStarted
          split
          · exact absurd rfl hc
          · rfl
        rw [hs]
        simp [Ne.symm hc]

/-- What is on the stack was called. -/
theorem mem_openCalls {cs : List Callback} {name : String} (h : name ∈ openCalls cs) :
    ∃ call, Callback.node call ∈ cs ∧ call.funcName = name := by
  induction cs using List.reverseRecOn with
  | nil => cases h
  | append_singleton cs c ih =>
      have hold : name ∈ openCalls cs →
          ∃ call, Callback.node call ∈ cs ++ [c] ∧ call.funcName = name := by
        intro hm
        obtain ⟨call, hcall, hname⟩ := ih hm
        exact ⟨call, List.mem_append_left _ hcall, hname⟩
      unfold openCalls at h
      rw [List.foldl_concat] at h
      cases c with
      | node call =>
          rcases List.mem_cons.mp h with rfl | h
          · exact ⟨call, List.mem_append_right _ (List.mem_singleton_self _), rfl⟩
          · exact hold h
      | nodeReturn => exact hold (List.mem_of_mem_tail h)
      | _ => exact hold h

theorem funcName_start {call : NodeCall} (h : call.funcName = "node::Start") : call = .start := by
  cases call with
  | start => rfl
  | _ => exact absurd h (by simp [NodeCall.funcName, newTimerWrap])

/-- Inside of `node::Start` it was called. -/
theorem start_mem {cs : List Callback} (h : "node::Start" ∈ openCalls cs) :
    Callback.node .start ∈ cs := by
  obtain ⟨call, hcall, hname⟩ := mem_openCalls h
  exact funcName_start hname ▸ hcall

section Opening

variable (p : Pool) (t u : Nat)

theorem opening_start (request : Nat) :
    ((p.start t request).worker u).opening = (p.worker u).opening := by
  unfold Pool.start
  dsimp only
  split
  · rw [worker_setWorker]
    split
    · rename_i h
      rw [h]
    · rfl
  · show ((p.setWorker t _).worker u).opening = _
    rw [worker_setWorker]
    split
    · rename_i h
      rw [h]
    · rfl

theorem opening_leave : ((p.leave t).worker u).opening = (p.worker u).opening := by
  unfold Pool.leave
  dsimp only
  split
  · rfl
  · split
    · rw [worker_setWorker]
      split
      · rename_i h
        rw [h]
      · rfl
    · rfl

theorem opening_sysCall (call : SysCall) : ((p.sysCall t call).worker u).opening =
    if t = u ∧ call.opens.isSome then call.opens else (p.worker u).opening := by
  unfold Pool.sysCall
  cases hc : call.opens with
  | none =>
      dsimp only
      rw [worker_record]
      simp
  | some path =>
      dsimp only
      rw [worker_setWorker]
      by_cases htu : t = u
      · simp [htu]
      · rw [if_neg htu, worker_record, if_neg (fun h => htu h.1)]

theorem opening_sysReturn (call : SysCall) (retVal : Int) :
    ((p.sysReturn t call retVal).worker u).opening =
      if t = u ∧ call.opens.isSome then none else (p.worker u).opening := by
  unfold Pool.sysReturn
  by_cases hc : call.opens.isSome = true
  · rw [if_pos hc]
    cases hw : (p.worker t).opening with
    | none =>
        dsimp only
        by_cases htu : t = u
        · rw [if_pos ⟨htu, hc⟩, ← htu, hw]
        · rw [if_neg (fun h => htu h.1)]
    | some path =>
        dsimp only
        rw [worker_record, worker_setWorker]
        by_cases htu : t = u
        · rw [if_pos htu, if_pos ⟨htu, hc⟩]
        · rw [if_neg htu, if_neg (fun h => htu h.1)]
  · have hno : ¬ (t = u ∧ call.opens.isSome = true) := fun h => hc h.2
    rw [if_neg hc, if_neg hno]
    split
    · rw [worker_edit]
    · rfl

end Opening

theorem isOpening_run (t : Nat) (cs : List Callback) :
    (((System.run cs).pool.worker t).opening).isSome = isOpening t cs := by
  induction cs using List.reverseRecOn with
  | nil => rfl
  | append_singleton cs c ih =>
      rw [System.run_snoc]
      unfold isOpening at ih ⊢
      rw [List.foldl_concat, ← ih]
      cases c with
      | node call => rfl
      | nodeReturn => rfl
      | thenable => rfl
      | uvFs f args =>
          show ((((System.run cs).poolEvents (.uvFs f args)).foldl Pool.step _).worker
            t).opening.isSome
            = _
          rw [poolEvents_uvFs]
          cases (System.run cs).submission f args <;> rfl
      | uvFsWork u ptr => exact congrArg Option.isSome (opening_start _ u t _)
      | uvFsWorkReturn u => exact congrArg Option.isSome (opening_leave _ u t)
      | sysCall u call =>
          refine (congrArg Option.isSome (opening_sysCall _ u t call)).trans ?_
          dsimp only
          split
          · rename_i h
            exact h.2
          · rfl
      | sysReturn u call retVal =>
          refine (congrArg Option.isSome (opening_sysReturn _ u t call retVal)).trans ?_
          dsimp only
          split <;> rfl

/-- The current block is the last one, once `node::Start` was called. -/
theorem atEnd_system (cs : List Callback) (h : (System.run cs).started = true) :
    ∃ before block, AtEnd (System.run cs).blocks before block := by
  induction cs using List.reverseRecOn with
  | nil => cases h
  | append_singleton cs c ih =>
      rw [System.run_snoc] at h ⊢
      by_cases hc : c = .node .start
      · subst hc
        exact ⟨_, _, BlockBrackets.atEnd_addMainBlock _⟩
      · have hs : ((System.run cs).step c).started = (System.run cs).started := by
          show (System.run cs).nextStarted c = _
          unfold System.nextStarted
          split
          · exact absurd rfl hc
          · rfl
        have hb : ((System.run cs).step c).blocks =
            ((System.run cs).commands c).foldl BlockBrackets.step (System.run cs).blocks := by
          show (System.run cs).nextBlocks c = _
          unfold System.nextBlocks
          split
          · exact absurd rfl hc
          · rfl
        rw [hb]
        refine Machine.invariant (I := fun _ b => ∃ before block, AtEnd b before block)
          (ih (hs ▸ h)) fun as e _ ⟨before, block, hI⟩ => hI.step e

/-! ## 3. Legal runs are defined -/

theorem Legal.enabled {cs p : List Callback} {c : Callback} (h : Legal cs) (hp : p ++ [c] <+: cs) :
    Enabled (System.run p) c where
  inside hm hc := by
    have hin := h.inside p c hp hm hc
    refine ⟨started_run.mpr (start_mem hin), ?_⟩
    rw [callStack_run]
    exact List.ne_nil_of_mem hin
  opened t call retVal hc ho := by
    subst hc
    rw [isOpening_run]
    exact h.opened p t call retVal hp ho

/-- **A legal run ends**, in the state of the system. -/
theorem refines_run (threadId : Nat) (cwd : String) {cs : List Callback} (h : Legal cs) :
    ∃ g, run threadId cwd cs = .ok g ∧ Refines g (System.run cs) := by
  induction cs using List.reverseRecOn with
  | nil => exact ⟨_, rfl, refines_init threadId cwd⟩
  | append_singleton cs c ih =>
      obtain ⟨g, hg, hr⟩ := ih (h.of_prefix (List.prefix_append cs [c]))
      obtain ⟨g', hg', hr'⟩ := step_refines hr (atEnd_system cs) (h.enabled (List.prefix_refl _))
      refine ⟨g', ?_, ?_⟩
      · unfold run at hg ⊢
        rw [List.foldlM_append, hg]
        show (step g c).bind Except.ok = _
        rw [hg']
        rfl
      · rw [System.run_snoc]
        exact hr'

/-- **The tracer never aborts in a legal run**: at every step of the run the code is in the state of
    the system, and so it is after the step. -/
theorem run_refines (threadId : Nat) (cwd : String) {cs : List Callback} (h : Legal cs)
    {p : List Callback} {c : Callback} (hp : p ++ [c] <+: cs) : ∃ g g',
      run threadId cwd p = .ok g ∧ Refines g (System.run p) ∧
      step g c = .ok g' ∧ Refines g' ((System.run p).step c) := by
  have hpre : p <+: cs := (List.prefix_append p [c]).trans hp
  obtain ⟨g, hg, hr⟩ := refines_run threadId cwd (h.of_prefix hpre)
  obtain ⟨g', hg', hr'⟩ := step_refines hr (atEnd_system p) (h.enabled hp)
  exact ⟨g, g', hg, hr, hg', hr'⟩

/-- Thread 2 opens a file while the main thread makes a directory, which fails. -/
def sampleRun : List Callback :=
  [.node .start, .node (.emitAsyncInit 5 1), .nodeReturn,
    .uvFs .openFile [0, 1000, 0, 0, 0, 77], .uvFsWork 2 1336, .sysCall 2 (.openFile "/a" 2),
    .uvFs .mkdir [0, 2000, 0, 0, 0], .uvFsWork 1 2336, .sysCall 1 (.mkdir "/b"),
    .sysReturn 2 (.openFile "/a" 2) 7, .sysReturn 1 (.mkdir "/b") (-1), .uvFsWorkReturn 1,
    .uvFsWorkReturn 2, .node .newAsyncId, .nodeReturn, .node .newTickInfo, .nodeReturn,
    .node (.pushAsyncIds 5 1), .nodeReturn, .node (.popAsyncId 5), .nodeReturn]

theorem legal_sampleRun : Legal sampleRun := by decide +kernel

/-- The last callback of the run of two threads. -/
theorem run_refines_sampleRun : ∃ g g', run 1 "/" sampleRun.dropLast = .ok g ∧
    Refines g (System.run sampleRun.dropLast) ∧ step g .nodeReturn = .ok g' ∧
    Refines g' ((System.run sampleRun.dropLast).step .nodeReturn) :=
  run_refines 1 "/" legal_sampleRun (List.prefix_refl sampleRun)

/-! ## 4. The blocks -/

/-- What a run does to the blocks. -/
def blockCommands (cs : List Callback) : List BlockBrackets.Callback :=
  Machine.outputs System.step System.commands System.init cs

/-- What a run does to the pool. -/
def poolEvents (cs : List Callback) : List PoolEvent :=
  Machine.outputs System.step System.poolEvents System.init cs

theorem pool_run (cs : List Callback) :
    (System.run cs).pool = (poolEvents cs).foldl Pool.step .init :=
  Machine.driven (π := System.pool) fun _ _ => rfl

/-- Outside of `node::Start` the main thread is silent. -/
theorem Legal.silent {cs as : List Callback} (h : Legal cs) (hp : as <+: cs)
    (hstart : Callback.node .start ∉ as) {c : Callback} (hc : c ∈ as) : c.isMain = false := by
  obtain ⟨bs, ds, rfl⟩ := List.append_of_mem hc
  cases hm : c.isMain with
  | false => rfl
  | true =>
      have hpre : bs ++ [c] <+: cs := (List.prefix_append (bs ++ [c]) ds).trans (by simpa using hp)
      have hin := h.inside bs c hpre hm fun he => hstart (he ▸ hc)
      exact absurd (List.mem_append_left _ (start_mem hin)) hstart

theorem commands_of_not_main {s : System} {c : Callback} (hc : c.isMain = false) :
    s.commands c = [] := by
  cases c with
  | node call => cases hc
  | nodeReturn => cases hc
  | thenable => cases hc
  | uvFs f args => cases hc
  | _ => rfl

theorem nextBlocks_of_ne {s : System} {c : Callback} (hc : c ≠ .node .start) :
    s.nextBlocks c = (s.commands c).foldl BlockBrackets.step s.blocks := by
  unfold System.nextBlocks
  split
  · exact absurd rfl hc
  · rfl

/-- The blocks of a run without `node::Start`. -/
theorem blocks_foldl {cs : List Callback} (h : Callback.node .start ∉ cs) (s : System) :
    (cs.foldl System.step s).blocks =
      (Machine.outputs System.step System.commands s cs).foldl BlockBrackets.step s.blocks := by
  induction cs generalizing s with
  | nil => rfl
  | cons c cs ih =>
      rw [List.mem_cons, not_or] at h
      rw [List.foldl_cons, ih h.2]
      simp only [Machine.outputs, List.foldl_append]
      rw [← nextBlocks_of_ne (s := s) (Ne.symm h.1)]
      rfl

/-- **The blocks of a run** in which `node::Start` is called once. -/
theorem run_blocks {cs : List Callback} (h : Legal cs) (hone : cs.count (.node .start) = 1) :
    (System.run cs).blocks = BlockBrackets.run (blockCommands cs) := by
  have hmem : Callback.node .start ∈ cs := List.count_pos_iff.mp (by omega)
  obtain ⟨as, bs, rfl⟩ := List.append_of_mem hmem
  rw [List.count_append, List.count_cons_self] at hone
  have has : Callback.node .start ∉ as := List.count_eq_zero.mp (by omega)
  have hbs : Callback.node .start ∉ bs := List.count_eq_zero.mp (by omega)
  have hsilent : ∀ ds, ds <+: as →
      Machine.outputs System.step System.commands System.init ds = [] := by
    intro ds hds
    refine List.eq_nil_iff_forall_not_mem.mpr fun x hx => ?_
    obtain ⟨p, c, hp, hx⟩ := Machine.mem_outputs.mp hx
    have hc : c ∈ as := (hp.trans hds).subset (List.mem_append_right _ (List.mem_singleton_self c))
    rw [commands_of_not_main (h.silent (List.prefix_append as _) has hc)] at hx
    cases hx
  have hbefore : (System.run as).blocks = System.init.blocks := by
    unfold System.run
    rw [blocks_foldl has, hsilent as (List.prefix_refl _)]
    rfl
  unfold System.run at hbefore ⊢
  unfold blockCommands
  rw [List.foldl_append, List.foldl_cons, blocks_foldl hbs, Machine.outputs_append,
    hsilent as (List.prefix_refl _)]
  -- `node::Start` opens the first main block
  have hstart : ((as.foldl System.step System.init).step (.node .start)).blocks =
      BlockBrackets.wrapPreStart := by
    show BlockBrackets.addMainBlock
      { (as.foldl System.step System.init).blocks with promiseSet := [] }
      = _
    rw [hbefore]
    rfl
  rw [hstart]
  rfl

/-- **The tracer makes the blocks of its commands.** -/
theorem tracer_blocks (threadId : Nat) (cwd : String) {cs : List Callback} (h : Legal cs)
    (hone : cs.count (.node .start) = 1) : ∃ g, run threadId cwd cs = .ok g ∧
      g.blockPart (BlockBrackets.run (blockCommands cs)).promiseSet =
        BlockBrackets.run (blockCommands cs) := by
  obtain ⟨g, hg, hr⟩ := refines_run threadId cwd h
  exact ⟨g, hg, run_blocks h hone ▸ hr.blocks⟩

/-- The blocks of the sample run. -/
theorem tracer_blocks_sampleRun : ∃ g, run 1 "/" sampleRun = .ok g ∧
    g.blockPart (BlockBrackets.run (blockCommands sampleRun)).promiseSet =
      BlockBrackets.run (blockCommands sampleRun) :=
  tracer_blocks 1 "/" legal_sampleRun (by decide +kernel)

/-! ## 5. The main thread alone -/

/-- What the main thread keeps. -/
def System.mainPart (s : System) : System := { s with pool := .init }

theorem mainPart_step_of_not_main {s : System} {c : Callback} (hc : c.isMain = false) :
    (s.step c).mainPart = s.mainPart := by
  cases c with
  | node call => cases hc
  | nodeReturn => cases hc
  | thenable => cases hc
  | uvFs f args => cases hc
  | _ => rfl

theorem mainPart_step (s : System) (c : Callback) :
    (s.step c).mainPart = (s.mainPart.step c).mainPart := by
  cases c with
  | node call => cases call <;> rfl
  | _ => rfl

theorem mainPart_step_congr (s s' : System) (c : Callback) (h : s.mainPart = s'.mainPart) :
    (s.step c).mainPart = (s'.step c).mainPart := by
  rw [mainPart_step, h, ← mainPart_step]

theorem mainPart_filter (cs : List Callback) :
    (System.run cs).mainPart = (System.run (cs.filter Callback.isMain)).mainPart :=
  Machine.run_filter (π := System.mainPart) (p := Callback.isMain)
    (fun _ _ hc => mainPart_step_of_not_main hc) mainPart_step_congr rfl

/-- **The blocks do not depend on the interleaving**: two runs in which the main thread does the
    same make the same blocks. -/
theorem run_main {cs cs' : List Callback}
    (hmain : cs.filter Callback.isMain = cs'.filter Callback.isMain) :
    (System.run cs).blocks = (System.run cs').blocks := by
  have hparts : (System.run cs).mainPart = (System.run cs').mainPart := by
    rw [mainPart_filter, hmain, ← mainPart_filter]
  have hblocks : (System.run cs).mainPart.blocks = (System.run cs').mainPart.blocks := by
    rw [hparts]
  exact hblocks

theorem Refines.traceBlocks (h : Refines g s) : g.trace.blocks = s.blocks.blocks :=
  congrArg (·.blocks) h.blocks

/-- The same threads as in `sampleRun`: the directory is made before the file is opened. -/
def otherRun : List Callback :=
  [.node .start, .node (.emitAsyncInit 5 1), .nodeReturn,
    .uvFs .openFile [0, 1000, 0, 0, 0, 77], .uvFs .mkdir [0, 2000, 0, 0, 0], .uvFsWork 1 2336,
    .sysCall 1 (.mkdir "/b"), .sysReturn 1 (.mkdir "/b") (-1), .uvFsWorkReturn 1,
    .node .newAsyncId, .nodeReturn, .uvFsWork 2 1336, .node .newTickInfo, .nodeReturn,
    .sysCall 2 (.openFile "/a" 2), .sysReturn 2 (.openFile "/a" 2) 7, .uvFsWorkReturn 2,
    .node (.pushAsyncIds 5 1), .nodeReturn, .node (.popAsyncId 5), .nodeReturn]

theorem legal_otherRun : Legal otherRun := by decide +kernel

theorem filter_otherRun : sampleRun.filter Callback.isMain = otherRun.filter Callback.isMain := by
  decide +kernel

end NodeGenerator

end Fsracer

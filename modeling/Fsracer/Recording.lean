/-
  File:      Fsracer/Recording.lean
  Subject:   FROM THE TRACER TO fsracer: what a run records can be dumped and read.

  `RecordedTrace` is what the dump and the parser agree on. A legal run of the tracer records such
  a trace, if its arguments fit (`Readable`) and the system calls of a thread do not overlap
  (`Sequential`): the mark of a failed call is set on the operation that was recorded last.

  * **`run_recorded`** -- the trace of such a run is a `RecordedTrace`;
  * **`run_roundTrip`** -- if the run is prompt and makes none of the calls that the parser does
    not read back (`Kept`), fsracer reads the trace that was recorded.
-/
import Mathlib
import Fsracer.Sentences
import Fsracer.Threads
import Fsracer.RoundTrip

namespace Fsracer

namespace NodeGenerator

open TraceLexer TraceParser
open BlockBrackets (AtEnd addDebugInfo)

/-! ## 1. Readable runs -/

/-- The arguments of a system call that fit the format. -/
def SysCall.Readable : SysCall → Prop
  | .close fd => IsInt fd
  | .link oldPath newPath | .rename oldPath newPath | .symlink oldPath newPath =>
      IsIdentifier oldPath ∧ IsIdentifier newPath
  | .access path | .chmod path | .chown path | .openFile path _ | .lchown path | .lstat path
  | .mkdir path | .readlink path | .realpath path | .rmdir path | .stat path | .unlink path
  | .utime path => IsIdentifier path

/-- **The arguments of a callback that fit the format.** -/
def Callback.Readable : Callback → Prop
  | .node (.pushAsyncIds x t) | .node (.emitAsyncInit x t) => x ≤ intMax ∧ t ≤ intMax
  | .node (.emitPromiseResolve x) => x ≤ intMax
  | .sysCall _ call => call.Readable
  | .sysReturn _ _ retVal => IsInt retVal
  | _ => True

/-- The system call that a thread has made and that has not returned, after a callback. -/
def Callback.nextCall (thread : Nat) (call : Option SysCall) : Callback → Option SysCall
  | .sysCall t call' => if t = thread then some call' else call
  | .sysReturn t .. | .uvFsWork t _ | .uvFsWorkReturn t => if t = thread then none else call
  | _ => call

/-- The system call that a thread has made and that has not returned. -/
def pendingCall (thread : Nat) (cs : List Callback) : Option SysCall :=
  cs.foldl (Callback.nextCall thread) none

/-- **A thread makes one system call after the other.** -/
def Sequential (cs : List Callback) : Prop :=
  ∀ p t call retVal, p ++ [Callback.sysReturn t call retVal] <+: cs → pendingCall t p = some call

theorem Sequential.of_prefix {cs ds : List Callback} (h : Sequential cs) (hp : ds <+: cs) :
    Sequential ds :=
  fun p t call retVal hpc => h p t call retVal (hpc.trans hp)

/-- Whether a system call that returns is the one that the thread has made. -/
def Callback.returns (p : List Callback) : Callback → Bool
  | .sysReturn t call _ => decide (pendingCall t p = some call)
  | _ => true

theorem sequential_iff {cs : List Callback} :
    Sequential cs ↔ ∀ i (h : i < cs.length), cs[i].returns (cs.take i) = true := by
  rw [← Machine.forall_prefix (P := fun p (c : Callback) => c.returns p = true)]
  refine ⟨fun h p c hp => ?_, fun h p t call retVal hp => of_decide_eq_true (h p _ hp)⟩
  cases c with
  | sysReturn t call retVal => exact decide_eq_true (h p t call retVal hp)
  | _ => rfl

instance (cs : List Callback) : Decidable (Sequential cs) := decidable_of_iff _ sequential_iff.symm

/-! ## 2. Operations -/

theorem recorded_operations {call : SysCall} (h : call.Readable) :
    ∀ op ∈ call.operations, RecordedOperation op := by
  intro op hop
  cases call with
  | close fd =>
      obtain rfl := List.mem_singleton.mp hop
      exact ⟨by simp [wrapperNames], fd, h, rfl⟩
  | link oldPath newPath =>
      simp only [SysCall.operations, List.mem_cons, List.not_mem_nil, or_false] at hop
      rcases hop with rfl | rfl | rfl
      · exact ⟨by simp [wrapperNames], rfl, h.1⟩
      · exact ⟨by simp [wrapperNames], rfl, h.2⟩
      · exact ⟨by simp [wrapperNames], rfl, rfl, h⟩
  | rename oldPath newPath =>
      simp only [SysCall.operations, List.mem_cons, List.not_mem_nil, or_false] at hop
      rcases hop with rfl | rfl | rfl
      · exact ⟨by simp [wrapperNames], rfl, h.1⟩
      · exact ⟨by simp [wrapperNames], rfl, h.2⟩
      · exact ⟨by simp [wrapperNames], rfl, rfl, h⟩
  | symlink oldPath newPath =>
      obtain rfl := List.mem_singleton.mp hop
      exact ⟨by simp [wrapperNames], rfl, h.2, h.1⟩
  | _ =>
      obtain rfl := List.mem_singleton.mp hop
      exact ⟨by simp [wrapperNames], rfl, h⟩

/-- An operation other than `newFd` may fail. -/
theorem recorded_markFailed {op : Operation} (h : RecordedOperation op)
    (hkind : ∀ dirfd path fd, op.kind ≠ .newFd dirfd path fd) :
    RecordedOperation op.markFailed := by
  obtain ⟨kind, failed, name⟩ := op
  refine ⟨h.name, ?_⟩
  have hargs := h.args
  cases kind with
  | newFd dirfd path fd => exact absurd rfl (hkind dirfd path fd)
  | _ => exact hargs

/-- No system call is recorded as `newFd` when it is made. -/
theorem kind_operations {call : SysCall} {op : Operation} (h : op ∈ call.operations)
    (dirfd : Nat) (path : String) (fd : Int) : op.kind ≠ .newFd dirfd path fd := by
  cases call with
  | link oldPath newPath | rename oldPath newPath =>
      simp only [SysCall.operations, List.mem_cons, List.not_mem_nil, or_false] at h
      rcases h with rfl | rfl | rfl <;> exact nofun
  | _ =>
      obtain rfl := List.mem_singleton.mp h
      exact nofun

theorem operations_ne_nil (call : SysCall) : call.operations ≠ [] := by
  cases call <;> simp [SysCall.operations]

/-! ## 3. Blocks -/

/-- A command whose arguments fit the format. -/
def RecordedCommand : BlockBrackets.Callback → Prop
  | .pushAsyncIds x t => x ≤ intMax ∧ t ≤ intMax
  | .addExpr e => RecordedExpr e
  | .setExprDebugInfo _ tag => tag ∈ debugTags
  | .popAsyncId _ | .popExpr | .addPromise _ => True

/-- The main blocks that a command opens, at most. -/
def mains : BlockBrackets.Callback → Nat
  | .popAsyncId _ => 1
  | _ => 0

/-- Blocks that can be dumped and read; at most `n` of them were main blocks. -/
structure RecordedBlocks (b : BlockBrackets.TraceGenerator) (n : Nat) : Prop where
  count : b.mainBlockCount ≤ n
  ids : ∀ block ∈ b.blocks, block.blockId ≤ intMax
  exprs : ∀ block ∈ b.blocks, ∀ e ∈ block.exprs, RecordedExpr e

section Blocks

variable {b : BlockBrackets.TraceGenerator} {n m : Nat}

theorem RecordedBlocks.mono (h : RecordedBlocks b n) (hnm : n ≤ m) : RecordedBlocks b m :=
  ⟨h.count.trans hnm, h.ids, h.exprs⟩

theorem RecordedBlocks.openBlock (h : RecordedBlocks b n) (x : Block) (hid : x.blockId ≤ intMax)
    (hx : x.exprs = []) : RecordedBlocks (b.openBlock x) n := by
  refine ⟨h.count, fun y hy => ?_, fun y hy e he => ?_⟩
  · rcases List.mem_append.mp hy with hy | hy
    · exact h.ids y hy
    · rwa [List.mem_singleton.mp hy]
  · rcases List.mem_append.mp hy with hy | hy
    · exact h.exprs y hy e he
    · rw [List.mem_singleton.mp hy, hx] at he
      cases he

theorem RecordedBlocks.popBlock (h : RecordedBlocks b n) : RecordedBlocks b.popBlock n :=
  ⟨h.count, fun x hx => h.ids x (List.mem_of_mem_dropLast hx),
    fun x hx => h.exprs x (List.mem_of_mem_dropLast hx)⟩

theorem mem_modify {α : Type} {l : List α} {i : Nat} {f : α → α} {x : α} (h : x ∈ l.modify i f) :
    x ∈ l ∨ ∃ y, l[i]? = some y ∧ x = f y := by
  obtain ⟨j, hj⟩ := List.mem_iff_getElem?.mp h
  rw [List.getElem?_modify] at hj
  cases hl : l[j]? with
  | none =>
      rw [hl] at hj
      cases hj
  | some y =>
      rw [hl] at hj
      by_cases hij : i = j
      · simp only [hij, if_true, Option.map_eq_map, Option.map_some, Option.some.injEq] at hj
        exact .inr ⟨y, hij ▸ hl, hj.symm⟩
      · simp only [hij, if_false, Option.map_eq_map, Option.map_some, Option.some.injEq] at hj
        exact .inl (hj ▸ List.mem_of_getElem? hl)

theorem RecordedBlocks.editBlock (h : RecordedBlocks b n) {edit : List Expr → List Expr}
    (hedit : ∀ es, (∀ e ∈ es, RecordedExpr e) → ∀ e ∈ edit es, RecordedExpr e) :
    RecordedBlocks (b.editBlock edit) n := by
  cases hi : b.currentBlock with
  | none =>
      unfold BlockBrackets.TraceGenerator.editBlock
      rw [hi]
      exact h
  | some i =>
      have hb : (b.editBlock edit).blocks =
          b.blocks.modify i fun x => { x with exprs := edit x.exprs } := by
        unfold BlockBrackets.TraceGenerator.editBlock
        rw [hi]
      refine ⟨by rw [BlockBrackets.mainBlockCount_editBlock]; exact h.count, fun x hx => ?_,
        fun x hx e he => ?_⟩
      · rcases mem_modify (hb ▸ hx) with hx | ⟨y, hy, rfl⟩
        · exact h.ids x hx
        · exact h.ids y (List.mem_of_getElem? hy)
      · rcases mem_modify (hb ▸ hx) with hx | ⟨y, hy, rfl⟩
        · exact h.exprs x hx e he
        · exact hedit y.exprs (h.exprs y (List.mem_of_getElem? hy)) e he

theorem recorded_addDebugInfo {e : Expr} (h : RecordedExpr e) {tag : String}
    (ht : tag ∈ debugTags) :
    RecordedExpr (addDebugInfo tag e) := by
  have hall : ∀ {tags : List String}, (∀ t ∈ tags, t ∈ debugTags) →
      ∀ t ∈ tags ++ [tag], t ∈ debugTags := by
    intro tags htags t hmem
    rcases List.mem_append.mp hmem with hmem | hmem
    · exact htags t hmem
    · exact List.mem_singleton.mp hmem ▸ ht
  cases e with
  | submitOp e => exact ⟨h.1, h.2.1, by simp, hall h.2.2.2⟩
  | newEvent e => exact ⟨h.1, h.2.1, h.2.2.1, h.2.2.2.1, hall h.2.2.2.2⟩
  | link e => exact ⟨h.1, h.2.1, hall h.2.2⟩
  | trigger e => exact ⟨h.1, hall h.2⟩

/-- **One command.** -/
theorem RecordedBlocks.step (h : RecordedBlocks b n) {c : BlockBrackets.Callback}
    (hc : RecordedCommand c) (hn : n + mains c ≤ intMax) :
    RecordedBlocks (BlockBrackets.step b c) (n + mains c) := by
  cases c with
  | pushAsyncIds x t =>
      have hid : (if x ∈ b.promiseSet then t else x) ≤ intMax := by
        split
        · exact hc.2
        · exact hc.1
      show RecordedBlocks (BlockBrackets.wrapPreEmitBefore b x t) n
      unfold BlockBrackets.wrapPreEmitBefore
      split
      · exact h
      · dsimp only
        split
        · split
          · refine h.editBlock fun es hes e he => ?_
            rcases List.mem_append.mp he with he | he
            · exact hes e he
            · rw [List.mem_singleton.mp he]
              exact ⟨hc.1, fun tag ht => (List.not_mem_nil ht).elim⟩
          · split
            · exact h.popBlock.openBlock _ hid rfl
            · exact h.openBlock _ hid rfl
        · exact h.openBlock _ hid rfl
  | popAsyncId x =>
      have hcount := h.count
      have hmain : RecordedBlocks (BlockBrackets.addMainBlock b) (n + 1) := by
        have h' : RecordedBlocks { b with mainBlockCount := b.mainBlockCount + 1 } (n + 1) :=
          ⟨Nat.succ_le_succ hcount, h.ids, h.exprs⟩
        exact h'.openBlock _ ((Nat.succ_le_succ hcount).trans hn) rfl
      show RecordedBlocks (BlockBrackets.wrapPreEmitAfter b x) (n + 1)
      unfold BlockBrackets.wrapPreEmitAfter
      split
      · split
        · exact hmain
        · split
          · exact hmain
          · exact h.mono (Nat.le_succ n)
      · exact h.mono (Nat.le_succ n)
  | addExpr e =>
      show RecordedBlocks (b.editBlock fun es => es ++ [e]) n
      refine h.editBlock fun es hes e' he => ?_
      rcases List.mem_append.mp he with he | he
      · exact hes e' he
      · exact List.mem_singleton.mp he ▸ hc
  | popExpr => exact h.editBlock fun es hes e he => hes e (List.mem_of_mem_dropLast he)
  | setExprDebugInfo i tag =>
      show RecordedBlocks (b.editBlock fun es => es.modify i (addDebugInfo tag)) n
      refine h.editBlock fun es hes e he => ?_
      rcases mem_modify he with he | ⟨e', he', rfl⟩
      · exact hes e he
      · exact recorded_addDebugInfo (hes e' (List.mem_of_getElem? he')) hc
  | addPromise x => exact ⟨h.count, h.ids, h.exprs⟩

theorem RecordedBlocks.foldl (h : RecordedBlocks b n) {cs : List BlockBrackets.Callback}
    (hcs : ∀ c ∈ cs, RecordedCommand c) (hn : n + (cs.map mains).sum ≤ intMax) :
    RecordedBlocks (cs.foldl BlockBrackets.step b) (n + (cs.map mains).sum) := by
  induction cs generalizing b n with
  | nil => exact h
  | cons c cs ih =>
      rw [List.map_cons, List.sum_cons, ← Nat.add_assoc] at hn ⊢
      exact ih (h.step (hcs c List.mem_cons_self) (by omega))
        (fun c' hc' => hcs c' (List.mem_cons_of_mem _ hc')) hn

end Blocks

theorem opName_mem (f : UvFs) : f.opName ∈ debugTags := by
  cases f <;> simp [UvFs.opName, debugTags]

/-- What a readable callback writes fits the format. -/
theorem recorded_commands {s : System} {c : Callback} (hc : c.Readable)
    (hcount : s.eventCount + 1 ≤ intMax) (hcreated : ∀ x, s.createdEvent = some x → x ≤ intMax) :
    ∀ k ∈ s.commands c, RecordedCommand k := by
  have hevent : ∀ {x : Nat} {event : Event} {tags : List String}, x ≤ intMax →
      event.eventType ≠ .MAIN → event.eventValue ≤ 3 →
      (event.eventType = .EXT → event.eventValue = 0) →
      (∀ t ∈ tags, t ∈ debugTags) → RecordedCommand (.addExpr (.newEvent ⟨x, event, tags⟩)) :=
    fun hx hm hv he ht => ⟨hx, hm, hv.trans (by decide), he, ht⟩
  intro k hk
  cases c with
  | node call =>
      cases call with
      | pushAsyncIds x t => exact List.mem_singleton.mp hk ▸ hc
      | popAsyncId x => exact List.mem_singleton.mp hk ▸ trivial
      | emitAsyncInit x t =>
          unfold System.commands at hk
          dsimp only at hk
          split at hk
          · exact List.mem_singleton.mp hk ▸ hevent hc.1 (by simp) (by simp) (by simp)
              (by simp [debugTags])
          · split at hk
            · exact List.mem_singleton.mp hk ▸ trivial
            · rcases List.mem_cons.mp hk with rfl | hk
              · exact hevent hc.1 (by simp) (by simp) (by simp) (by simp)
              · exact List.mem_singleton.mp hk ▸ ⟨hc.2, hc.1, by simp⟩
      | timerWrapNow =>
          rcases List.mem_cons.mp hk with rfl | hk
          · trivial
          · exact List.mem_singleton.mp hk ▸ hevent (by omega) (by simp) (by simp) (by simp)
              (by simp [debugTags])
      | emitPromiseResolve x =>
          exact List.mem_singleton.mp hk ▸ hevent hc (by simp) (by simp) (by simp)
            (by simp [debugTags])
      | newAsyncId =>
          exact List.mem_singleton.mp hk ▸ hevent hcount (by simp) (by simp) (by simp)
            (by simp [debugTags])
      | newTickInfo =>
          rcases List.mem_cons.mp hk with rfl | hk
          · trivial
          · exact List.mem_singleton.mp hk ▸ hevent (by omega) (by simp) (by simp) (by simp)
              (by simp [debugTags])
      | _ => cases hk
  | thenable => exact List.mem_singleton.mp hk ▸ trivial
  | uvFs f args =>
      have htag : ∀ {sub : Submission}, IsOpId sub.id →
          (∀ x, sub.eventId = some x → x ≤ intMax) → k ∈ s.submitCommands f.opName sub →
          RecordedCommand k := by
        intro sub hid hx hk
        unfold System.submitCommands at hk
        rcases List.mem_append.mp hk with hk | hk
        · split at hk
          · rcases List.mem_cons.mp hk with rfl | hk
            · exact List.mem_cons_self
            · exact List.mem_singleton.mp hk ▸ opName_mem f
          · cases hk
        · refine List.mem_singleton.mp hk ▸ ⟨hid, hx, List.cons_ne_nil _ _, fun t ht => ?_⟩
          exact List.mem_singleton.mp ht ▸ opName_mem f
      unfold System.commands System.submission at hk
      dsimp only at hk
      split at hk
      · exact htag ⟨_, .inl rfl⟩ (fun x hx => by cases hx) hk
      · cases hx : s.createdEvent with
        | none =>
            rw [hx] at hk
            cases hk
        | some x =>
            rw [hx] at hk
            refine htag ⟨_, .inr rfl⟩ (fun y hy => ?_) hk
            cases hy
            exact hcreated x hx
  | _ => cases hk

theorem mains_commands (s : System) (c : Callback) : ((s.commands c).map mains).sum ≤ 1 := by
  cases c with
  | node call =>
      cases call with
      | emitAsyncInit x t =>
          unfold System.commands
          dsimp only
          split
          · simp [mains]
          · split <;> simp [mains]
      | _ => simp [System.commands, mains]
  | uvFs f args =>
      have hsub : ∀ sub, ((s.submitCommands f.opName sub).map mains).sum = 0 := by
        intro sub
        unfold System.submitCommands
        split <;> simp [mains]
      unfold System.commands
      dsimp only
      cases s.submission f args with
      | none => simp
      | some sub => simp [hsub]
  | _ => simp [System.commands, mains]

/-- The main thread, after at most `n` callbacks. -/
structure RecordedMain (s : System) (n : Nat) : Prop where
  eventCount : s.eventCount ≤ n
  created : ∀ x, s.createdEvent = some x → x ≤ intMax
  blocks : RecordedBlocks s.blocks n

theorem RecordedMain.step {s : System} {n : Nat} (h : RecordedMain s n) {c : Callback}
    (hc : c.Readable) (hn : n + 1 ≤ intMax) : RecordedMain (s.step c) (n + 1) := by
  have hcount := h.eventCount
  refine ⟨?_, ?_, ?_⟩
  · show s.nextEventCount c ≤ n + 1
    unfold System.nextEventCount
    split <;> omega
  · show ∀ x, s.nextCreatedEvent c = some x → x ≤ intMax
    intro x hx
    unfold System.nextCreatedEvent at hx
    split at hx
    · split at hx
      · exact h.created x hx
      · cases hx
        exact hc.1
    · split at hx
      · exact h.created x hx
      · cases hx
    · exact h.created x hx
  · show RecordedBlocks (s.nextBlocks c) (n + 1)
    by_cases hstart : c = .node .start
    · subst hstart
      have h' : RecordedBlocks { s.blocks with
          promiseSet := [], mainBlockCount := s.blocks.mainBlockCount + 1 } (n + 1) :=
        ⟨Nat.succ_le_succ h.blocks.count, h.blocks.ids, h.blocks.exprs⟩
      exact h'.openBlock _ ((Nat.succ_le_succ h.blocks.count).trans hn) rfl
    · rw [nextBlocks_of_ne hstart]
      have hmains := mains_commands s c
      exact (h.blocks.foldl (recorded_commands hc (by omega) h.created) (by omega)).mono (by omega)

theorem recordedMain_run {cs : List Callback} (hc : ∀ c ∈ cs, c.Readable)
    (hn : cs.length ≤ intMax) : RecordedMain (System.run cs) cs.length := by
  induction cs using List.reverseRecOn with
  | nil =>
      refine ⟨le_rfl, fun x hx => ?_, le_rfl, fun b hb => ?_, fun b hb => ?_⟩
      · cases hx
      · cases hb
      · cases hb
  | append_singleton cs c ih =>
      rw [List.length_append, List.length_singleton] at hn ⊢
      rw [System.run_snoc]
      refine (ih (fun c' hc' => hc c' (List.mem_append_left _ hc')) (by omega)).step ?_ hn
      exact hc c (List.mem_append_right _ (List.mem_singleton_self c))

/-! ## 4. Threads -/

/-- A thread that has called: its last operation is the last one of the call. -/
def LastOf (p : Pool) (t : Nat) (call : SysCall) : Prop :=
  ∀ i e, (p.worker t).current = some i → p.execOps[i]? = some e →
    e.operations.getLast? = call.operations.getLast?

/-- A pool that records operations with the property `P`; `calls` are the calls that have not
    returned. -/
structure RecordedPool (P : Operation → Prop) (p : Pool) (calls : Nat → Option SysCall) : Prop where
  pending : ∀ request id, p.pending request = some id → IsOpId id
  ids : ∀ e ∈ p.execOps, IsOpId e.id
  operations : ∀ e ∈ p.execOps, ∀ op ∈ e.operations, P op
  last : ∀ t call, calls t = some call → LastOf p t call

/-- Every `ExecOp` that a thread has is its own. -/
structure Owned (p : Pool) : Prop where
  lt : ∀ t i, (p.worker t).current = some i → i < p.execOps.length
  unique : ∀ t u i, (p.worker t).current = some i → (p.worker u).current = some i → t = u

theorem owned_run (cs : List Callback) : Owned (System.run cs).pool := by
  have howned := (sameFor_run 0 (poolEvents cs)).owned
  have hlen := (sameFor_run 0 (poolEvents cs)).length
  rw [pool_run]
  refine ⟨fun t i hi => ?_, fun t u i ht hu => ?_⟩
  · rw [← hlen]
    exact (List.getElem?_eq_some_iff.mp (howned t i hi)).1
  · exact Option.some.inj ((howned t i ht).symm.trans (howned u i hu))

section Pools

variable {P : Operation → Prop} {p : Pool} {calls : Nat → Option SysCall}

theorem Owned.setWorker (h : Owned p) (t : Nat) {w : Worker}
    (hw : w.current = (p.worker t).current) : Owned (p.setWorker t w) := by
  have hcurrent : ∀ u, ((p.setWorker t w).worker u).current = (p.worker u).current := by
    intro u
    rw [worker_setWorker]
    split
    · rename_i htu
      rw [hw, htu]
    · rfl
  refine ⟨fun u i hi => h.lt u i (hcurrent u ▸ hi), fun u v i hu hv => ?_⟩
  exact h.unique u v i (hcurrent u ▸ hu) (hcurrent v ▸ hv)

theorem of_update_none {t u : Nat} {call : SysCall}
    (h : Function.update calls t none u = some call) : u ≠ t ∧ calls u = some call := by
  by_cases hut : u = t
  · rw [hut, Function.update_self] at h
    cases h
  · rw [Function.update_of_ne hut] at h
    exact ⟨hut, h⟩

/-- A call that has returned. -/
theorem RecordedPool.forget (h : RecordedPool P p calls) (t : Nat) :
    RecordedPool P p (Function.update calls t none) where
  pending := h.pending
  ids := h.ids
  operations := h.operations
  last u call hcall := h.last u call (of_update_none hcall).2

/-- A new state of a thread that keeps its `ExecOp` or gives it up. -/
theorem RecordedPool.setWorker (h : RecordedPool P p calls) (t : Nat) {w : Worker}
    (hcurrent : w.current = (p.worker t).current ∨ w.current = none) :
    RecordedPool P (p.setWorker t w) calls where
  pending := h.pending
  ids := h.ids
  operations := h.operations
  last u call hcall i e hi he := by
    rw [worker_setWorker] at hi
    by_cases htu : t = u
    · rw [if_pos htu] at hi
      rcases hcurrent with hc | hc
      · exact h.last u call hcall i e (htu ▸ hc ▸ hi) he
      · rw [hc] at hi
        cases hi
    · rw [if_neg htu] at hi
      exact h.last u call hcall i e hi he

/-- A thread changes its `ExecOp` in a call, or when the call returns. -/
theorem RecordedPool.edit (h : RecordedPool P p calls) (ho : Owned p) (t : Nat)
    {f : ExecOp → ExecOp} (call : Option SysCall) (hid : ∀ e, (f e).id = e.id)
    (hops : ∀ i e, (p.worker t).current = some i → p.execOps[i]? = some e →
      ∀ op ∈ (f e).operations, P op)
    (hlast : ∀ c, call = some c → ∀ e, (f e).operations.getLast? = c.operations.getLast?) :
    RecordedPool P (p.edit t f) (Function.update calls t call) := by
  have hcalls : ∀ u c, u ≠ t → Function.update calls t call u = some c → calls u = some c := by
    intro u c hut hc
    rwa [Function.update_of_ne hut] at hc
  cases hi : (p.worker t).current with
  | none =>
      rw [edit_none hi]
      refine ⟨h.pending, h.ids, h.operations, fun u c hc => ?_⟩
      by_cases hut : u = t
      · intro i e hi' _
        rw [hut, hi] at hi'
        cases hi'
      · exact h.last u c (hcalls u c hut hc)
  | some i =>
      have hexec : (p.edit t f).execOps = p.execOps.modify i f := by rw [edit_some hi]
      refine ⟨by rw [edit_some hi]; exact h.pending, fun e he => ?_, fun e he op hop => ?_,
        fun u c hc j e hj he => ?_⟩
      · rcases mem_modify (hexec ▸ he) with he | ⟨e', he', rfl⟩
        · exact h.ids e he
        · rw [hid]
          exact h.ids e' (List.mem_of_getElem? he')
      · rcases mem_modify (hexec ▸ he) with he | ⟨e', he', rfl⟩
        · exact h.operations e he op hop
        · exact hops i e' hi he' op hop
      · rw [worker_edit] at hj
        rw [hexec, List.getElem?_modify] at he
        by_cases hut : u = t
        · -- the thread itself: its `ExecOp` is the changed one
          subst hut
          obtain rfl : i = j := Option.some.inj (hi.symm.trans hj)
          rw [Function.update_self] at hc
          cases hx : p.execOps[i]? with
          | none =>
              rw [hx] at he
              cases he
          | some e' =>
              simp only [hx, if_true, Option.map_eq_map, Option.map_some, Option.some.injEq] at he
              rw [← he]
              exact hlast c hc e'
        · have hij : i ≠ j := fun hij => hut (ho.unique u t j hj (hij ▸ hi))
          refine h.last u c (hcalls u c hut hc) j e hj ?_
          simpa [hij] using he

/-- A thread starts. -/
theorem RecordedPool.start (h : RecordedPool P p calls) (ho : Owned p) (t request : Nat) :
    RecordedPool P (p.start t request) (Function.update calls t none) := by
  cases hp : p.pending request with
  | none =>
      rw [Pool.start_none hp]
      exact (h.forget t).setWorker t (.inl rfl)
  | some id =>
      rw [Pool.start_some hp]
      refine ⟨fun r id' hr => ?_, fun e he => ?_, fun e he op hop => ?_, fun u c hc i e hi he => ?_⟩
      · change Function.update p.pending request none r = some id' at hr
        by_cases hrr : r = request
        · rw [hrr, Function.update_self] at hr
          cases hr
        · rw [Function.update_of_ne hrr] at hr
          exact h.pending r id' hr
      · rcases List.mem_append.mp he with he | he
        · exact h.ids e he
        · rw [List.mem_singleton.mp he]
          exact h.pending request id hp
      · rcases List.mem_append.mp he with he | he
        · exact h.operations e he op hop
        · rw [List.mem_singleton.mp he] at hop
          cases hop
      · change ((p.setWorker t _).worker u).current = some i at hi
        obtain ⟨hut, hc⟩ := of_update_none hc
        rw [worker_setWorker, if_neg (Ne.symm hut)] at hi
        change (p.execOps ++ [_])[i]? = some e at he
        rw [List.getElem?_append_left (ho.lt u i hi)] at he
        exact h.last u c hc i e hi he

/-- A thread leaves. -/
theorem RecordedPool.leave (h : RecordedPool P p calls) (t : Nat) :
    RecordedPool P (p.leave t) (Function.update calls t none) := by
  unfold Pool.leave
  dsimp only
  split
  · exact h.forget t
  · split
    · exact (h.forget t).setWorker t (.inr rfl)
    · exact h.forget t

/-- A thread calls. -/
theorem RecordedPool.sysCall (h : RecordedPool P p calls) (ho : Owned p) (t : Nat) {call : SysCall}
    (hcall : ∀ op ∈ call.operations, P op) :
    RecordedPool P (p.sysCall t call) (Function.update calls t (some call)) := by
  have hrecord : RecordedPool P (p.record t call.operations)
      (Function.update calls t (some call)) := by
    refine h.edit ho t _ (fun _ => rfl) (fun i e _ he op hop => ?_) fun c hc e => ?_
    · rcases List.mem_append.mp hop with hop | hop
      · exact h.operations e (List.mem_of_getElem? he) op hop
      · exact hcall op hop
    · cases hc
      exact List.getLast?_append_of_ne_nil _ (operations_ne_nil call)
  unfold Pool.sysCall
  cases call.opens with
  | none => exact hrecord
  | some path => exact hrecord.setWorker t (.inl rfl)

/-- A call returns. -/
theorem RecordedPool.sysReturn (h : RecordedPool P p calls) (ho : Owned p) (t : Nat)
    {call : SysCall} (hcall : calls t = some call) (retVal : Int)
    (hret : ∀ path, call.opens.isSome → (p.worker t).opening = some path →
      P ⟨.newFd atFdcwd path retVal, decide (retVal < 0), "open"⟩)
    (hmark : ∀ op, P op → (∀ dirfd path fd, op.kind ≠ .newFd dirfd path fd) → P op.markFailed) :
    RecordedPool P (p.sysReturn t call retVal) (Function.update calls t none) := by
  unfold Pool.sysReturn
  split
  · rename_i hopens
    cases hw : (p.worker t).opening with
    | none => exact h.forget t
    | some path =>
        have hset : RecordedPool P (p.setWorker t { p.worker t with opening := none }) calls :=
          h.setWorker t (.inl rfl)
        refine hset.edit (ho.setWorker t rfl) t none (fun _ => rfl)
          (fun i e _ he op hop => ?_) fun c hc => by cases hc
        rcases List.mem_append.mp hop with hop | hop
        · exact h.operations e (List.mem_of_getElem? he) op hop
        · rw [List.mem_singleton.mp hop]
          exact hret path hopens hw
  · split
    · refine h.edit ho t none (fun _ => rfl) (fun i e hi he op hop => ?_)
        fun c hc => by cases hc
      have hlast := h.last t call hcall i e hi he
      rcases mem_modify hop with hop | ⟨op', hop', rfl⟩
      · exact h.operations e (List.mem_of_getElem? he) op hop
      · -- the mark is set on the last operation of the call
        have hmem : op' ∈ call.operations := by
          refine List.mem_of_getLast? ?_
          rw [← hlast, List.getLast?_eq_getElem?]
          exact hop'
        refine hmark op' ?_ (kind_operations hmem)
        exact h.operations e (List.mem_of_getElem? he) op' (List.mem_of_getElem? hop')
    · exact h.forget t

end Pools

theorem pendingCall_snoc (t : Nat) (cs : List Callback) (c : Callback) :
    pendingCall t (cs ++ [c]) = c.nextCall t (pendingCall t cs) := List.foldl_concat ..

/-- A call that has not returned was made. -/
theorem mem_of_pendingCall {t : Nat} {cs : List Callback} {call : SysCall}
    (h : pendingCall t cs = some call) : Callback.sysCall t call ∈ cs := by
  induction cs using List.reverseRecOn with
  | nil => cases h
  | append_singleton cs c ih =>
      rw [pendingCall_snoc] at h
      have hold : pendingCall t cs = some call → Callback.sysCall t call ∈ cs ++ [c] := fun hp =>
        List.mem_append_left _ (ih hp)
      unfold Callback.nextCall at h
      split at h
      · split at h
        · rename_i htu
          cases h
          exact htu ▸ List.mem_append_right _ (List.mem_singleton_self _)
        · exact hold h
      · split at h
        · cases h
        · exact hold h
      · split at h
        · cases h
        · exact hold h
      · split at h
        · cases h
        · exact hold h
      · exact hold h

/-- A thread that has called `open` opens the path of the call. -/
theorem opening_run {t : Nat} {cs : List Callback} {call : SysCall}
    (h : pendingCall t cs = some call) (ho : call.opens.isSome) :
    ((System.run cs).pool.worker t).opening = call.opens := by
  induction cs using List.reverseRecOn with
  | nil => cases h
  | append_singleton cs c ih =>
      rw [pendingCall_snoc] at h
      rw [System.run_snoc]
      cases c with
      | node call' => exact ih h
      | nodeReturn => exact ih h
      | thenable => exact ih h
      | uvFs f args =>
          show ((((System.run cs).poolEvents (.uvFs f args)).foldl Pool.step _).worker
            t).opening = _
          rw [poolEvents_uvFs]
          cases (System.run cs).submission f args <;> exact ih h
      | uvFsWork u ptr =>
          refine (opening_start _ u t _).trans (ih ?_)
          simp only [Callback.nextCall] at h
          split at h
          · cases h
          · exact h
      | uvFsWorkReturn u =>
          refine (opening_leave _ u t).trans (ih ?_)
          simp only [Callback.nextCall] at h
          split at h
          · cases h
          · exact h
      | sysCall u call' =>
          refine (opening_sysCall _ u t call').trans ?_
          simp only [Callback.nextCall] at h
          by_cases hut : u = t
          · rw [if_pos hut] at h
            cases h
            rw [if_pos ⟨hut, ho⟩]
          · rw [if_neg hut] at h
            rw [if_neg fun hc => hut hc.1]
            exact ih h
      | sysReturn u call' retVal =>
          refine (opening_sysReturn _ u t call' retVal).trans ?_
          simp only [Callback.nextCall] at h
          by_cases hut : u = t
          · rw [if_pos hut] at h
            cases h
          · rw [if_neg hut] at h
            rw [if_neg fun hc => hut hc.1]
            exact ih h

/-- The operations that the calls of a run are recorded as have the property `P`. -/
structure Admits (P : Operation → Prop) (cs : List Callback) : Prop where
  calls : ∀ t call, Callback.sysCall t call ∈ cs → ∀ op ∈ call.operations, P op
  opened : ∀ t call path retVal, Callback.sysCall t call ∈ cs → call.opens = some path →
    Callback.sysReturn t call retVal ∈ cs →
    P ⟨.newFd atFdcwd path retVal, decide (retVal < 0), "open"⟩
  marked : ∀ op, P op → (∀ dirfd path fd, op.kind ≠ .newFd dirfd path fd) → P op.markFailed

theorem recordedPool_run {P : Operation → Prop} {cs : List Callback} (hs : Sequential cs)
    (hP : Admits P cs) : RecordedPool P (System.run cs).pool fun t => pendingCall t cs := by
  induction cs using List.reverseRecOn with
  | nil => refine ⟨fun _ _ h => ?_, fun _ h => ?_, fun _ h => ?_, fun _ _ h => ?_⟩ <;> cases h
  | append_singleton cs c ih =>
      have hpre : ∀ {x}, x ∈ cs → x ∈ cs ++ [c] := List.mem_append_left _
      have hc : c ∈ cs ++ [c] := List.mem_append_right _ (List.mem_singleton_self c)
      have ih := ih (hs.of_prefix (List.prefix_append cs [c]))
        ⟨fun t call h => hP.calls t call (hpre h), fun t call path retVal h ho h' =>
          hP.opened t call path retVal (hpre h) ho (hpre h'), hP.marked⟩
      have ho := owned_run cs
      simp only [pendingCall_snoc]
      rw [System.run_snoc]
      have hupdate : ∀ t call, Function.update (fun u => pendingCall u cs) t call =
          fun u => if t = u then call else pendingCall u cs := by
        intro t call
        funext u
        rw [Function.update_apply]
        simp only [eq_comm]
      cases c with
      | node call => exact ih
      | nodeReturn => exact ih
      | thenable => exact ih
      | uvFs f args =>
          show RecordedPool P (((System.run cs).poolEvents (.uvFs f args)).foldl Pool.step _) _
          rw [poolEvents_uvFs]
          cases hsub : (System.run cs).submission f args with
          | none => exact ih
          | some sub =>
              have hid : IsOpId sub.id := by
                unfold System.submission at hsub
                split at hsub
                · cases hsub
                  exact ⟨_, .inl rfl⟩
                · obtain ⟨x, -, rfl⟩ := Option.map_eq_some_iff.mp hsub
                  exact ⟨_, .inr rfl⟩
              refine ⟨fun r id hr => ?_, ih.ids, ih.operations, ih.last⟩
              change Function.update (System.run cs).pool.pending sub.request (some sub.id) r =
                some id at hr
              by_cases hrr : r = sub.request
              · rw [hrr, Function.update_self] at hr
                exact Option.some.inj hr ▸ hid
              · rw [Function.update_of_ne hrr] at hr
                exact ih.pending r id hr
      | uvFsWork t ptr =>
          have hstep := ih.start ho t (ptr - workerOffset)
          rw [hupdate] at hstep
          exact hstep
      | uvFsWorkReturn t =>
          have hstep := ih.leave t
          rw [hupdate] at hstep
          exact hstep
      | sysCall t call =>
          have hstep := ih.sysCall ho t (hP.calls t call hc)
          rw [hupdate] at hstep
          exact hstep
      | sysReturn t call retVal =>
          have hpending := hs cs t call retVal (List.prefix_refl _)
          have hstep := ih.sysReturn ho t hpending retVal (fun path hopens hpath => by
            rw [opening_run hpending hopens] at hpath
            exact hP.opened t call path retVal (hpre (mem_of_pendingCall hpending)) hpath hc)
            hP.marked
          rw [hupdate] at hstep
          exact hstep

/-! ## 5. Recorded traces -/

/-- The thread and the directory of a trace. -/
def TraceGenerator.header (g : TraceGenerator) : Nat × String := (g.trace.threadId, g.trace.cwd)

/-- A result that keeps the header. -/
structure Keeps (g : TraceGenerator) (r : Result) : Prop where
  header : ∀ g', r = .ok g' → g'.header = g.header

section Header

variable {g g' : TraceGenerator}

theorem Keeps.pure (h : g'.header = g.header) : Keeps g (.ok g') := by
  refine ⟨fun g'' hg => ?_⟩
  cases hg
  exact h

theorem Keeps.error (e : Halt) : Keeps g (.error e) := ⟨fun _ hg => by cases hg⟩

theorem Keeps.bind {α : Type} {x : Except Halt α} {f : α → Result}
    (h : ∀ a, x = .ok a → Keeps g (f a)) : Keeps g (x >>= f) := by
  cases x with
  | error e => exact .error e
  | ok a => exact h a rfl

theorem Keeps.trans {r : Result} (h : Keeps g' r) (hg : g'.header = g.header) : Keeps g r :=
  ⟨fun g'' hr => (h.header g'' hr).trans hg⟩

theorem header_editBlock (edit : List Expr → List Expr) : (g.editBlock edit).header = g.header := by
  unfold TraceGenerator.editBlock
  split <;> rfl

/-- What is taken from the store leaves the header. -/
theorem header_popAs {α : Type} {cast : StoreValue → Option α} {key : String} {x : Option α}
    (h : g.popAs cast key = .ok (x, g')) : g'.header = g.header := by
  unfold TraceGenerator.popAs at h
  cases hx : g.getAs cast key with
  | error e =>
      rw [hx] at h
      cases h
  | ok a =>
      rw [hx] at h
      cases h
      rfl

theorem keeps_addToSet (x : Nat) (key : String) : Keeps g (addToSet g x key) := by
  refine .bind fun ids _ => ?_
  cases ids <;> exact .pure rfl

theorem keeps_addNewEventExpr (x : Nat) (event : Event) (tag : String) (store : Bool) :
    Keeps g (addNewEventExpr g x event tag store) := by
  refine .bind fun block _ => ?_
  dsimp only
  split <;> exact .pure (header_editBlock _)

theorem keeps_wrapPreNode (call : NodeCall) : Keeps g (wrapPreNode g call) := by
  cases call with
  | start => exact .pure rfl
  | pushAsyncIds x t =>
      show Keeps g (wrapPreEmitBefore g x t)
      unfold wrapPreEmitBefore
      split
      · exact .pure rfl
      · refine .bind fun isPromise _ => ?_
        dsimp only
        split
        · split
          · exact .pure (header_editBlock _)
          · split <;> exact .pure rfl
        · exact .pure rfl
  | popAsyncId x =>
      show Keeps g (wrapPreEmitAfter g x)
      unfold wrapPreEmitAfter
      split
      · exact .pure rfl
      · split
        · exact .pure rfl
        · refine .bind fun isPromise _ => ?_
          split <;> exact .pure rfl
  | emitAsyncInit x t =>
      refine .bind fun top _ => ?_
      split
      · exact (keeps_addNewEventExpr _ _ _ _).trans rfl
      · refine .bind fun ⟨isPromise, g'⟩ hp => ?_
        have hg' : g'.header = g.header := (header_popAs hp).trans rfl
        cases isPromise with
        | some b =>
            cases b with
            | true => exact (keeps_addToSet x _).trans hg'
            | false => exact .pure hg'
        | none =>
            refine .bind fun g'' hg'' => .pure ?_
            exact (header_editBlock _).trans
              (((keeps_addNewEventExpr _ _ _ _).header g'' hg'').trans hg')
  | timerWrapNow =>
      refine .bind fun block _ => (keeps_addToSet _ _).trans ?_
      exact (header_editBlock _).trans (header_editBlock _)
  | timerWrapNew => exact .pure rfl
  | emitPromiseResolve x => exact .bind fun block _ => .pure (header_editBlock _)
  | promiseWrapNew => exact .pure rfl
  | newAsyncId => exact .bind fun block _ => .pure (header_editBlock _)
  | newTickInfo =>
      exact .bind fun block _ => .pure ((header_editBlock _).trans (header_editBlock _))

theorem keeps_submit (ptr : Nat) (id : String) (eventId : Option Nat) (opName : String) :
    Keeps g (submit g ptr id eventId opName) := by
  refine .bind fun block _ => .pure ((header_editBlock _).trans ?_)
  split
  · exact (header_editBlock _).trans (header_editBlock _)
  · rfl

theorem keeps_addSubmitOp (args : List Nat) (opName : String) (pos : Nat) :
    Keeps g (addSubmitOp g args opName pos) := by
  unfold addSubmitOp
  dsimp only
  split
  · exact (keeps_submit _ _ _ _).trans rfl
  · refine .bind fun ⟨x, g'⟩ hp => ?_
    have hg' : g'.header = g.header := header_popAs hp
    cases x with
    | none => exact .pure hg'
    | some x => exact (keeps_submit _ _ _ _).trans hg'

theorem keeps_emitOperation (t : Nat) (op : Operation) : Keeps g (emitOperation g t op) := by
  refine .bind fun i _ => ?_
  cases i <;> exact .pure rfl

theorem keeps_emitHpath (t : Nat) (path : String) (eff : EffectType) (follow : Bool)
    (name : String) :
    Keeps g (emitHpath g t path eff follow name) := by
  unfold emitHpath
  split <;> exact keeps_emitOperation ..

theorem keeps_wrapPreSysCall (t : Nat) (call : SysCall) : Keeps g (wrapPreSysCall g t call) := by
  cases call with
  | openFile path flags =>
      refine .bind fun g' hg' => .pure ?_
      exact (keeps_emitHpath _ _ _ _ _).header g' hg'
  | link oldPath newPath =>
      refine .bind fun g' hg' => Keeps.trans ?_ ((keeps_emitHpath _ _ _ _ _).header g' hg')
      refine .bind fun g'' hg'' => Keeps.trans ?_ ((keeps_emitHpath _ _ _ _ _).header g'' hg'')
      exact keeps_emitOperation ..
  | rename oldPath newPath =>
      refine .bind fun g' hg' => Keeps.trans ?_ ((keeps_emitHpath _ _ _ _ _).header g' hg')
      refine .bind fun g'' hg'' => Keeps.trans ?_ ((keeps_emitHpath _ _ _ _ _).header g'' hg'')
      exact keeps_emitOperation ..
  | close fd => exact keeps_emitOperation ..
  | symlink oldPath newPath => exact keeps_emitOperation ..
  | _ =>
      simp only [wrapPreSysCall, wrapPreAccess, wrapPreChmod, wrapPreChown, wrapPreLchown,
        wrapPreLstat, wrapPreMkdir, wrapPreReadlink, wrapPreRealpath, wrapPreRmdir, wrapPreStat,
        wrapPreUnlink, wrapPreUtime]
      exact keeps_emitHpath _ _ _ _ _

theorem keeps_wrapPostSysCall (t : Nat) (retVal : Int) (call : SysCall) :
    Keeps g (wrapPostSysCall g t retVal call) := by
  have hstatus : Keeps g (wrapPostStatus g t retVal) := by
    refine .bind fun i _ => ?_
    cases i with
    | none => exact .pure rfl
    | some i =>
        dsimp only
        split <;> exact .pure rfl
  cases call with
  | openFile path flags =>
      refine .bind fun ⟨x, g'⟩ hp => ?_
      cases x with
      | none => exact .error _
      | some path' => exact (keeps_emitOperation ..).trans (header_popAs hp)
  | close fd => exact hstatus
  | link oldPath newPath => exact hstatus
  | mkdir path => exact hstatus
  | rename oldPath newPath => exact hstatus
  | rmdir path => exact hstatus
  | symlink oldPath newPath => exact hstatus
  | unlink path => exact hstatus
  | _ => exact .pure rfl

/-- A callback keeps the header. -/
theorem keeps_step (c : Callback) : Keeps g (step g c) := by
  cases c with
  | node call =>
      refine ⟨fun g' hg' => ?_⟩
      change (wrapPreNode g call).map _ = .ok g' at hg'
      cases hx : wrapPreNode g call with
      | error e =>
          rw [hx] at hg'
          cases hg'
      | ok g'' =>
          rw [hx] at hg'
          cases hg'
          exact (keeps_wrapPreNode call).header g'' hx
  | nodeReturn => exact .pure rfl
  | thenable => exact .bind fun block _ => .pure (header_editBlock _)
  | uvFs f args =>
      show Keeps g (wrapPreUvFs g args f)
      rw [wrapPreUvFs_eq]
      exact keeps_addSubmitOp ..
  | uvFsWork t ptr =>
      refine .bind fun g' hg' => ?_
      have hcount : g'.header = g.header := by
        refine Keeps.header (r := countEntry g t) ?_ g' hg'
        refine .bind fun n _ => ?_
        cases n <;> exact .pure rfl
      refine .bind fun ⟨x, g''⟩ hp => ?_
      have hg'' : g''.header = g.header := (header_popAs hp).trans hcount
      cases x <;> exact .pure hg''
  | uvFsWorkReturn t =>
      refine .bind fun n _ => ?_
      cases n with
      | none => exact .pure rfl
      | some n =>
          dsimp only
          split <;> exact .pure rfl
  | sysCall t call => exact keeps_wrapPreSysCall t call
  | sysReturn t call retVal => exact keeps_wrapPostSysCall t retVal call

end Header

/-- The trace has the thread and the directory of the process. -/
theorem header_run {threadId : Nat} {cwd : String} {cs : List Callback} {g : TraceGenerator}
    (h : run threadId cwd cs = .ok g) : g.header = (threadId, cwd) := by
  induction cs using List.reverseRecOn generalizing g with
  | nil =>
      cases h
      rfl
  | append_singleton cs c ih =>
      unfold run at h ih
      rw [List.foldlM_append] at h
      cases hx : cs.foldlM step (TraceGenerator.init threadId cwd) with
      | error e =>
          rw [hx] at h
          cases h
      | ok g' =>
          rw [hx] at h
          have hstep : step g' c = .ok g := by
            change (step g' c).bind Except.ok = .ok g at h
            cases hs : step g' c with
            | error e =>
                rw [hs] at h
                cases h
            | ok g'' =>
                rw [hs] at h
                exact h
          exact ((keeps_step c).header g hstep).trans (ih hx)

theorem admits_recorded {cs : List Callback} (hc : ∀ c ∈ cs, c.Readable) :
    Admits RecordedOperation cs where
  calls t call h := recorded_operations (hc _ h)
  opened t call path retVal h ho hr := by
    refine ⟨by simp [wrapperNames], rfl, ?_, hc _ hr, decide_eq_true_iff⟩
    have hread := hc _ h
    cases call with
    | openFile path' flags =>
        cases ho
        exact hread
    | _ => cases ho
  marked op := recorded_markFailed

theorem recordedTrace_run {threadId : Nat} {cwd : String} (hcwd : IsIdentifier cwd)
    {cs : List Callback} (hs : Sequential cs) (hc : ∀ c ∈ cs, c.Readable)
    (hn : cs.length ≤ intMax) {g : TraceGenerator} (hg : run threadId cwd cs = .ok g)
    (hr : Refines g (System.run cs)) (hops : g.trace.execOps ≠ [])
    (hprinted : g.trace.printedBlocks ≠ []) : RecordedTrace g.trace := by
  have hcwd' : g.trace.cwd = cwd := congrArg Prod.snd (header_run hg)
  have hmain := recordedMain_run hc hn
  have hpool := recordedPool_run hs (admits_recorded hc)
  refine ⟨hcwd' ▸ hcwd, ?_, ?_, ?_, ?_, hops, hprinted⟩
  · rw [hr.execOps]
    exact hpool.ids
  · rw [hr.execOps]
    exact hpool.operations
  · rw [hr.traceBlocks]
    exact hmain.blocks.ids
  · rw [hr.traceBlocks]
    exact hmain.blocks.exprs

/-- **The tracer records what can be dumped and read.** -/
theorem run_recorded (threadId : Nat) {cwd : String} (hcwd : IsIdentifier cwd)
    {cs : List Callback} (h : Legal cs) (hs : Sequential cs) (hc : ∀ c ∈ cs, c.Readable)
    (hn : cs.length ≤ intMax) : ∃ g, run threadId cwd cs = .ok g ∧
      (g.trace.execOps ≠ [] → g.trace.printedBlocks ≠ [] → RecordedTrace g.trace) := by
  obtain ⟨g, hg, hr⟩ := refines_run threadId cwd h
  exact ⟨g, hg, recordedTrace_run hcwd hs hc hn hg hr⟩

theorem sequential_sampleRun : Sequential sampleRun := by decide +kernel

theorem readable_sampleRun : ∀ c ∈ sampleRun, c.Readable := by
  have ha : IsIdentifier "/a" := by decide +kernel
  have hb : IsIdentifier "/b" := by decide +kernel
  simp [sampleRun, Callback.Readable, SysCall.Readable, IsInt, intMax, ha, hb]

/-- It has operations and blocks. -/
theorem recorded_sampleRun {g : TraceGenerator} (hg : run 1 "/" sampleRun = .ok g) :
    g.trace.execOps ≠ [] ∧ g.trace.printedBlocks ≠ [] := by
  have hall : (run 1 "/" sampleRun).toOption.all (fun g =>
      !g.trace.execOps.isEmpty && !g.trace.printedBlocks.isEmpty) = true := by decide +kernel
  rw [hg] at hall
  simpa [Except.toOption] using hall

/-- The trace of the sample run. -/
theorem run_recorded_sampleRun : ∃ g, run 1 "/" sampleRun = .ok g ∧ RecordedTrace g.trace := by
  have hcwd : IsIdentifier "/" := by decide +kernel
  obtain ⟨g, hg, hrec⟩ := run_recorded 1 hcwd legal_sampleRun sequential_sampleRun
    readable_sampleRun (by decide)
  obtain ⟨hops, hprinted⟩ := recorded_sampleRun hg
  exact ⟨g, hg, hrec hops hprinted⟩

/-! ## 6. The round trip -/

/-- The system calls that the parser reads back: the names "link" and "symlink" are keywords, and
    a descriptor is a number. -/
def SysCall.Kept : SysCall → Prop
  | .link .. | .symlink .. => False
  | .close fd => 0 ≤ fd
  | _ => True

/-- The callbacks whose operations are read back: a failed `open` comes back with -1. -/
def Callback.Kept : Callback → Prop
  | .sysCall _ call => call.Kept
  | .sysReturn _ _ retVal => retVal < 0 → retVal = -1
  | _ => True

theorem kept_operations {call : SysCall} (h : call.Readable) (hk : call.Kept) :
    ∀ op ∈ call.operations, op.RoundTrips := by
  intro op hop
  cases call with
  | link oldPath newPath => cases hk
  | symlink oldPath newPath => cases hk
  | close fd =>
      obtain rfl := List.mem_singleton.mp hop
      refine ⟨by simp [IsLinkName], ?_⟩
      have hfd : IsInt fd := h
      have hpos : 0 ≤ fd := hk
      unfold IsInt at hfd
      show (fd % 2 ^ 64).toNat ≤ intMax
      unfold intMax
      omega
  | rename oldPath newPath =>
      simp only [SysCall.operations, List.mem_cons, List.not_mem_nil, or_false] at hop
      rcases hop with rfl | rfl | rfl <;> exact ⟨by simp [IsLinkName], trivial⟩
  | _ =>
      obtain rfl := List.mem_singleton.mp hop
      exact ⟨by simp [IsLinkName], trivial⟩

theorem admits_roundTrips {cs : List Callback} (hc : ∀ c ∈ cs, c.Readable ∧ c.Kept) :
    Admits Operation.RoundTrips cs where
  calls t call h := kept_operations (hc _ h).1 (hc _ h).2
  opened t call path retVal _ _ hr := by
    refine ⟨by simp [IsLinkName], fun hf => ?_⟩
    exact (hc _ hr).2 (of_decide_eq_true hf)
  marked op h hkind := by
    obtain ⟨kind, failed, name⟩ := op
    cases kind with
    | newFd dirfd path fd => exact absurd rfl (hkind dirfd path fd)
    | _ => exact h

/-- Sentences have no tags that are not printed. -/
theorem Sentences.roundTrips {es : List Expr} (h : Sentences es) : ∀ e ∈ es, e.RoundTrips := by
  induction h with
  | nil => exact fun e he => (List.not_mem_nil he).elim
  | trigger x _ ih => simpa [or_imp, forall_and, Expr.RoundTrips] using ih
  | event e _ _ ih => simpa [or_imp, forall_and, Expr.RoundTrips] using ih
  | created x t _ ih => simpa [or_imp, forall_and, Expr.RoundTrips] using ih
  | submitted x t f _ ih => simpa [or_imp, forall_and, Expr.RoundTrips] using ih
  | sync n f _ ih => simpa [or_imp, forall_and, Expr.RoundTrips] using ih

/-- A trace with operations has a block that is printed: the one that submits. -/
theorem printed_of_execOps {threadId : Nat} {cwd : String} {cs : List Callback} (h : Legal cs)
    (hp : Prompt cs) {g : TraceGenerator} (hg : run threadId cwd cs = .ok g)
    (hne : g.trace.execOps ≠ []) : g.trace.printedBlocks ≠ [] := by
  obtain ⟨g₁, hg₁, hr⟩ := refines_run threadId cwd h
  cases hg.symm.trans hg₁
  have hops := (written_run h hp).ops
  rw [← hr.traceBlocks] at hops
  obtain ⟨e, he⟩ := List.exists_mem_of_ne_nil _ hne
  obtain ⟨request, hsub⟩ := execOps_submitted (hr.execOps ▸ he)
  have hid : e.id ∈ (submitOps cs).map (·.2.opId) :=
    submitOps_ids cs ▸ List.mem_map_of_mem (f := Prod.snd) hsub
  obtain ⟨op, hop, -⟩ := List.mem_map.mp hid
  rw [← hops] at hop
  obtain ⟨block, hblock, hop⟩ := List.mem_flatMap.mp hop
  have hexprs : block.exprs ≠ [] := fun hnil => by
    rw [placedOps, hnil] at hop
    cases hop
  refine List.ne_nil_of_mem (a := block) (List.mem_filter.mpr ⟨hblock, ?_⟩)
  simp [Block.isEmptyMain, hexprs]

/-- What is read back from the dump of a run's trace. -/
theorem parse_dump_run {threadId : Nat} (hid : threadId ≤ intMax) {cwd : String}
    (hcwd : IsIdentifier cwd) {cs : List Callback} (h : Legal cs) (hs : Sequential cs)
    (hp : Prompt cs) (hc : ∀ c ∈ cs, c.Readable ∧ c.Kept) (hn : cs.length ≤ intMax)
    {g : TraceGenerator} (hg : run threadId cwd cs = .ok g) (hne : g.trace.execOps ≠ []) :
    parse (dump g.trace) = .ok { g.trace with blocks := g.trace.printedBlocks } := by
  obtain ⟨g₁, hg₁, hr⟩ := refines_run threadId cwd h
  cases hg.symm.trans hg₁
  have hrec := recordedTrace_run hcwd hs (fun c hm => (hc c hm).1) hn hg hr
  have hsentences := (written_run h hp).sentences
  rw [← hr.traceBlocks] at hsentences
  have hprinted : g.trace.printedBlocks ≠ [] := printed_of_execOps h hp hg hne
  have hops : g.trace.execOps.mapM (readExecOp reparseOperation) = .ok g.trace.execOps := by
    rw [mapM_eq_self]
    simp only [readExecOp_eq_self, reparseOperation_eq_self]
    rw [hr.execOps]
    exact (recordedPool_run hs (admits_roundTrips hc)).operations
  have hblocks : g.trace.printedBlocks.map reparseBlock = g.trace.printedBlocks := by
    rw [map_eq_self]
    simp only [reparseBlock_eq_self, reparseExpr_eq_self]
    exact fun b hb => (hsentences b (mem_printedBlocks hb).1).roundTrips
  have hthread : g.trace.threadId = threadId := congrArg Prod.fst (header_run hg)
  rw [parse_dump (hrec hne hprinted), hops, ok_bind, if_pos (hthread ▸ hid), hblocks]

/-- **fsracer reads what the tracer recorded.** -/
theorem run_roundTrip {threadId : Nat} (hid : threadId ≤ intMax) {cwd : String}
    (hcwd : IsIdentifier cwd) {cs : List Callback} (h : Legal cs) (hs : Sequential cs)
    (hp : Prompt cs) (hc : ∀ c ∈ cs, c.Readable ∧ c.Kept) (hn : cs.length ≤ intMax) :
    ∃ g, run threadId cwd cs = .ok g ∧ (g.trace.execOps ≠ [] →
      parse (dump g.trace) = .ok { g.trace with blocks := g.trace.printedBlocks }) := by
  obtain ⟨g, hg, -⟩ := refines_run threadId cwd h
  exact ⟨g, hg, parse_dump_run hid hcwd h hs hp hc hn hg⟩

theorem kept_sampleRun : ∀ c ∈ sampleRun, c.Readable ∧ c.Kept := by
  intro c hc
  refine ⟨readable_sampleRun c hc, ?_⟩
  revert c
  simp [sampleRun, Callback.Kept, SysCall.Kept]

/-- The trace of the sample run comes back. -/
theorem run_roundTrip_sampleRun : ∃ g, run 1 "/" sampleRun = .ok g ∧
    parse (dump g.trace) = .ok { g.trace with blocks := g.trace.printedBlocks } := by
  have hid : 1 ≤ intMax := by decide
  have hcwd : IsIdentifier "/" := by decide +kernel
  obtain ⟨g, hg, hparse⟩ := run_roundTrip hid hcwd legal_sampleRun sequential_sampleRun
    prompt_sampleRun kept_sampleRun (by decide)
  exact ⟨g, hg, hparse (recorded_sampleRun hg).1⟩

end NodeGenerator

end Fsracer

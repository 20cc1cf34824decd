/-
  File:      Fsracer/Works.lean
  Subject:   THE THREADS OF THE TRACER ARE THE THREADS OF `UvFsWork`.

  `UvFsWork` follows one thread by its events, with a store of its own. `works` are these events
  in a run of the tracer: what the thread does alone, and the operations that its system calls
  record.

  * **`mirrors_run`** -- in every run, of any number of threads, the counter, the current `ExecOp`
    and the `ExecOp`s of a thread are those of `UvFsWork` for its events, but for the marks of
    failed operations, which `UvFsWork` does not set;
  * **`workCount_none_iff`** -- so the tracer forgets a thread that has left `uv__fs_work` as
    often as it entered exactly if none of its entries was nested.
-/
import Mathlib
import Fsracer.Threads

namespace Fsracer

/-- An operation without the mark that it failed. -/
def Operation.unmarked (op : Operation) : Operation := { op with failed := false }

/-- An `ExecOp` without marks. -/
def ExecOp.unmarked (e : ExecOp) : ExecOp :=
  { e with operations := e.operations.map Operation.unmarked }

namespace NodeGenerator

open Owners (part)
open UvFsWork (countKey threadKey opKey)

/-! ## 1. The events of a thread -/

/-- What an event of the pool is in `UvFsWork`. -/
def Pool.workEvents (p : Pool) : PoolEvent → List UvFsWork.Event
  | .submit request id => [.submit (ptrToString request) id]
  | .start _ request => [.enter (ptrToString request)]
  | .leave _ => [.exit]
  | .sysCall _ call => call.operations.map .call
  | .sysReturn thread call retVal =>
      if call.opens.isSome then
        ((p.worker thread).opening.map fun path =>
          .call ⟨.newFd atFdcwd path retVal, decide (retVal < 0), "open"⟩).toList
      else []

/-- **What a thread does**, in the events of `UvFsWork`. -/
def works (t : Nat) (es : List PoolEvent) : List UvFsWork.Event :=
  Machine.outputs Pool.step Pool.workEvents .init (alone t es)

/-- The events of a thread alone are its own, and submissions. -/
theorem thread_of_mem_alone {t : Nat} {es : List PoolEvent} {e : PoolEvent} (he : e ∈ alone t es) :
    e.thread = none ∨ e.thread = some t := by
  obtain ⟨as, e', -, he⟩ := Machine.mem_outputs.mp he
  generalize as.foldl Pool.step .init = p at he
  have hown : ∀ {u : Nat} {xs : List PoolEvent}, (∀ x ∈ xs, x.thread = none ∨ x.thread = some u) →
      e ∈ (if u = t then xs else []) → e.thread = none ∨ e.thread = some t := by
    intro u xs hxs he
    by_cases hut : u = t
    · rw [if_pos hut] at he
      exact hut ▸ hxs e he
    · rw [if_neg hut] at he
      cases he
  cases e' with
  | submit request id => cases he
  | start thread request =>
      refine hown (fun x hx => ?_) he
      rcases List.mem_append.mp hx with hx | hx
      · obtain ⟨id, -, rfl⟩ := Option.map_eq_some_iff.mp (Option.mem_toList.mp hx)
        exact .inl rfl
      · rw [List.mem_singleton.mp hx]
        exact .inr rfl
  | leave thread => exact hown (by simp [PoolEvent.thread]) he
  | sysCall thread call => exact hown (by simp [PoolEvent.thread]) he
  | sysReturn thread call retVal => exact hown (by simp [PoolEvent.thread]) he

/-! ## 2. One event -/

/-- The pool `q`, in which only thread `t` works, is the state `u` of `UvFsWork`. -/
structure Works (t : Nat) (q : Pool) (u : UvFsWork.TraceGenerator) : Prop where
  count : UvFsWork.workCount u t = (q.worker t).workCount.map .workCount
  current : UvFsWork.getExecOp u t = (q.worker t).current.map .execOp
  pending : ∀ request,
    u.getStoreValue (opKey (ptrToString request)) = (q.pending request).map .opId
  execOps : u.execOps.map ExecOp.unmarked = q.execOps.map ExecOp.unmarked

theorem works_init (t : Nat) : Works t .init ⟨∅, []⟩ where
  count := rfl
  current := rfl
  pending _ := rfl
  execOps := rfl

theorem opKey_ptrToString_inj {p q : Nat} :
    opKey (ptrToString p) = opKey (ptrToString q) ↔ p = q :=
  ⟨fun h => ptrToString_inj ((String.append_right_inj _).mp h), fun h => h ▸ rfl⟩

/-- A change of one element, read through a function. -/
theorem map_modify {α β : Type} {f : α → α} {g : β → β} {k : α → β}
    (h : ∀ x, k (f x) = g (k x)) (xs : List α) (i : Nat) :
    (xs.modify i f).map k = (xs.map k).modify i g := by
  induction xs generalizing i with
  | nil => simp
  | cons x xs ih =>
      cases i with
      | zero => simp [h]
      | succ i => simp [ih]

section Steps

variable {t : Nat} {q : Pool} {u : UvFsWork.TraceGenerator}

theorem Works.submit (h : Works t q u) (request : Nat) (id : String) :
    Works t (q.submit request id) (UvFsWork.addSubmitOp u (ptrToString request) id) where
  count := UvFsWork.workCount_submit.trans h.count
  current := UvFsWork.getExecOp_submit.trans h.current
  pending r := by
    show _ = (Function.update q.pending request (some id) r).map _
    unfold UvFsWork.addSubmitOp
    rw [UvFsWork.TraceGenerator.getStoreValue_addToStore, Function.update_apply, h.pending]
    simp only [opKey_ptrToString_inj, eq_comm (a := r)]
    split <;> rfl
  execOps := h.execOps

/-- What an entry takes is gone, and the rest stays submitted. -/
theorem pending_enter (request r : Nat) :
    (UvFsWork.wrapPreUvFsWork u t (ptrToString request)).getStoreValue (opKey (ptrToString r)) =
      if request = r then none else u.getStoreValue (opKey (ptrToString r)) := by
  have hcount : (UvFsWork.countEntry u t).getStoreValue (opKey (ptrToString r)) =
      u.getStoreValue (opKey (ptrToString r)) :=
    UvFsWork.getStoreValue_countEntry (UvFsWork.opKey_ne_countKey _ t).symm
  have hdelete : ((UvFsWork.countEntry u t).deleteFromStore
      (opKey (ptrToString request))).getStoreValue (opKey (ptrToString r)) =
        if request = r then none else u.getStoreValue (opKey (ptrToString r)) := by
    rw [UvFsWork.TraceGenerator.getStoreValue_deleteFromStore, hcount]
    simp only [opKey_ptrToString_inj]
  rw [UvFsWork.wrapPreUvFsWork_eq]
  split
  · exact (UvFsWork.TraceGenerator.getStoreValue_addToStore.trans
      (if_neg (UvFsWork.opKey_ne_threadKey _ t).symm)).trans hdelete
  · exact hdelete

theorem Works.enter (h : Works t q u) (request : Nat) :
    Works t (q.start t request) (UvFsWork.wrapPreUvFsWork u t (ptrToString request)) := by
  have hcount : UvFsWork.workCount (UvFsWork.wrapPreUvFsWork u t (ptrToString request)) t =
      some (.workCount ((q.worker t).workCount.getD 0 + 1)) := by
    rw [UvFsWork.workCount_enter, UvFsWork.workCount_countEntry, h.count]
    cases (q.worker t).workCount <;> rfl
  have hcreated : UvFsWork.created u (ptrToString request) =
      (q.pending request).map fun _ => .execOp q.execOps.length := by
    have hlen : u.execOps.length = q.execOps.length := by simpa using congrArg List.length h.execOps
    unfold UvFsWork.created
    rw [h.pending, hlen]
    cases q.pending request <;> rfl
  have hcurrent : UvFsWork.getExecOp (UvFsWork.wrapPreUvFsWork u t (ptrToString request)) t = _ :=
    UvFsWork.getExecOp_enter
  have hpending := pending_enter (t := t) (u := u) request
  rw [hcreated, h.current] at hcurrent
  cases hq : q.pending request with
  | none =>
      have hexec : (UvFsWork.wrapPreUvFsWork u t (ptrToString request)).execOps = u.execOps := by
        rw [UvFsWork.wrapPreUvFsWork_eq, h.pending, hq]
        exact UvFsWork.TraceGenerator.execOps_popFromStore.trans UvFsWork.execOps_countEntry
      rw [hq] at hcurrent
      rw [Pool.start_none hq]
      refine ⟨by simpa using hcount, by simpa using hcurrent, fun r => ?_, hexec ▸ h.execOps⟩
      show _ = (q.pending r).map _
      rw [hpending, h.pending]
      split
      · rename_i hr
        rw [← hr, hq]
        rfl
      · rfl
  | some id =>
      have hexec : (UvFsWork.wrapPreUvFsWork u t (ptrToString request)).execOps =
          u.execOps ++ [⟨id, []⟩] := by
        rw [UvFsWork.wrapPreUvFsWork_eq, h.pending, hq]
        rfl
      rw [hq] at hcurrent
      rw [Pool.start_some hq]
      refine ⟨?_, ?_, fun r => ?_, ?_⟩
      · show _ = ((q.setWorker t _).worker t).workCount.map _
        rw [worker_setWorker_self]
        exact hcount
      · show _ = ((q.setWorker t _).worker t).current.map _
        rw [worker_setWorker_self]
        exact hcurrent
      · show _ = (Function.update q.pending request none r).map _
        rw [hpending, h.pending, Function.update_apply]
        simp only [eq_comm (a := r)]
        split <;> rfl
      · show _ = (q.execOps ++ [(⟨id, []⟩ : ExecOp)]).map _
        rw [hexec, List.map_append, List.map_append, h.execOps]

/-- An exit touches the two keys of the thread, and nothing else. -/
theorem rest_exit : (∀ r, (UvFsWork.wrapPostUvFsWork u t).getStoreValue (opKey (ptrToString r)) =
    u.getStoreValue (opKey (ptrToString r))) ∧
      (UvFsWork.wrapPostUvFsWork u t).execOps = u.execOps := by
  unfold UvFsWork.wrapPostUvFsWork
  split
  · split
    · refine ⟨fun r => ?_, ?_⟩
      · rw [UvFsWork.TraceGenerator.getStoreValue_deleteFromStore,
          if_neg (UvFsWork.opKey_ne_threadKey _ t).symm,
          UvFsWork.TraceGenerator.getStoreValue_deleteFromStore,
          if_neg (UvFsWork.opKey_ne_countKey _ t).symm]
      · exact UvFsWork.TraceGenerator.execOps_popFromStore.trans
          UvFsWork.TraceGenerator.execOps_popFromStore
    · exact ⟨fun _ => rfl, rfl⟩
  · exact ⟨fun _ => rfl, rfl⟩

theorem Works.exit (h : Works t q u) : Works t (q.leave t) (UvFsWork.wrapPostUvFsWork u t) := by
  obtain ⟨hpending, hexec⟩ := rest_exit (t := t) (u := u)
  have hcount := h.count
  unfold Pool.leave
  dsimp only
  cases hw : (q.worker t).workCount with
  | none =>
      rw [hw] at hcount
      dsimp only
      rw [UvFsWork.exit_keeps (by rw [hcount]; intro n hn; cases hn)]
      exact h
  | some n =>
      rw [hw] at hcount
      dsimp only
      by_cases hn : n ≤ 1
      · obtain ⟨hc, hx⟩ := UvFsWork.exit_clears hcount hn
        rw [if_pos hn]
        exact ⟨by simpa using hc, by simpa using hx, fun r => (hpending r).trans (h.pending r),
          hexec ▸ h.execOps⟩
      · rw [if_neg hn, UvFsWork.exit_keeps (fun m hm => by rw [hcount] at hm; cases hm; omega)]
        exact h

/-- A change that only `UvFsWork` does not see. -/
theorem Works.mark (h : Works t q u) {f : ExecOp → ExecOp}
    (hf : ∀ e, (f e).unmarked = e.unmarked) : Works t (q.edit t f) u := by
  have hworker := worker_edit q t f
  have hrest : (q.edit t f).pending = q.pending ∧
      (q.edit t f).execOps.map ExecOp.unmarked = q.execOps.map ExecOp.unmarked := by
    cases hi : (q.worker t).current with
    | none => rw [edit_none hi]; exact ⟨rfl, rfl⟩
    | some i =>
        rw [edit_some hi]
        refine ⟨rfl, (map_modify (g := id) hf q.execOps i).trans ?_⟩
        simp
  exact ⟨hworker ▸ h.count, hworker ▸ h.current, hrest.1 ▸ h.pending, hrest.2 ▸ h.execOps⟩

theorem unmarked_markLast (e : ExecOp) :
    e.markLastOperationFailed.unmarked = e.unmarked := by
  have hmark : ∀ op : Operation, op.markFailed.unmarked = id op.unmarked :=
    fun _ => rfl
  unfold ExecOp.unmarked ExecOp.markLastOperationFailed
  dsimp only
  rw [map_modify hmark, List.modify_id]

/-- One operation. -/
theorem Works.call (h : Works t q u) (op : Operation) :
    Works t (q.record t [op]) (UvFsWork.addOperation u t op) := by
  have hstore : ∀ key, (UvFsWork.addOperation u t op).getStoreValue key = u.getStoreValue key :=
    UvFsWork.getStoreValue_addOperation
  have hworker : (q.record t [op]).worker = q.worker := worker_edit q t _
  have hpending : (q.record t [op]).pending = q.pending := by
    unfold Pool.record Pool.edit
    split <;> rfl
  refine ⟨(hstore _).trans (hworker ▸ h.count), (hstore _).trans (hworker ▸ h.current),
    fun r => (hstore _).trans (hpending ▸ h.pending r), ?_⟩
  have hcurrent := h.current
  unfold UvFsWork.addOperation Pool.record
  cases hi : (q.worker t).current with
  | none =>
      rw [hi] at hcurrent
      rw [hcurrent, edit_none hi]
      exact h.execOps
  | some i =>
      rw [hi] at hcurrent
      rw [hcurrent, edit_some hi]
      show (u.execOps.modify i _).map _ = (q.execOps.modify i _).map _
      let add : ExecOp → ExecOp := fun e =>
        { e with operations := e.operations ++ [op.unmarked] }
      have hadd : ∀ e : ExecOp, ExecOp.unmarked { e with operations := e.operations ++ [op] } =
          add e.unmarked := fun e => by simp [ExecOp.unmarked, add]
      rw [map_modify hadd, map_modify hadd, h.execOps]

/-- The operations of a call, one after the other. -/
theorem Works.calls (h : Works t q u) (ops : List Operation) :
    Works t (q.record t ops) ((ops.map UvFsWork.Event.call).foldl (UvFsWork.step t) u) := by
  induction ops using List.reverseRecOn with
  | nil => exact h.mark fun e => by simp [ExecOp.unmarked]
  | append_singleton ops op ih =>
      have hedit : q.record t (ops ++ [op]) = (q.record t ops).record t [op] := by
        unfold Pool.record
        rw [edit_edit]
        congr 1
        funext e
        simp
      rw [hedit, List.map_append, List.foldl_append]
      exact ih.call op

/-- The path that the thread opens is not in `UvFsWork`. -/
theorem Works.opening (h : Works t q u) (path : Option String) :
    Works t (q.setWorker t { q.worker t with opening := path }) u :=
  ⟨by simpa using h.count, by simpa using h.current, h.pending, h.execOps⟩

/-- **One event** of the thread. -/
theorem Works.step (h : Works t q u) {e : PoolEvent} (he : e.thread = none ∨ e.thread = some t) :
    Works t (q.step e) ((q.workEvents e).foldl (UvFsWork.step t) u) := by
  have hthread : ∀ {thread : Nat}, some thread = none ∨ some thread = some t → thread = t := by
    intro thread ht
    exact Option.some.inj (ht.resolve_left (by simp))
  cases e with
  | submit request id => exact h.submit request id
  | start thread request =>
      obtain rfl := hthread he
      exact h.enter request
  | leave thread =>
      obtain rfl := hthread he
      exact h.exit
  | sysCall thread call =>
      obtain rfl := hthread he
      show Works thread (q.sysCall thread call) ((call.operations.map _).foldl _ u)
      unfold Pool.sysCall
      cases call.opens with
      | none => exact h.calls call.operations
      | some path => exact (h.calls call.operations).opening (some path)
  | sysReturn thread call retVal =>
      obtain rfl := hthread he
      show Works thread (q.sysReturn thread call retVal) _
      unfold Pool.sysReturn Pool.workEvents
      dsimp only
      by_cases ho : call.opens.isSome = true
      · rw [if_pos ho, if_pos ho]
        cases (q.worker thread).opening with
        | none => exact h
        | some path => exact (h.opening none).calls [_]
      · rw [if_neg ho, if_neg ho]
        split
        · exact h.mark unmarked_markLast
        · exact h

end Steps

/-! ## 3. Runs -/

theorem works_run (t : Nat) (es : List PoolEvent) :
    Works t ((alone t es).foldl Pool.step .init) (UvFsWork.run t (works t es)) := by
  have hrun : ∀ as, (∀ e ∈ as, e.thread = none ∨ e.thread = some t) →
      Works t (as.foldl Pool.step .init)
        (UvFsWork.run t (Machine.outputs Pool.step Pool.workEvents .init as)) := by
    intro as has
    induction as using List.reverseRecOn with
    | nil => exact works_init t
    | append_singleton as e ih =>
        have ih := ih fun x hx => has x (List.mem_append_left _ hx)
        unfold UvFsWork.run at ih ⊢
        rw [List.foldl_concat, Machine.outputs_snoc, List.foldl_append]
        exact ih.step (has e (by simp))
  exact hrun _ fun e he => thread_of_mem_alone he

/-- Thread `t` of the tracer is in the state `u` of `UvFsWork`; `owners` are the threads of the
    `ExecOp`s, among which `UvFsWork` counts those of `t`. -/
structure Mirrors (t : Nat) (g : TraceGenerator) (owners : List Nat)
    (u : UvFsWork.TraceGenerator) : Prop where
  count : ∃ n : Option Nat, g.getStoreValue (countKey t) = n.map .workCount ∧
    UvFsWork.workCount u t = n.map .workCount
  current : ∃ i : Option Nat, g.getStoreValue (threadKey t) = i.map .execOp ∧
    UvFsWork.getExecOp u t = (i.map fun i => (owners.take i).count t).map .execOp
  execOps : u.execOps.map ExecOp.unmarked =
    (part t owners g.trace.execOps).map ExecOp.unmarked

/-- **The threads of the tracer are the threads of `UvFsWork`.** -/
theorem mirrors_run (threadId : Nat) (cwd : String) {cs : List Callback} (h : Legal cs) :
    ∃ g, run threadId cwd cs = .ok g ∧ ∀ t, Mirrors t g (starters (poolEvents cs))
      (UvFsWork.run t (works t (poolEvents cs))) := by
  obtain ⟨g, hg, hr⟩ := refines_run threadId cwd h
  refine ⟨g, hg, fun t => ?_⟩
  have hpool := pool_run cs
  have hsame := sameFor_run t (poolEvents cs)
  have hworks := works_run t (poolEvents cs)
  rw [← hpool] at hsame
  refine ⟨⟨((System.run cs).pool.worker t).workCount, hr.store (.workCount t), ?_⟩,
    ⟨((System.run cs).pool.worker t).current, hr.store (.current t), ?_⟩, ?_⟩
  · rw [hworks.count, hsame.workCount]
  · rw [hworks.current, hsame.current]
  · rw [hworks.execOps, hsame.execOps, hr.execOps]

/-- **When the tracer forgets a thread** that has left `uv__fs_work` as often as it entered. -/
theorem workCount_none_iff (threadId : Nat) (cwd : String) {cs : List Callback} (h : Legal cs)
    {t : Nat} (hw : UvFsWork.WellNested (works t (poolEvents cs))) :
    ∃ g, run threadId cwd cs = .ok g ∧ (g.getStoreValue (countKey t) = none ↔
      UvFsWork.NoNesting (works t (poolEvents cs))) := by
  obtain ⟨g, hg, hm⟩ := mirrors_run threadId cwd h
  refine ⟨g, hg, ?_⟩
  obtain ⟨n, hn, hu⟩ := (hm t).count
  have hnone : g.getStoreValue (countKey t) = none ↔
      UvFsWork.workCount (UvFsWork.run t (works t (poolEvents cs))) t = none := by
    rw [hn, hu]
    cases n <;> simp
  rw [hnone]
  refine ⟨fun hidle p addr hp => ?_, fun hes => ?_⟩
  · by_contra hd
    obtain ⟨r, hr⟩ := hp
    obtain ⟨m, hm, -⟩ := UvFsWork.workCount_stuck
      (UvFsWork.workCount_nested t (Nat.pos_of_ne_zero hd) addr) r
    rw [hr, hidle] at hm
    cases hm
  · exact ((UvFsWork.flat_of_noNesting t hw hes (List.prefix_refl _)).idle hw.closed).1

end NodeGenerator

end Fsracer

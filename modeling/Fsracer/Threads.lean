/-
  File:      Fsracer/Threads.lean
  Subject:   A THREAD RECORDS AS IF IT WERE ALONE.

  Every `ExecOp` of a trace belongs to the thread that entered `uv__fs_work` for it; `starters`
  names them in the order of the trace. `alone t` is what thread `t` does, each of its entries
  with the submission that it found.

  * **`part_run`** -- for every interleaving of any number of threads, with any nesting of
    `uv__fs_work`, the `ExecOp`s of a thread are those that it records alone;
  * **`threads_alone`** -- so it is in a run of the tracer;
  * **`interleaving`** -- two interleavings of the same threads record the same blocks, and the
    same `ExecOp`s up to their order.
-/
import Mathlib
import Fsracer.TracerRuns
import Fsracer.Lib.Owners

namespace Fsracer

namespace NodeGenerator

open Owners (part)

/-! ## 1. What belongs to a thread -/

/-- The thread to which an event gives a new `ExecOp`. -/
def Pool.starter (p : Pool) : PoolEvent → List Nat
  | .start thread request => if (p.pending request).isSome then [thread] else []
  | _ => []

/-- The threads of the `ExecOp`s. -/
def starters (es : List PoolEvent) : List Nat := Machine.outputs Pool.step Pool.starter .init es

/-- What an event is for one thread. -/
def Pool.aloneEvents (t : Nat) (p : Pool) : PoolEvent → List PoolEvent
  | .submit .. => []
  | .start thread request =>
      if thread = t then
        ((p.pending request).map (PoolEvent.submit request)).toList ++ [.start thread request]
      else []
  | .leave thread => if thread = t then [.leave thread] else []
  | .sysCall thread call => if thread = t then [.sysCall thread call] else []
  | .sysReturn thread call retVal => if thread = t then [.sysReturn thread call retVal] else []

/-- **What a thread does.** -/
def alone (t : Nat) (es : List PoolEvent) : List PoolEvent :=
  Machine.outputs Pool.step (Pool.aloneEvents t) .init es

/-- The thread of an event; a submission has none. -/
def PoolEvent.thread : PoolEvent → Option Nat
  | .submit .. => none
  | .start t _ | .leave t | .sysCall t _ | .sysReturn t .. => some t

/-- A thread without events does nothing. -/
theorem alone_eq_nil {t : Nat} {es : List PoolEvent} (h : ∀ e ∈ es, e.thread ≠ some t) :
    alone t es = [] := by
  refine List.eq_nil_iff_forall_not_mem.mpr fun x hx => ?_
  obtain ⟨as, e, hp, hx⟩ := Machine.mem_outputs.mp hx
  have ht := h e (hp.subset (List.mem_append_right _ (List.mem_singleton_self e)))
  cases e with
  | submit request id => cases hx
  | _ =>
      unfold Pool.aloneEvents at hx
      dsimp only at hx
      rw [if_neg fun he => ht (congrArg some he)] at hx
      cases hx

/-! ## 2. The correspondence -/

/-- The pool `p`, whose `ExecOp`s belong to `owners`, is for thread `t` the pool `q`. -/
structure SameFor (t : Nat) (p : Pool) (owners : List Nat) (q : Pool) : Prop where
  length : owners.length = p.execOps.length
  owned : ∀ u i, (p.worker u).current = some i → owners[i]? = some u
  empty : q.pending = fun _ => none
  execOps : q.execOps = part t owners p.execOps
  workCount : (q.worker t).workCount = (p.worker t).workCount
  opening : (q.worker t).opening = (p.worker t).opening
  current : (q.worker t).current = (p.worker t).current.map fun i => (owners.take i).count t

theorem sameFor_init (t : Nat) : SameFor t .init [] .init where
  length := rfl
  owned _ _ h := by cases h
  empty := rfl
  execOps := rfl
  workCount := rfl
  opening := rfl
  current := rfl

section Steps

variable {t : Nat} {p q : Pool} {owners : List Nat}

/-- A new state of a thread that keeps its `ExecOp` or gives it up. -/
theorem SameFor.setWorker (h : SameFor t p owners q) (u : Nat) {w : Worker}
    (hw : w.current = (p.worker u).current ∨ w.current = none) {v : Worker}
    (hsame : u = t → v.workCount = w.workCount ∧ v.opening = w.opening ∧
      v.current = w.current.map fun i => (owners.take i).count t) :
    SameFor t (p.setWorker u w) owners (if u = t then q.setWorker t v else q) := by
  have howned : ∀ x i, ((p.setWorker u w).worker x).current = some i → owners[i]? = some x := by
    intro x i hi
    rw [worker_setWorker] at hi
    by_cases hux : u = x
    · rw [if_pos hux] at hi
      rcases hw with hw | hw
      · exact h.owned x i (hux ▸ hw ▸ hi)
      · rw [hw] at hi
        cases hi
    · rw [if_neg hux] at hi
      exact h.owned x i hi
  by_cases hut : u = t
  · rw [if_pos hut]
    obtain ⟨h1, h2, h3⟩ := hsame hut
    subst hut
    exact ⟨h.length, howned, h.empty, h.execOps, by simpa using h1, by simpa using h2,
      by simpa using h3⟩
  · rw [if_neg hut]
    have hwt : (p.setWorker u w).worker t = p.worker t := by rw [worker_setWorker, if_neg hut]
    exact ⟨h.length, howned, h.empty, h.execOps, by rw [hwt]; exact h.workCount,
      by rw [hwt]; exact h.opening, by rw [hwt]; exact h.current⟩

/-- A change of the `ExecOp` of a thread. -/
theorem SameFor.edit (h : SameFor t p owners q) (u : Nat) (f : ExecOp → ExecOp) :
    SameFor t (p.edit u f) owners (if u = t then q.edit t f else q) := by
  cases hi : (p.worker u).current with
  | none =>
      have hq : u = t → q.edit t f = q := by
        intro hut
        refine edit_none ?_ f
        rw [h.current, ← hut, hi]
        rfl
      rw [edit_none hi]
      split
      · rename_i hut
        rw [hq hut]
        exact h
      · exact h
  | some i =>
      have howner := h.owned u i hi
      have hp : (p.edit u f).execOps = p.execOps.modify i f := by rw [edit_some hi]
      have hlen : owners.length = (p.edit u f).execOps.length := by
        rw [hp, List.length_modify]
        exact h.length
      have hworker := worker_edit p u f
      by_cases hut : u = t
      · subst hut
        have hcur : (q.worker u).current = some ((owners.take i).count u) := by
          rw [h.current, hi]
          rfl
        rw [if_pos rfl]
        refine ⟨hlen, by rw [hworker]; exact h.owned, ?_, ?_, ?_, ?_, ?_⟩
        · rw [edit_some hcur]
          exact h.empty
        · rw [edit_some hcur, hp, Owners.part_modify_self howner h.length, ← h.execOps]
        · rw [worker_edit, hworker]
          exact h.workCount
        · rw [worker_edit, hworker]
          exact h.opening
        · rw [worker_edit, hworker]
          exact h.current
      · rw [if_neg hut]
        refine ⟨hlen, by rw [hworker]; exact h.owned, h.empty, ?_, ?_, ?_, ?_⟩
        · rw [hp, Owners.part_modify_other howner hut]
          exact h.execOps
        · rw [hworker]
          exact h.workCount
        · rw [hworker]
          exact h.opening
        · rw [hworker]
          exact h.current

/-- An entry that finds nothing. -/
theorem SameFor.start_none (h : SameFor t p owners q) (u request : Nat)
    (hp : p.pending request = none) :
    SameFor t (p.start u request) owners (if u = t then q.start t request else q) := by
  have hq : q.pending request = none := by rw [h.empty]
  rw [Pool.start_none hp, Pool.start_none hq]
  refine h.setWorker u (w := { p.worker u with
      workCount := some ((p.worker u).workCount.getD 0 + 1) }) (.inl rfl) fun hut => ⟨?_, ?_, ?_⟩
  · rw [h.workCount, hut]
  · show (q.worker t).opening = (p.worker u).opening
    rw [h.opening, hut]
  · show (q.worker t).current = (p.worker u).current.map _
    rw [h.current, hut]

/-- An entry that takes a submitted operation. -/
theorem SameFor.start_some (h : SameFor t p owners q) (u request : Nat) {id : String}
    (hp : p.pending request = some id) :
    SameFor t (p.start u request) (owners ++ [u])
      (if u = t then (q.submit request id).start t request else q) := by
  have hq : (q.submit request id).pending request = some id := Function.update_self ..
  have hempty : Function.update (q.submit request id).pending request none = fun _ => none := by
    funext r
    show Function.update (Function.update q.pending request (some id)) request none r = none
    rw [Function.update_idem, h.empty]
    by_cases hr : r = request
    · rw [hr, Function.update_self]
    · rw [Function.update_of_ne hr]
  have hlen : (owners ++ [u]).length = (p.execOps ++ [(⟨id, []⟩ : ExecOp)]).length := by
    simp [h.length]
  have hlast : (owners ++ [u])[p.execOps.length]? = some u := by simp [← h.length]
  have hold : ∀ v i, owners[i]? = some v → (owners ++ [u])[i]? = some v ∧
      (owners ++ [u]).take i = owners.take i := by
    intro v i hi
    have hlt : i < owners.length := (List.getElem?_eq_some_iff.mp hi).1
    exact ⟨by rw [List.getElem?_append_left hlt, hi], List.take_append_of_le_length hlt.le⟩
  have howned : ∀ v i, ((p.start u request).worker v).current = some i →
      (owners ++ [u])[i]? = some v := by
    intro v i hi
    rw [Pool.start_some hp] at hi
    rw [show _ = if u = v then _ else p.worker v from worker_setWorker _ _ _ _] at hi
    by_cases huv : u = v
    · rw [if_pos huv] at hi
      cases hi
      rw [hlast, huv]
    · rw [if_neg huv] at hi
      exact (hold v i (h.owned v i hi)).1
  by_cases hut : u = t
  · subst hut
    rw [if_pos rfl]
    rw [Pool.start_some hp] at howned ⊢
    rw [Pool.start_some hq]
    refine ⟨hlen, howned, hempty, ?_, ?_, ?_, ?_⟩
    · show q.execOps ++ _ = part u (owners ++ [u]) (p.execOps ++ _)
      rw [Owners.part_snoc h.length, if_pos rfl, h.execOps]
    · show (((q.submit request id).setWorker u _).worker u).workCount =
        ((p.setWorker u _).worker u).workCount
      rw [worker_setWorker_self, worker_setWorker_self]
      show some ((q.worker u).workCount.getD 0 + 1) = _
      rw [h.workCount]
    · show (((q.submit request id).setWorker u _).worker u).opening =
        ((p.setWorker u _).worker u).opening
      rw [worker_setWorker_self, worker_setWorker_self]
      exact h.opening
    · show (((q.submit request id).setWorker u _).worker u).current =
        ((p.setWorker u _).worker u).current.map _
      rw [worker_setWorker_self, worker_setWorker_self]
      show some q.execOps.length = some (((owners ++ [u]).take p.execOps.length).count u)
      rw [h.execOps, Owners.length_part h.length, ← h.length, List.take_left]
  · rw [if_neg hut]
    rw [Pool.start_some hp] at howned ⊢
    have hwt : ∀ w : Worker, (p.setWorker u w).worker t = p.worker t := fun w => by
      rw [worker_setWorker, if_neg hut]
    refine ⟨hlen, howned, h.empty, ?_, ?_, ?_, ?_⟩
    · show q.execOps = part t (owners ++ [u]) (p.execOps ++ _)
      rw [Owners.part_snoc h.length, if_neg hut, h.execOps]
    · show _ = ((p.setWorker u _).worker t).workCount
      rw [hwt]
      exact h.workCount
    · show _ = ((p.setWorker u _).worker t).opening
      rw [hwt]
      exact h.opening
    · show _ = ((p.setWorker u _).worker t).current.map _
      rw [hwt, h.current]
      cases hi : (p.worker t).current with
      | none => rfl
      | some i =>
          dsimp only [Option.map_some]
          rw [(hold t i (h.owned t i hi)).2]

/-- An exit. -/
theorem SameFor.leave (h : SameFor t p owners q) (u : Nat) :
    SameFor t (p.leave u) owners (if u = t then q.leave t else q) := by
  have hq : u = t → q.leave t = if (p.worker u).workCount.any (· ≤ 1) then
      q.setWorker t ⟨none, none, (q.worker t).opening⟩ else q := by
    intro hut
    unfold Pool.leave
    dsimp only
    rw [h.workCount, hut]
    cases (p.worker t).workCount with
    | none => rfl
    | some n => simp
  have hp : p.leave u = if (p.worker u).workCount.any (· ≤ 1) then
      p.setWorker u ⟨none, none, (p.worker u).opening⟩ else p := by
    unfold Pool.leave
    dsimp only
    cases (p.worker u).workCount with
    | none => rfl
    | some n => simp
  rw [hp]
  by_cases hc : (p.worker u).workCount.any (· ≤ 1) = true
  · rw [if_pos hc]
    have hs := h.setWorker u (w := ⟨none, none, (p.worker u).opening⟩) (.inr rfl)
      (v := ⟨none, none, (q.worker t).opening⟩) fun hut => ⟨rfl, by rw [hut]; exact h.opening, rfl⟩
    by_cases hut : u = t
    · rw [if_pos hut, hq hut, if_pos hc]
      rwa [if_pos hut] at hs
    · rw [if_neg hut] at hs ⊢
      exact hs
  · rw [if_neg hc]
    by_cases hut : u = t
    · rw [if_pos hut, hq hut, if_neg hc]
      exact h
    · rw [if_neg hut]
      exact h

/-- The path that a thread opens, or none. -/
theorem SameFor.setOpening (h : SameFor t p owners q) (u : Nat) (path : Option String) :
    SameFor t (p.setWorker u { p.worker u with opening := path }) owners
      (if u = t then q.setWorker t { q.worker t with opening := path } else q) := by
  refine h.setWorker u (w := { p.worker u with opening := path }) (.inl rfl)
    fun hut => ⟨?_, rfl, ?_⟩
  · show (q.worker t).workCount = (p.worker u).workCount
    rw [h.workCount, hut]
  · show (q.worker t).current = (p.worker u).current.map _
    rw [h.current, hut]

/-- A system call. -/
theorem SameFor.sysCall (h : SameFor t p owners q) (u : Nat) (call : SysCall) :
    SameFor t (p.sysCall u call) owners (if u = t then q.sysCall t call else q) := by
  have hrecord := h.edit u fun e => { e with operations := e.operations ++ call.operations }
  unfold Pool.sysCall
  cases hc : call.opens with
  | none =>
      dsimp only
      exact hrecord
  | some path =>
      have hs := hrecord.setOpening u (some path)
      dsimp only
      by_cases hut : u = t
      · simp only [if_pos hut] at hs ⊢
        exact hs
      · simp only [if_neg hut] at hs ⊢
        exact hs

/-- The return of a system call. -/
theorem SameFor.sysReturn (h : SameFor t p owners q) (u : Nat) (call : SysCall) (retVal : Int) :
    SameFor t (p.sysReturn u call retVal) owners
      (if u = t then q.sysReturn t call retVal else q) := by
  unfold Pool.sysReturn
  by_cases hc : call.opens.isSome = true
  · rw [if_pos hc, if_pos hc]
    cases hp : (p.worker u).opening with
    | none =>
        dsimp only
        by_cases hut : u = t
        · have hq : (q.worker t).opening = none := by rw [h.opening, ← hut, hp]
          rw [if_pos hut, hq]
          exact h
        · rw [if_neg hut]
          exact h
    | some path =>
        have hs := (h.setOpening u none).edit u fun e => { e with
          operations :=
            e.operations ++ [⟨.newFd atFdcwd path retVal, decide (retVal < 0), "open"⟩] }
        dsimp only
        by_cases hut : u = t
        · have hq : (q.worker t).opening = some path := by rw [h.opening, ← hut, hp]
          rw [if_pos hut, if_pos hut] at hs
          rw [if_pos hut, hq]
          exact hs
        · rw [if_neg hut, if_neg hut] at hs
          rw [if_neg hut]
          exact hs
  · rw [if_neg hc, if_neg hc]
    by_cases hm : call.hasStatus = true ∧ retVal < 0
    · rw [if_pos hm, if_pos hm]
      exact h.edit u ExecOp.markLastOperationFailed
    · rw [if_neg hm, if_neg hm]
      rw [ite_self]
      exact h

/-- **One event** is for a thread what it is for the thread alone. -/
theorem SameFor.step (h : SameFor t p owners q) (e : PoolEvent) :
    SameFor t (p.step e) (owners ++ p.starter e) ((p.aloneEvents t e).foldl Pool.step q) := by
  have hsingle : ∀ {u : Nat} {e : PoolEvent} {p' q' : Pool},
      SameFor t p' owners (if u = t then q' else q) → (u = t → q.step e = q') →
      SameFor t p' (owners ++ []) ((if u = t then [e] else []).foldl Pool.step q) := by
    intro u e p' q' hs he
    rw [List.append_nil]
    by_cases hut : u = t
    · rw [if_pos hut] at hs ⊢
      rw [← he hut] at hs
      exact hs
    · rw [if_neg hut] at hs ⊢
      exact hs
  cases e with
  | submit request id =>
      rw [show p.starter (.submit request id) = [] from rfl, List.append_nil]
      exact ⟨h.length, h.owned, h.empty, h.execOps, h.workCount, h.opening, h.current⟩
  | start u request =>
      show SameFor t (p.start u request) (owners ++ if (p.pending request).isSome then [u] else [])
        ((if u = t then ((p.pending request).map (PoolEvent.submit request)).toList ++
          [PoolEvent.start u request] else []).foldl Pool.step q)
      cases hp : p.pending request with
      | none =>
          have hs := h.start_none u request hp
          rw [if_neg (by simp), List.append_nil]
          by_cases hut : u = t
          · rw [if_pos hut] at hs ⊢
            subst hut
            exact hs
          · rw [if_neg hut] at hs ⊢
            exact hs
      | some id =>
          have hs := h.start_some u request hp
          rw [if_pos (by simp)]
          by_cases hut : u = t
          · rw [if_pos hut] at hs ⊢
            subst hut
            exact hs
          · rw [if_neg hut] at hs ⊢
            exact hs
  | leave u => exact hsingle (h.leave u) fun hut => by rw [hut]; rfl
  | sysCall u call => exact hsingle (h.sysCall u call) fun hut => by rw [hut]; rfl
  | sysReturn u call retVal => exact hsingle (h.sysReturn u call retVal) fun hut => by rw [hut]; rfl

end Steps

/-! ## 3. Threads alone -/

theorem sameFor_run (t : Nat) (es : List PoolEvent) : SameFor t (es.foldl Pool.step .init)
    (starters es) ((alone t es).foldl Pool.step .init) := by
  induction es using List.reverseRecOn with
  | nil => exact sameFor_init t
  | append_singleton es e ih =>
      unfold starters alone at ih ⊢
      rw [List.foldl_concat, Machine.outputs_snoc, Machine.outputs_snoc, List.foldl_append]
      exact ih.step e

/-- **The `ExecOp`s of a thread** in an interleaving are those that it records alone. -/
theorem part_run (t : Nat) (es : List PoolEvent) :
    part t (starters es) (es.foldl Pool.step .init).execOps =
      ((alone t es).foldl Pool.step .init).execOps :=
  (sameFor_run t es).execOps.symm

/-- **Every thread records as if it were alone.** -/
theorem threads_alone (threadId : Nat) (cwd : String) {cs : List Callback} (h : Legal cs) :
    ∃ g, run threadId cwd cs = .ok g ∧
      (starters (poolEvents cs)).length = g.trace.execOps.length ∧
      ∀ t, part t (starters (poolEvents cs)) g.trace.execOps =
        ((alone t (poolEvents cs)).foldl Pool.step .init).execOps := by
  obtain ⟨g, hg, hr⟩ := refines_run threadId cwd h
  have hx : g.trace.execOps = ((poolEvents cs).foldl Pool.step .init).execOps := by
    rw [hr.execOps, pool_run]
  refine ⟨g, hg, ?_, fun t => ?_⟩
  · rw [hx]
    exact (sameFor_run 0 (poolEvents cs)).length
  · rw [hx]
    exact part_run t (poolEvents cs)

/-- The two threads of the sample run. -/
theorem threads_alone_sampleRun : ∃ g, run 1 "/" sampleRun = .ok g ∧
    (starters (poolEvents sampleRun)).length = g.trace.execOps.length ∧
    ∀ t, part t (starters (poolEvents sampleRun)) g.trace.execOps =
      ((alone t (poolEvents sampleRun)).foldl Pool.step .init).execOps :=
  threads_alone 1 "/" legal_sampleRun

/-- What all threads record does not depend on the interleaving, but for the order. -/
theorem execOps_perm {cs cs' : List Callback}
    (halone : ∀ t, alone t (poolEvents cs) = alone t (poolEvents cs')) :
    (System.run cs).pool.execOps.Perm (System.run cs').pool.execOps := by
  rw [pool_run, pool_run]
  refine Owners.perm_of_parts (sameFor_run 0 _).length (sameFor_run 0 _).length fun t => ?_
  rw [part_run, part_run, halone]

/-- **Two interleavings of the same threads** record the same: the same blocks, and the same
    `ExecOp`s in another order. -/
theorem interleaving (threadId : Nat) (cwd : String) {cs cs' : List Callback} (h : Legal cs)
    (h' : Legal cs') (hmain : cs.filter Callback.isMain = cs'.filter Callback.isMain)
    (halone : ∀ t, alone t (poolEvents cs) = alone t (poolEvents cs')) :
    ∃ g g', run threadId cwd cs = .ok g ∧ run threadId cwd cs' = .ok g' ∧
      g.trace.blocks = g'.trace.blocks ∧ g.trace.execOps.Perm g'.trace.execOps := by
  obtain ⟨g, hg, hr⟩ := refines_run threadId cwd h
  obtain ⟨g', hg', hr'⟩ := refines_run threadId cwd h'
  refine ⟨g, g', hg, hg', ?_, ?_⟩
  · rw [hr.traceBlocks, hr'.traceBlocks, run_main hmain]
  · rw [hr.execOps, hr'.execOps]
    exact execOps_perm halone

/-- What the threads do in the two sample runs. -/
theorem alone_otherRun (t : Nat) :
    alone t (poolEvents sampleRun) = alone t (poolEvents otherRun) := by
  have h1 : alone 1 (poolEvents sampleRun) = alone 1 (poolEvents otherRun) := by decide +kernel
  have h2 : alone 2 (poolEvents sampleRun) = alone 2 (poolEvents otherRun) := by decide +kernel
  by_cases ht1 : t = 1
  · rw [ht1, h1]
  · by_cases ht2 : t = 2
    · rw [ht2, h2]
    · have h : ∀ e ∈ poolEvents sampleRun ++ poolEvents otherRun,
          e.thread = none ∨ e.thread = some 1 ∨ e.thread = some 2 := by decide +kernel
      have hno : ∀ e ∈ poolEvents sampleRun ++ poolEvents otherRun, e.thread ≠ some t := by
        intro e he het
        rcases h e he with h | h | h
        · rw [h] at het
          cases het
        · exact ht1 (Option.some.inj (het.symm.trans h))
        · exact ht2 (Option.some.inj (het.symm.trans h))
      rw [alone_eq_nil fun e he => hno e (List.mem_append_left _ he),
        alone_eq_nil fun e he => hno e (List.mem_append_right _ he)]

/-- The two sample runs record the same. -/
theorem interleaving_sampleRun : ∃ g g', run 1 "/" sampleRun = .ok g ∧ run 1 "/" otherRun = .ok g' ∧
    g.trace.blocks = g'.trace.blocks ∧ g.trace.execOps.Perm g'.trace.execOps :=
  interleaving 1 "/" legal_sampleRun legal_otherRun filter_otherRun alone_otherRun

end NodeGenerator

end Fsracer

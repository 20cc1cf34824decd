/-
  File:      Fsracer/Submissions.lean
  Subject:   NO SUBMITTED OPERATION IS LOST OR DUPLICATED.

  The main thread leaves the id of an operation under the address of its request, and the thread
  that enters `uv__fs_work` with this request takes it: every request is a slot of a `Mailbox`.

  * **`submissions_conserved`** -- for every interleaving, what was submitted is what the
    `ExecOp`s were made of, what the store still holds, and what a second submission under the
    same request overwrote, each once;
  * **`execOps_nodup`** -- the ids of the `ExecOp`s differ, if no async id was used twice.
-/
import Mathlib
import Fsracer.TracerRuns
import Fsracer.Lib.Mailbox

namespace Fsracer

namespace NodeGenerator

open UvFsWork (opKey)

/-! ## 1. The pool as mailboxes -/

/-- What an event does to the requests. -/
def PoolEvent.actions : PoolEvent → List (Mailbox.Action Nat String)
  | .submit request id => [.put request id]
  | .start _ request => [.take request]
  | .leave _ | .sysCall .. | .sysReturn .. => []

/-- The requests and the ids of the `ExecOp`s, as the mailboxes have them. -/
structure Posted (p : Pool) (s : Mailbox.State Nat String) : Prop where
  slot : s.slot = p.pending
  taken : s.taken.map Prod.snd = p.execOps.map (·.id)

theorem map_id_modify (es : List ExecOp) (i : Nat) {f : ExecOp → ExecOp}
    (hf : ∀ e, (f e).id = e.id) :
    (es.modify i f).map (·.id) = es.map (·.id) := by
  refine List.ext_getElem? fun j => ?_
  rw [List.getElem?_map, List.getElem?_map, List.getElem?_modify]
  cases es[j]? with
  | none => rfl
  | some e =>
      dsimp only [Option.map_some, Functor.map]
      split
      · rw [hf]
      · rfl

theorem Posted.edit {p : Pool} {s : Mailbox.State Nat String} (h : Posted p s) (t : Nat)
    {f : ExecOp → ExecOp} (hf : ∀ e, (f e).id = e.id) : Posted (p.edit t f) s := by
  cases hi : (p.worker t).current with
  | none =>
      rw [edit_none hi]
      exact h
  | some i =>
      rw [edit_some hi]
      exact ⟨h.slot, h.taken.trans (map_id_modify _ i hf).symm⟩

theorem Posted.step {p : Pool} {s : Mailbox.State Nat String} (h : Posted p s) (e : PoolEvent) :
    Posted (p.step e) (e.actions.foldl Mailbox.step s) := by
  cases e with
  | submit request id =>
      refine ⟨?_, h.taken⟩
      show Function.update s.slot request (some id) = _
      rw [h.slot]
      rfl
  | start t request =>
      show Posted (p.start t request) (Mailbox.step s (.take request))
      have hheld : s.held request = ((p.pending request).map (request, ·)).toList := by
        unfold Mailbox.State.held
        rw [h.slot]
      have hslot : (Mailbox.step s (.take request)).slot =
          Function.update p.pending request none := by rw [← h.slot]; rfl
      have htaken : (Mailbox.step s (.take request)).taken = s.taken ++ s.held request := rfl
      cases hp : p.pending request with
      | none =>
          rw [Pool.start_none hp]
          refine ⟨?_, ?_⟩
          · rw [hslot, ← hp, Function.update_eq_self]
            rfl
          · rw [htaken, hheld, hp, Option.map_none, Option.toList_none, List.append_nil]
            exact h.taken
      | some id =>
          rw [Pool.start_some hp]
          refine ⟨hslot, ?_⟩
          rw [htaken, hheld, hp, List.map_append, h.taken, List.map_append]
          rfl
  | leave t =>
      show Posted (p.leave t) s
      unfold Pool.leave
      dsimp only
      split
      · exact h
      · split
        · exact ⟨h.slot, h.taken⟩
        · exact h
  | sysCall t call =>
      have hrecord := h.edit t
        (f := fun e => { e with operations := e.operations ++ call.operations })
        fun _ => rfl
      show Posted (p.sysCall t call) s
      unfold Pool.sysCall
      dsimp only
      split
      · exact ⟨hrecord.slot, hrecord.taken⟩
      · exact hrecord
  | sysReturn t call retVal =>
      show Posted (p.sysReturn t call retVal) s
      unfold Pool.sysReturn
      split
      · split
        · rename_i path _
          have hset : Posted (p.setWorker t { p.worker t with opening := none }) s :=
            ⟨h.slot, h.taken⟩
          exact hset.edit t fun _ => rfl
        · exact h
      · split
        · exact h.edit t fun _ => rfl
        · exact h

theorem posted_run (es : List PoolEvent) : Posted (es.foldl Pool.step .init)
    ((es.flatMap PoolEvent.actions).foldl Mailbox.step .init) := by
  induction es using List.reverseRecOn with
  | nil => exact ⟨rfl, rfl⟩
  | append_singleton es e ih =>
      rw [List.foldl_concat, List.flatMap_append, List.foldl_append]
      simpa using ih.step e

/-! ## 2. The account -/

/-- The operations that the main thread submits, with their requests. -/
def submissions (cs : List Callback) : List (Nat × String) :=
  Machine.outputs System.step System.submitted System.init cs

theorem puts_poolEvents (cs : List Callback) :
    ((poolEvents cs).flatMap PoolEvent.actions).flatMap Mailbox.Action.puts = submissions cs := by
  unfold poolEvents submissions
  generalize System.init = s
  induction cs generalizing s with
  | nil => rfl
  | cons c cs ih =>
      simp only [Machine.outputs, List.flatMap_append, ih]
      congr 1
      cases c with
      | uvFs f args =>
          unfold System.poolEvents System.submitted
          dsimp only
          cases s.submission f args <;> rfl
      | _ => rfl

/-- The operations that were overwritten before they started. -/
def overwrites (cs : List Callback) : List (Nat × String) :=
  Machine.outputs System.step System.overwritten System.init cs

/-- The mailboxes of a run. -/
def mailboxes (cs : List Callback) : Mailbox.State Nat String :=
  ((poolEvents cs).flatMap PoolEvent.actions).foldl Mailbox.step .init

theorem posted_mailboxes (cs : List Callback) : Posted (System.run cs).pool (mailboxes cs) := by
  rw [pool_run]
  exact posted_run _

theorem mailboxes_snoc (cs : List Callback) (c : Callback) : mailboxes (cs ++ [c]) =
    (((System.run cs).poolEvents c).flatMap PoolEvent.actions).foldl Mailbox.step
      (mailboxes cs) := by
  unfold mailboxes poolEvents
  rw [Machine.outputs_snoc, List.flatMap_append, List.foldl_append]
  rfl

theorem dropped_mailboxes (cs : List Callback) : (mailboxes cs).dropped = overwrites cs := by
  induction cs using List.reverseRecOn with
  | nil => rfl
  | append_singleton cs c ih =>
      have hout : overwrites (cs ++ [c]) = overwrites cs ++ (System.run cs).overwritten c :=
        Machine.outputs_snoc
      rw [mailboxes_snoc, hout, ← ih]
      cases c with
      | uvFs f args =>
          unfold System.poolEvents System.overwritten
          dsimp only
          cases (System.run cs).submission f args with
          | none => exact (List.append_nil _).symm
          | some sub =>
              show (mailboxes cs).dropped ++ (mailboxes cs).held sub.request = _
              unfold Mailbox.State.held
              rw [(posted_mailboxes cs).slot]
              rfl
      | _ => exact (List.append_nil _).symm

/-- The account of a run. -/
theorem mailboxes_conserved (cs : List Callback) : ∃ held, Mailbox.Holds (mailboxes cs) held ∧
    (submissions cs).Perm ((mailboxes cs).taken ++ overwrites cs ++ held) := by
  obtain ⟨held, hheld, hperm⟩ := Mailbox.conserved ((poolEvents cs).flatMap PoolEvent.actions)
  rw [puts_poolEvents] at hperm
  exact ⟨held, hheld, dropped_mailboxes cs ▸ hperm⟩

/-- **No submitted operation is lost or duplicated**: what was submitted is, each once, what an
    `ExecOp` was made of, what was overwritten under its request, or what the store holds. -/
theorem submissions_conserved (threadId : Nat) (cwd : String) {cs : List Callback} (h : Legal cs) :
    ∃ g started held, run threadId cwd cs = .ok g ∧
      (submissions cs).Perm (started ++ overwrites cs ++ held) ∧
      g.trace.execOps.map (·.id) = started.map Prod.snd ∧
      (held.map Prod.fst).Nodup ∧
      ∀ request id, (request, id) ∈ held ↔
        g.getStoreValue (opKey (ptrToString request)) = some (.opId id) := by
  obtain ⟨g, hg, hr⟩ := refines_run threadId cwd h
  obtain ⟨held, hheld, hperm⟩ := mailboxes_conserved cs
  have hposted := posted_mailboxes cs
  refine ⟨g, (mailboxes cs).taken, held, hg, hperm, ?_, hheld.nodup, fun request id => ?_⟩
  · rw [hposted.taken, hr.execOps]
  · have hs : g.getStoreValue (opKey (ptrToString request)) =
        ((System.run cs).pool.pending request).map StoreValue.opId := hr.store (.pending request)
    rw [hheld.mem, hposted.slot, hs]
    cases (System.run cs).pool.pending request <;> simp

/-- The account of the sample run. -/
theorem submissions_conserved_sampleRun : ∃ g started held, run 1 "/" sampleRun = .ok g ∧
    (submissions sampleRun).Perm (started ++ overwrites sampleRun ++ held) ∧
    g.trace.execOps.map (·.id) = started.map Prod.snd ∧ (held.map Prod.fst).Nodup ∧
    ∀ request id, (request, id) ∈ held ↔
      g.getStoreValue (opKey (ptrToString request)) = some (.opId id) :=
  submissions_conserved 1 "/" legal_sampleRun

/-! ## 3. Ids -/

/-- The async ids of the events that a run creates. -/
def asyncIds (cs : List Callback) : List Nat :=
  cs.filterMap fun c => match c with
    | .node (.emitAsyncInit asyncId _) => some asyncId
    | _ => none

theorem sync_ne_async (m n : Nat) : "sync_" ++ toString m ≠ "async_" ++ toString n :=
  UvFsWork.key_ne (c := 's') (d := 'a') (by decide) (by decide) (by decide)

/-- What the ids of a run are made of. -/
structure FreshIds (cs : List Callback) : Prop where
  nodup : ((submissions cs).map Prod.snd).Nodup
  source : ∀ id ∈ (submissions cs).map Prod.snd,
    (∃ n, n ≤ (System.run cs).syncOpCount ∧ id = "sync_" ++ toString n) ∨
      ∃ e ∈ asyncIds cs, id = "async_" ++ toString e
  created : ∀ e, (System.run cs).createdEvent = some e → e ∈ asyncIds cs ∧
    "async_" ++ toString e ∉ (submissions cs).map Prod.snd

theorem submissions_snoc (cs : List Callback) (c : Callback) :
    submissions (cs ++ [c]) = submissions cs ++ (System.run cs).submitted c :=
  Machine.outputs_snoc

theorem asyncIds_snoc (cs : List Callback) (c : Callback) :
    asyncIds (cs ++ [c]) = asyncIds cs ++ asyncIds [c] := List.filterMap_append

/-- A callback that submits nothing and creates no event. -/
theorem FreshIds.of_eq {cs : List Callback} (h : FreshIds cs) {c : Callback}
    (hsub : (System.run cs).submitted c = []) (hids : asyncIds [c] = [])
    (hcount : (System.run cs).nextSyncOpCount c = (System.run cs).syncOpCount)
    (hevent : (System.run cs).nextCreatedEvent c = (System.run cs).createdEvent) :
    FreshIds (cs ++ [c]) := by
  refine ⟨?_, fun id hid => ?_, fun e he => ?_⟩
  · rw [submissions_snoc, hsub, List.append_nil]
    exact h.nodup
  · rw [submissions_snoc, hsub, List.append_nil] at hid
    rw [asyncIds_snoc, hids, List.append_nil, System.run_snoc]
    show (∃ n, n ≤ (System.run cs).nextSyncOpCount c ∧ _) ∨ _
    rw [hcount]
    exact h.source id hid
  · rw [submissions_snoc, hsub, List.append_nil, asyncIds_snoc, hids, List.append_nil]
    refine h.created e ?_
    rw [← hevent, ← he, System.run_snoc]
    rfl

/-- An event is created. -/
theorem FreshIds.emitAsyncInit {cs : List Callback} (h : FreshIds cs) {x : Nat} (t : Nat)
    (hx : x ∉ asyncIds cs) : FreshIds (cs ++ [.node (.emitAsyncInit x t)]) := by
  have hsub : submissions (cs ++ [.node (.emitAsyncInit x t)]) = submissions cs := by
    rw [submissions_snoc]
    exact List.append_nil _
  have hids : asyncIds (cs ++ [.node (.emitAsyncInit x t)]) = asyncIds cs ++ [x] := asyncIds_snoc ..
  refine ⟨hsub ▸ h.nodup, fun id hid => ?_, fun e he => ?_⟩
  · rw [System.run_snoc, hids]
    rcases h.source id (hsub ▸ hid) with hn | ⟨e, he, rfl⟩
    · exact .inl hn
    · exact .inr ⟨e, List.mem_append_left _ he, rfl⟩
  · rw [System.run_snoc] at he
    change (if (System.run cs).callStack.head? = some newTimerWrap ∨ (System.run cs).promiseEvent
      then (System.run cs).createdEvent else some x) = some e at he
    rw [hsub, hids]
    split at he
    · obtain ⟨hmem, hno⟩ := h.created e he
      exact ⟨List.mem_append_left _ hmem, hno⟩
    · cases he
      refine ⟨List.mem_append_right _ (List.mem_singleton_self x), fun hid => ?_⟩
      rcases h.source _ hid with ⟨n, -, hn⟩ | ⟨e, he, heq⟩
      · exact sync_ne_async n x hn.symm
      · exact hx (toString_nat_inj.mp ((String.append_right_inj _).mp heq) ▸ he)

/-- An operation is submitted. -/
theorem FreshIds.uvFs {cs : List Callback} (h : FreshIds cs) (f : UvFs) (args : List Nat) :
    FreshIds (cs ++ [.uvFs f args]) := by
  have hids : asyncIds (cs ++ [.uvFs f args]) = asyncIds cs := by
    rw [asyncIds_snoc]
    exact List.append_nil _
  by_cases hsync : getArg args f.asyncPos = 0
  · -- a synchronous operation has the next number
    have hsub : submissions (cs ++ [.uvFs f args]) = submissions cs ++
        [(getArg args 1, "sync_" ++ toString ((System.run cs).syncOpCount + 1))] := by
      rw [submissions_snoc]
      simp [System.submitted, System.submission, hsync]
    have hcount : ((System.run cs).step (.uvFs f args)).syncOpCount =
        (System.run cs).syncOpCount + 1 := if_pos hsync
    have hevent : ((System.run cs).step (.uvFs f args)).createdEvent =
        (System.run cs).createdEvent := if_pos hsync
    refine ⟨?_, fun id hid => ?_, fun e he => ?_⟩
    · rw [hsub, List.map_append, List.nodup_append]
      refine ⟨h.nodup, List.nodup_singleton _, fun id hid id' hid' heq => ?_⟩
      obtain rfl := List.mem_singleton.mp hid'
      subst heq
      rcases h.source _ hid with ⟨n, hn, heq⟩ | ⟨e, -, heq⟩
      · have hn' := toString_nat_inj.mp ((String.append_right_inj _).mp heq)
        omega
      · exact sync_ne_async _ e heq
    · rw [System.run_snoc, hcount, hids]
      rw [hsub, List.map_append, List.mem_append] at hid
      rcases hid with hid | hid
      · rcases h.source id hid with ⟨n, hn, hid⟩ | hid
        · exact .inl ⟨n, Nat.le_succ_of_le hn, hid⟩
        · exact .inr hid
      · exact .inl ⟨_, le_rfl, List.mem_singleton.mp hid⟩
    · rw [System.run_snoc, hevent] at he
      obtain ⟨hmem, hno⟩ := h.created e he
      refine ⟨hids.symm ▸ hmem, fun hid => ?_⟩
      rw [hsub, List.map_append, List.mem_append] at hid
      rcases hid with hid | hid
      · exact hno hid
      · exact sync_ne_async _ e (List.mem_singleton.mp hid).symm
  · -- an asynchronous one takes the event that was created last
    have hcount : ((System.run cs).step (.uvFs f args)).syncOpCount =
        (System.run cs).syncOpCount := if_neg hsync
    have hevent : ((System.run cs).step (.uvFs f args)).createdEvent = none := if_neg hsync
    have hsub : submissions (cs ++ [.uvFs f args]) = submissions cs ++
        ((System.run cs).createdEvent.map fun e =>
          (getArg args 1, "async_" ++ toString e)).toList := by
      rw [submissions_snoc]
      unfold System.submitted System.submission
      dsimp only
      rw [if_neg hsync, Option.map_map]
      rfl
    have hnone : ∀ e, (System.run (cs ++ [.uvFs f args])).createdEvent = some e → False := by
      intro e he
      rw [System.run_snoc, hevent] at he
      cases he
    cases he : (System.run cs).createdEvent with
    | none =>
        rw [he, Option.map_none, Option.toList_none, List.append_nil] at hsub
        refine ⟨hsub ▸ h.nodup, fun id hid => ?_, fun e he => (hnone e he).elim⟩
        rw [System.run_snoc, hcount, hids]
        exact h.source id (hsub ▸ hid)
    | some e =>
        rw [he, Option.map_some, Option.toList_some] at hsub
        obtain ⟨hmem, hno⟩ := h.created e he
        refine ⟨?_, fun id hid => ?_, fun e he => (hnone e he).elim⟩
        · rw [hsub, List.map_append, List.nodup_append]
          refine ⟨h.nodup, List.nodup_singleton _, fun id hid id' hid' heq => ?_⟩
          obtain rfl := List.mem_singleton.mp hid'
          subst heq
          exact hno hid
        · rw [System.run_snoc, hcount, hids]
          rw [hsub, List.map_append, List.mem_append] at hid
          rcases hid with hid | hid
          · exact h.source id hid
          · exact .inr ⟨e, hmem, List.mem_singleton.mp hid⟩

theorem freshIds {cs : List Callback} (h : (asyncIds cs).Nodup) : FreshIds cs := by
  induction cs using List.reverseRecOn with
  | nil =>
      exact ⟨List.nodup_nil, fun _ h => absurd h List.not_mem_nil, fun _ h => by cases h⟩
  | append_singleton cs c ih =>
      rw [asyncIds_snoc] at h
      obtain ⟨hcs, -, hdisjoint⟩ := List.nodup_append.mp h
      have ih := ih hcs
      cases c with
      | uvFs f args => exact ih.uvFs f args
      | node call =>
          cases call with
          | emitAsyncInit x t =>
              refine ih.emitAsyncInit t fun hx => ?_
              exact hdisjoint x hx x (List.mem_singleton_self x) rfl
          | _ => exact ih.of_eq rfl rfl rfl rfl
      | _ => exact ih.of_eq rfl rfl rfl rfl

/-- Every `ExecOp` was submitted. -/
theorem execOps_submitted {cs : List Callback} {e : ExecOp}
    (he : e ∈ (System.run cs).pool.execOps) :
    ∃ request, (request, e.id) ∈ submissions cs := by
  obtain ⟨held, -, hperm⟩ := mailboxes_conserved cs
  have hmem : e.id ∈ (mailboxes cs).taken.map Prod.snd :=
    (posted_mailboxes cs).taken ▸ List.mem_map_of_mem he
  obtain ⟨⟨request, id⟩, hm, hid⟩ := List.mem_map.mp hmem
  refine ⟨request, hid ▸ hperm.mem_iff.mpr ?_⟩
  exact List.mem_append_left _ (List.mem_append_left _ hm)

/-- The ids of the `ExecOp`s of the system. -/
theorem ids_nodup {cs : List Callback} (hids : (asyncIds cs).Nodup) :
    ((System.run cs).pool.execOps.map (·.id)).Nodup := by
  obtain ⟨held, -, hperm⟩ := mailboxes_conserved cs
  have hsub : (mailboxes cs).taken.Sublist ((mailboxes cs).taken ++ overwrites cs ++ held) :=
    (List.sublist_append_left _ _).trans (List.sublist_append_left _ _)
  rw [← (posted_mailboxes cs).taken]
  exact ((hperm.map Prod.snd).nodup_iff.mp (freshIds hids).nodup).sublist (hsub.map Prod.snd)

/-- **The ids of the `ExecOp`s differ**, if no async id was used twice, and all of them were
    submitted. -/
theorem execOps_nodup (threadId : Nat) (cwd : String) {cs : List Callback} (h : Legal cs)
    (hids : (asyncIds cs).Nodup) : ∃ g, run threadId cwd cs = .ok g ∧
      (g.trace.execOps.map (·.id)).Nodup ∧
      ∀ e ∈ g.trace.execOps, ∃ request, (request, e.id) ∈ submissions cs := by
  obtain ⟨g, hg, hr⟩ := refines_run threadId cwd h
  exact ⟨g, hg, hr.execOps ▸ ids_nodup hids, fun e he => execOps_submitted (hr.execOps ▸ he)⟩

/-- The ids of the sample run. -/
theorem execOps_nodup_sampleRun : ∃ g, run 1 "/" sampleRun = .ok g ∧
    (g.trace.execOps.map (·.id)).Nodup ∧
    ∀ e ∈ g.trace.execOps, ∃ request, (request, e.id) ∈ submissions sampleRun :=
  execOps_nodup 1 "/" legal_sampleRun (by decide +kernel)

end NodeGenerator

end Fsracer

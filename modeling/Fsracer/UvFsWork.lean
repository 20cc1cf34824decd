/-
  File:      Fsracer/UvFsWork.lean
  Subject:   WHICH EXECOP A THREAD WRITES TO (tools/drfsracer/NodeGenerator.cpp,
             `wrap_pre_uv_fs_work`, `wrap_post_uv_fs_work`; DynamoTraceGenerator.cpp, the store).

  The tracer keeps, per thread, a counter of the `uv__fs_work` calls on the stack and a pointer
  to the current `ExecOp`. The counter goes up at every entry. At an exit it is compared with 0
  and 1, and it never goes down: one nested call leaves it above 1 for good, and the thread
  keeps its `ExecOp` outside `uv__fs_work`. `chargesRight_iff` says that nothing else goes wrong.

  The events of one thread, with the submissions of other threads in between, make a run. A
  pointer to an `ExecOp` of the trace is its position there.
-/
import Mathlib
import Fsracer.Trace
import Fsracer.Table
import Fsracer.History

namespace Fsracer

namespace UvFsWork

/-! ## 1. The store -/

/-- What a `void *` of the store points to. -/
inductive StoreValue where
  | workCount (n : Nat)
  | opId (id : String)
  | execOp (position : Nat)
  deriving DecidableEq, Repr

/-- The fields of `DynamoTraceGenerator` that the wrappers use. -/
structure TraceGenerator where
  store : Table String StoreValue compare
  execOps : List ExecOp

namespace TraceGenerator

/-- `AddToStore`. -/
def addToStore (g : TraceGenerator) (key : String) (value : StoreValue) : TraceGenerator :=
  { g with store := g.store.addEntry key value }

/-- `GetStoreValue`. -/
def getStoreValue (g : TraceGenerator) (key : String) : Option StoreValue := g.store.getValue key

/-- `PopFromStore`, also `DeleteFromStore`, which drops the value. -/
def popFromStore (g : TraceGenerator) (key : String) : Option StoreValue × TraceGenerator :=
  match g.store.popEntry key with
  | some (value, store) => (some value, { g with store := store })
  | none => (none, g)

/-- `DeleteFromStore`. -/
def deleteFromStore (g : TraceGenerator) (key : String) : TraceGenerator := (g.popFromStore key).2

variable {g : TraceGenerator} {key key' : String} {value : StoreValue}

theorem getStoreValue_addToStore : (g.addToStore key value).getStoreValue key' =
    if key = key' then some value else g.getStoreValue key' := by
  unfold addToStore getStoreValue
  rw [Table.getValue_addEntry]
  simp only [Std.compare_eq_iff_eq]

theorem popFromStore_fst : (g.popFromStore key).1 = g.getStoreValue key := by
  unfold popFromStore getStoreValue
  cases h : g.store.popEntry key with
  | none => exact (Table.popEntry_eq_none.mp h).symm
  | some r => exact (Table.popEntry_eq_some.mp h).1.symm

theorem getStoreValue_deleteFromStore : (g.deleteFromStore key).getStoreValue key' =
    if key = key' then none else g.getStoreValue key' := by
  unfold deleteFromStore popFromStore getStoreValue
  cases h : g.store.popEntry key with
  | none =>
      have hn := Table.popEntry_eq_none.mp h
      by_cases hk : key = key'
      · rw [if_pos hk, ← hk]
        exact hn
      · rw [if_neg hk]
  | some r =>
      dsimp only
      rw [(Table.popEntry_eq_some.mp h).2, Table.getValue_erase]
      simp only [Std.compare_eq_iff_eq]

theorem execOps_popFromStore : (g.popFromStore key).2.execOps = g.execOps := by
  unfold popFromStore
  cases g.store.popEntry key <;> rfl

end TraceGenerator

open TraceGenerator

/-! ## 2. The wrappers -/

/-- `FUNC_INVOCATIONS + thread_str + "/uv__fs_work"`. -/
def countKey (thread : Nat) : String := "func_invocations/" ++ toString thread ++ "/uv__fs_work"

/-- `THREADS + thread_str`. -/
def threadKey (thread : Nat) : String := "threads/" ++ toString thread

/-- `OPERATIONS + addr`. -/
def opKey (addr : String) : String := "operations/" ++ addr

/-- Keys whose first characters differ. -/
theorem key_ne {a b x y : String} {c d : Char} (ha : a.toList.head? = some c)
    (hb : b.toList.head? = some d) (hcd : c ≠ d) : a ++ x ≠ b ++ y := by
  intro h
  have h := congrArg (fun s : String => s.toList.head?) h
  simp only [String.toList_append, List.head?_append, ha, hb, Option.some_or] at h
  exact hcd (Option.some.inj h)

theorem countKey_ne_threadKey (thread : Nat) : countKey thread ≠ threadKey thread := by
  unfold countKey threadKey
  rw [String.append_assoc]
  exact key_ne (c := 'f') (d := 't') (by decide) (by decide) (by decide)

theorem opKey_ne_countKey (addr : String) (thread : Nat) : opKey addr ≠ countKey thread := by
  unfold countKey opKey
  rw [String.append_assoc]
  exact key_ne (c := 'o') (d := 'f') (by decide) (by decide) (by decide)

theorem opKey_ne_threadKey (addr : String) (thread : Nat) : opKey addr ≠ threadKey thread :=
  key_ne (c := 'o') (d := 't') (by decide) (by decide) (by decide)

/-- `AddSubmitOp`, in what it stores: the id of the operation under the address of its request. -/
def addSubmitOp (g : TraceGenerator) (addr id : String) : TraceGenerator :=
  g.addToStore (opKey addr) (.opId id)

/-- `get_exec_op`. -/
def getExecOp (g : TraceGenerator) (thread : Nat) : Option StoreValue :=
  g.getStoreValue (threadKey thread)

/-- `exec_op->AddOperation`, with which every wrapper of a system call ends. -/
def addOperation (g : TraceGenerator) (thread : Nat) (op : Operation) : TraceGenerator :=
  match getExecOp g thread with
  | some (.execOp i) =>
      { g with execOps := g.execOps.modify i fun e => { e with operations := e.operations ++ [op] } }
  | _ => g

/-- The first half of `wrap_pre_uv_fs_work`. -/
def countEntry (g : TraceGenerator) (thread : Nat) : TraceGenerator :=
  match g.getStoreValue (countKey thread) with
  | some (.workCount n) => g.addToStore (countKey thread) (.workCount (n + 1))
  | some _ => g
  | none => g.addToStore (countKey thread) (.workCount 1)

/-- `wrap_pre_uv_fs_work`. -/
def wrapPreUvFsWork (g : TraceGenerator) (thread : Nat) (addr : String) : TraceGenerator :=
  match (countEntry g thread).popFromStore (opKey addr) with
  | (some (.opId id), g) =>
      { g.addToStore (threadKey thread) (.execOp g.execOps.length) with
        execOps := g.execOps ++ [⟨id, []⟩] }
  | (_, g) => g

/-- `wrap_post_uv_fs_work`: the counter is compared, not counted down. -/
def wrapPostUvFsWork (g : TraceGenerator) (thread : Nat) : TraceGenerator :=
  match g.getStoreValue (countKey thread) with
  | some (.workCount n) =>
      if n = 0 ∨ n = 1 then
        (g.deleteFromStore (countKey thread)).deleteFromStore (threadKey thread)
      else g
  | _ => g

/-! ## 3. Runs -/

/-- What happens on the thread, and what is submitted to it. -/
inductive Event where
  | submit (addr id : String)
  | enter (addr : String)
  | exit
  | call (op : Operation)
  deriving DecidableEq, Repr

/-- One event. -/
def step (thread : Nat) (g : TraceGenerator) : Event → TraceGenerator
  | .submit addr id => addSubmitOp g addr id
  | .enter addr => wrapPreUvFsWork g thread addr
  | .exit => wrapPostUvFsWork g thread
  | .call op => addOperation g thread op

/-- The generator after a list of events. -/
def run (thread : Nat) (es : List Event) : TraceGenerator := es.foldl (step thread) ⟨∅, []⟩

@[simp] theorem run_append_singleton (thread : Nat) (es : List Event) (e : Event) :
    run thread (es ++ [e]) = step thread (run thread es) e := by simp [run]

/-- The nesting depth. -/
def depth (es : List Event) : Nat :=
  es.foldl (fun d e => match e with
    | .enter _ => d + 1
    | .exit => d - 1
    | .submit .. | .call _ => d) 0

@[simp] theorem depth_append_singleton (es : List Event) (e : Event) : depth (es ++ [e]) =
    match e with
    | .enter _ => depth es + 1
    | .exit => depth es - 1
    | .submit .. | .call _ => depth es := by
  cases e <;> simp [depth]

/-- Every exit has its entry, and at the end every entry has its exit. -/
structure WellNested (es : List Event) : Prop where
  opened : ∀ p, p ++ [.exit] <+: es → 0 < depth p
  closed : depth es = 0

/-- A nested entry has no submitted operation. -/
def OnlyOutermost (thread : Nat) (es : List Event) : Prop :=
  ∀ p addr, p ++ [.enter addr] <+: es → 0 < depth p →
    (run thread p).getStoreValue (opKey addr) = none

/-- No entry is nested. -/
def NoNesting (es : List Event) : Prop := ∀ p addr, p ++ [.enter addr] <+: es → depth p = 0

/-- The outermost entry at `addr` after `q` has not been left after `p`. -/
inductive Inside (q : List Event) (addr : String) : List Event → Prop where
  | enter : depth q = 0 → Inside q addr (q ++ [.enter addr])
  | step {p : List Event} {e : Event} : Inside q addr p → 0 < depth (p ++ [e]) →
      Inside q addr (p ++ [e])

/-- The `ExecOp` that an entry creates: the next one of the trace, if an operation was submitted
    for the address. -/
def created (g : TraceGenerator) (addr : String) : Option StoreValue :=
  match g.getStoreValue (opKey addr) with
  | some (.opId _) => some (.execOp g.execOps.length)
  | _ => none

/-- **The property at one moment**: inside `uv__fs_work` the current `ExecOp` is the one of the
    outermost entry; outside there is none, and no call is recorded. -/
structure ChargedRight (thread : Nat) (p : List Event) : Prop where
  inside : ∀ q addr, Inside q addr p →
    getExecOp (run thread p) thread = created (run thread q) addr
  outside : depth p = 0 → (run thread p).getStoreValue (countKey thread) = none ∧
    getExecOp (run thread p) thread = none ∧
    ∀ op, addOperation (run thread p) thread op = run thread p

/-- The property at every moment. -/
def ChargesRight (thread : Nat) (es : List Event) : Prop := ∀ p, p <+: es → ChargedRight thread p

/-! ## 4. What each wrapper does to the two keys of the thread -/

/-- The counter of the thread. -/
def workCount (g : TraceGenerator) (thread : Nat) : Option StoreValue :=
  g.getStoreValue (countKey thread)

section Wrappers

variable {g : TraceGenerator} {thread : Nat} {addr id : String} {op : Operation}

theorem workCount_submit : workCount (addSubmitOp g addr id) thread = workCount g thread := by
  unfold workCount addSubmitOp
  rw [getStoreValue_addToStore, if_neg (opKey_ne_countKey addr thread)]

theorem getExecOp_submit : getExecOp (addSubmitOp g addr id) thread = getExecOp g thread := by
  unfold getExecOp addSubmitOp
  rw [getStoreValue_addToStore, if_neg (opKey_ne_threadKey addr thread)]

theorem getStoreValue_addOperation (key : String) :
    (addOperation g thread op).getStoreValue key = g.getStoreValue key := by
  unfold addOperation
  split <;> rfl

theorem getStoreValue_countEntry {key : String} (hk : countKey thread ≠ key) :
    (countEntry g thread).getStoreValue key = g.getStoreValue key := by
  unfold countEntry
  split
  · rw [getStoreValue_addToStore, if_neg hk]
  · rfl
  · rw [getStoreValue_addToStore, if_neg hk]

theorem execOps_countEntry : (countEntry g thread).execOps = g.execOps := by
  unfold countEntry
  split <;> rfl

theorem workCount_countEntry : workCount (countEntry g thread) thread =
    match workCount g thread with
    | some (.workCount n) => some (.workCount (n + 1))
    | some v => some v
    | none => some (.workCount 1) := by
  have hw : g.getStoreValue (countKey thread) = workCount g thread := rfl
  unfold countEntry
  rw [hw]
  rcases h : workCount g thread with _ | n | id | i
  · exact getStoreValue_addToStore.trans (if_pos rfl)
  · exact getStoreValue_addToStore.trans (if_pos rfl)
  · exact h
  · exact h

/-- An entry pops the submitted operation and puts its `ExecOp` into the store. -/
theorem wrapPreUvFsWork_eq : wrapPreUvFsWork g thread addr =
    match g.getStoreValue (opKey addr) with
    | some (.opId id) =>
        { ((countEntry g thread).deleteFromStore (opKey addr)).addToStore (threadKey thread)
            (.execOp g.execOps.length) with execOps := g.execOps ++ [⟨id, []⟩] }
    | _ => (countEntry g thread).deleteFromStore (opKey addr) := by
  have h1 : ((countEntry g thread).popFromStore (opKey addr)).1 = g.getStoreValue (opKey addr) :=
    popFromStore_fst.trans (getStoreValue_countEntry (opKey_ne_countKey addr thread).symm)
  have h2 : ((countEntry g thread).popFromStore (opKey addr)).2.execOps = g.execOps :=
    execOps_popFromStore.trans execOps_countEntry
  unfold wrapPreUvFsWork deleteFromStore
  rcases hp : (countEntry g thread).popFromStore (opKey addr) with ⟨v, g'⟩
  rw [hp] at h1 h2
  dsimp only at h1 h2 ⊢
  rw [← h1, ← h2]
  rcases v with _ | n | id | i <;> rfl

theorem workCount_enter : workCount (wrapPreUvFsWork g thread addr) thread =
    workCount (countEntry g thread) thread := by
  have hd : ((countEntry g thread).deleteFromStore (opKey addr)).getStoreValue (countKey thread) =
      (countEntry g thread).getStoreValue (countKey thread) := by
    rw [getStoreValue_deleteFromStore, if_neg (opKey_ne_countKey addr thread)]
  rw [wrapPreUvFsWork_eq]
  split
  · exact (getStoreValue_addToStore.trans
      (if_neg (countKey_ne_threadKey thread).symm)).trans hd
  · exact hd

theorem getExecOp_enter : getExecOp (wrapPreUvFsWork g thread addr) thread =
    (created g addr).or (getExecOp g thread) := by
  have hd : ((countEntry g thread).deleteFromStore (opKey addr)).getStoreValue (threadKey thread) =
      g.getStoreValue (threadKey thread) := by
    rw [getStoreValue_deleteFromStore, if_neg (opKey_ne_threadKey addr thread),
      getStoreValue_countEntry (countKey_ne_threadKey thread)]
  rw [wrapPreUvFsWork_eq]
  unfold created
  rcases g.getStoreValue (opKey addr) with _ | n | id | i
  · exact hd
  · exact hd
  · exact getStoreValue_addToStore.trans (if_pos rfl)
  · exact hd

/-- An exit clears both keys, when the counter is at most 1. -/
theorem exit_clears {n : Nat} (hw : workCount g thread = some (.workCount n)) (hn : n ≤ 1) :
    workCount (wrapPostUvFsWork g thread) thread = none ∧
      getExecOp (wrapPostUvFsWork g thread) thread = none := by
  have hg : g.getStoreValue (countKey thread) = some (.workCount n) := hw
  have hn : n = 0 ∨ n = 1 := by omega
  unfold wrapPostUvFsWork workCount getExecOp
  simp only [hg, hn, if_true]
  exact ⟨by simp [getStoreValue_deleteFromStore], by simp [getStoreValue_deleteFromStore]⟩

/-- Otherwise it changes nothing. -/
theorem exit_keeps (hw : ∀ n, workCount g thread = some (.workCount n) → 1 < n) :
    wrapPostUvFsWork g thread = g := by
  have hg : g.getStoreValue (countKey thread) = workCount g thread := rfl
  unfold wrapPostUvFsWork
  rw [hg]
  rcases h : workCount g thread with _ | n | id | i
  · rfl
  · have := hw n h
    exact if_neg (by omega)
  · rfl
  · rfl

end Wrappers

/-! ## 5. The counter never goes down -/

/-- Submissions and calls leave both keys of the thread alone. -/
theorem step_quiet (g : TraceGenerator) (thread : Nat) {e : Event} (he : e ≠ .exit)
    (hn : ∀ addr, e ≠ .enter addr) : workCount (step thread g e) thread = workCount g thread ∧
      getExecOp (step thread g e) thread = getExecOp g thread := by
  cases e with
  | submit addr id => exact ⟨workCount_submit, getExecOp_submit⟩
  | call op => exact ⟨getStoreValue_addOperation _, getStoreValue_addOperation _⟩
  | enter addr => exact absurd rfl (hn addr)
  | exit => exact absurd rfl he

/-- The counter is missing at depth 0, or a number of at least the depth. -/
theorem depth_le_workCount (thread : Nat) (p : List Event) :
    (workCount (run thread p) thread = none ∧ depth p = 0) ∨
      ∃ n, workCount (run thread p) thread = some (.workCount n) ∧ depth p ≤ n := by
  induction p using List.reverseRecOn with
  | nil => exact .inl ⟨rfl, rfl⟩
  | append_singleton p e ih =>
      rw [run_append_singleton, depth_append_singleton]
      cases e with
      | submit addr id =>
          rw [(step_quiet _ _ (by simp) (by simp)).1]
          exact ih
      | call op =>
          rw [(step_quiet _ _ (by simp) (by simp)).1]
          exact ih
      | enter addr =>
          refine .inr ?_
          show ∃ n, workCount (wrapPreUvFsWork _ thread addr) thread = _ ∧ depth p + 1 ≤ n
          rw [workCount_enter, workCount_countEntry]
          rcases ih with ⟨hw, hd⟩ | ⟨n, hw, hd⟩
          · exact ⟨1, by rw [hw], by omega⟩
          · exact ⟨n + 1, by rw [hw], by omega⟩
      | exit =>
          show (workCount (wrapPostUvFsWork _ thread) thread = none ∧ depth p - 1 = 0) ∨
            ∃ n, workCount (wrapPostUvFsWork _ thread) thread = _ ∧ depth p - 1 ≤ n
          rcases ih with ⟨hw, hd⟩ | ⟨n, hw, hd⟩
          · rw [exit_keeps (by rw [hw]; intro n h; cases h)]
            exact .inl ⟨hw, by omega⟩
          · by_cases hn : n ≤ 1
            · exact .inl ⟨(exit_clears hw hn).1, by omega⟩
            · rw [exit_keeps (fun m hm => by
                rw [hw] at hm
                cases hm
                omega)]
              exact .inr ⟨n, hw, by omega⟩

/-- A counter above 1 stays above 1. -/
theorem workCount_stuck {thread : Nat} {p : List Event}
    (h : ∃ n, workCount (run thread p) thread = some (.workCount n) ∧ 1 < n) (r : List Event) :
    ∃ n, workCount (run thread (p ++ r)) thread = some (.workCount n) ∧ 1 < n := by
  induction r using List.reverseRecOn with
  | nil => rwa [List.append_nil]
  | append_singleton r e ih =>
      rw [← List.append_assoc, run_append_singleton]
      obtain ⟨n, hw, hn⟩ := ih
      cases e with
      | submit addr id =>
          rw [(step_quiet _ _ (by simp) (by simp)).1]
          exact ⟨n, hw, hn⟩
      | call op =>
          rw [(step_quiet _ _ (by simp) (by simp)).1]
          exact ⟨n, hw, hn⟩
      | enter addr =>
          refine ⟨n + 1, ?_, by omega⟩
          show workCount (wrapPreUvFsWork _ thread addr) thread = _
          rw [workCount_enter, workCount_countEntry, hw]
      | exit =>
          refine ⟨n, ?_, hn⟩
          show workCount (wrapPostUvFsWork _ thread) thread = _
          rw [exit_keeps (fun m hm => by
            rw [hw] at hm
            cases hm
            omega)]
          exact hw

/-- A nested entry makes the counter larger than 1. -/
theorem workCount_nested (thread : Nat) {p : List Event} (hd : 0 < depth p) (addr : String) :
    ∃ n, workCount (run thread (p ++ [.enter addr])) thread = some (.workCount n) ∧ 1 < n := by
  rw [run_append_singleton]
  show ∃ n, workCount (wrapPreUvFsWork _ thread addr) thread = _ ∧ _
  rw [workCount_enter, workCount_countEntry]
  rcases depth_le_workCount thread p with ⟨_, h0⟩ | ⟨n, hw, hn⟩
  · omega
  · exact ⟨n + 1, by rw [hw], by omega⟩

/-! ## 6. When the calls go to the right ExecOp -/

/-- What the depth says about the two keys, as long as no entry is nested. -/
structure Flat (thread : Nat) (g : TraceGenerator) (d : Nat) : Prop where
  idle : d = 0 → workCount g thread = none ∧ getExecOp g thread = none
  busy : 0 < d → d = 1 ∧ workCount g thread = some (.workCount 1)

theorem Flat.quiet {thread d : Nat} {g : TraceGenerator} (h : Flat thread g d) {e : Event}
    (he : e ≠ .exit) (hn : ∀ addr, e ≠ .enter addr) : Flat thread (step thread g e) d := by
  obtain ⟨hw, hx⟩ := step_quiet g thread he hn
  refine ⟨fun h0 => ?_, fun h1 => ?_⟩
  · rw [hw, hx]
    exact h.idle h0
  · rw [hw]
    exact h.busy h1

theorem Flat.enter {thread : Nat} {g : TraceGenerator} (h : Flat thread g 0) (addr : String) :
    Flat thread (wrapPreUvFsWork g thread addr) 1 := by
  refine ⟨fun h0 => absurd h0 (by omega), fun _ => ⟨rfl, ?_⟩⟩
  rw [workCount_enter, workCount_countEntry, (h.idle rfl).1]

theorem Flat.exit {thread d : Nat} {g : TraceGenerator} (h : Flat thread g d) (hd : 0 < d) :
    Flat thread (wrapPostUvFsWork g thread) (d - 1) := by
  obtain ⟨h1, hw⟩ := h.busy hd
  exact ⟨fun _ => exit_clears hw le_rfl, fun h2 => absurd h2 (by omega)⟩

theorem flat_of_noNesting (thread : Nat) {es : List Event} (hw : WellNested es)
    (hes : NoNesting es) {p : List Event} (hp : p <+: es) : Flat thread (run thread p) (depth p) := by
  induction p using List.reverseRecOn with
  | nil => exact ⟨fun _ => ⟨rfl, rfl⟩, fun h => absurd h (by decide)⟩
  | append_singleton p e ih =>
      have ih := ih ((List.prefix_append p [e]).trans hp)
      rw [run_append_singleton, depth_append_singleton]
      cases e with
      | submit addr id => exact ih.quiet (by simp) (by simp)
      | call op => exact ih.quiet (by simp) (by simp)
      | enter addr =>
          have h0 := hes p addr hp
          show Flat thread (wrapPreUvFsWork _ thread addr) (depth p + 1)
          rw [h0] at ih ⊢
          exact ih.enter addr
      | exit => exact ih.exit (hw.opened p hp)

theorem Inside.depth_pos {q p : List Event} {addr : String} (h : Inside q addr p) :
    0 < depth p := by
  cases h with
  | enter hq => simp
  | step _ hd => exact hd

/-- Without a nested entry the `ExecOp` of the outermost entry stays the current one. -/
theorem getExecOp_of_inside {thread : Nat} {es : List Event} (hw : WellNested es)
    (hes : NoNesting es) {q p : List Event} {addr : String} (h : Inside q addr p)
    (hp : p <+: es) : getExecOp (run thread p) thread = created (run thread q) addr := by
  induction h with
  | enter hq =>
      have hidle := (flat_of_noNesting thread hw hes
        ((List.prefix_append q _).trans hp)).idle hq
      rw [run_append_singleton]
      show getExecOp (wrapPreUvFsWork _ thread addr) thread = _
      rw [getExecOp_enter, hidle.2, Option.or_none]
  | @step p e hin hd ih =>
      have hpre := (List.prefix_append p [e]).trans hp
      have hpos := hin.depth_pos
      rw [run_append_singleton, ← ih hpre]
      cases e with
      | submit addr id => exact (step_quiet _ _ (by simp) (by simp)).2
      | call op => exact (step_quiet _ _ (by simp) (by simp)).2
      | enter addr' => exact absurd (hes p addr' hp) (by omega)
      | exit =>
          -- the only entry is left, so the depth is 0 again
          have h1 := ((flat_of_noNesting thread hw hes hpre).busy hpos).1
          rw [depth_append_singleton] at hd
          have hd : 0 < depth p - 1 := hd
          omega

/-- **When the operations of a thread go to the right ExecOp.** -/
theorem chargesRight_iff (thread : Nat) {es : List Event} (hw : WellNested es) :
    ChargesRight thread es ↔ NoNesting es := by
  refine ⟨fun h p addr hp => ?_, fun hes p hp => ⟨fun q addr hin => ?_, fun h0 => ?_⟩⟩
  · by_contra hd
    obtain ⟨r, rfl⟩ := hp
    obtain ⟨n, hn, _⟩ := workCount_stuck (workCount_nested thread
      (Nat.pos_of_ne_zero hd) addr) r
    have hnone := ((h _ (List.prefix_refl _)).outside hw.closed).1
    rw [show (run thread _).getStoreValue (countKey thread) = _ from hn] at hnone
    cases hnone
  · exact getExecOp_of_inside hw hes hin hp
  · obtain ⟨hc, hx⟩ := (flat_of_noNesting thread hw hes hp).idle h0
    refine ⟨hc, hx, fun op => ?_⟩
    unfold addOperation
    rw [hx]

/-- A read that calls `uv__fs_work` again, and a call after it. -/
def nestedRead : List Event :=
  [.submit "0x5570" "async_7", .enter "0x5570", .enter "0x5571", .exit, .exit]

/-- The same without the nested entry. -/
def plainRead : List Event :=
  [.submit "0x5570" "async_7", .enter "0x5570", .call ⟨.delFd 3, false, "close"⟩, .exit]

theorem chargesRight_plainRead : ChargesRight 1 plainRead := by
  refine (chargesRight_iff 1 ⟨fun p hp => ?_, by decide⟩).mpr fun p addr hp => ?_
  · simp [plainRead, snoc_prefix_cons] at hp
    subst hp
    decide
  · simp [plainRead, snoc_prefix_cons] at hp
    rw [hp.1]
    rfl

/-- After a nested entry the counter is left behind. -/
theorem chargesRight_fails : ¬ ∀ thread es, WellNested es → OnlyOutermost thread es →
    ChargesRight thread es := by
  intro h
  have hw : WellNested nestedRead := by
    refine ⟨fun p hp => ?_, by decide⟩
    simp [nestedRead, snoc_prefix_cons] at hp
    rcases hp with ⟨_, rfl, rfl | rfl⟩ <;> decide
  have ho : OnlyOutermost 1 nestedRead := by
    intro p addr hp hd
    simp [nestedRead, snoc_prefix_cons] at hp
    rcases hp with ⟨_, rfl, ⟨rfl, rfl⟩ | ⟨rfl, rfl⟩⟩
    · exact absurd hd (by decide)
    · decide +kernel
  have hnone := ((h 1 nestedRead hw ho nestedRead (List.prefix_refl _)).outside (by decide)).1
  revert hnone
  decide +kernel

end UvFsWork

end Fsracer

/-
  File:      Fsracer/TracerStore.lean
  Subject:   THE STORE OF THE TRACER HOLDS WHAT `System` SAYS.

  The code keeps its state in a map from strings to `void *`. Every use of the map is one of eight
  `Slot`s; `Slot.key_injective` says that no two of them share a key, so that each holds values of
  one type only and no cast fails. **`step_refines`**: one step of the code is one step of the
  system.
-/
import Mathlib
import Fsracer.Tracer

namespace Fsracer

namespace NodeGenerator

open BlockBrackets (AtEnd)
open UvFsWork (countKey threadKey opKey)

/-! ## 1. The slots of the store -/

/-- What the store is used for. -/
inductive Slot where
  | createdEvent
  | promiseEvent
  | promises
  | timers
  | pending (ptr : Nat)
  | workCount (thread : Nat)
  | current (thread : Nat)
  | opening (thread : Nat)
  deriving DecidableEq, Repr

/-- The key of a slot. -/
def Slot.key : Slot → String
  | .createdEvent => emitInitKey
  | .promiseEvent => promiseEventKey
  | .promises => promiseSetKey
  | .timers => timerSetKey
  | .pending ptr => opKey (ptrToString ptr)
  | .workCount thread => countKey thread
  | .current thread => threadKey thread
  | .opening thread => openKey thread

/-- How the keys of a slot begin. -/
def Slot.family : Slot → List Char
  | .createdEvent => ['a', 'r', 'g', 's', '/', 'w']
  | .promiseEvent => ['p', 'r', 'o', 'm', 'i', 's']
  | .promises => ['p', 'r', 'o', 'm', 'i', 's']
  | .timers => ['t', 'i', 'm', 'e', 'r', 's']
  | .pending _ => ['o', 'p', 'e', 'r', 'a', 't']
  | .workCount _ => ['f', 'u', 'n', 'c', '_', 'i']
  | .current _ => ['t', 'h', 'r', 'e', 'a', 'd']
  | .opening _ => ['a', 'r', 'g', 's', '/', '/']

theorem take_append_toList {a b : String} {n : Nat} (h : n ≤ a.toList.length) :
    (a ++ b).toList.take n = a.toList.take n := by
  rw [String.toList_append, List.take_append_of_le_length h]

theorem Slot.take_key (slot : Slot) : slot.key.toList.take 6 = slot.family := by
  cases slot with
  | createdEvent => decide
  | promiseEvent => decide
  | promises => decide
  | timers => decide
  | pending ptr => exact (take_append_toList (by decide)).trans (by simp [family])
  | workCount thread =>
      show (countKey thread).toList.take 6 = _
      unfold countKey
      rw [String.append_assoc]
      exact (take_append_toList (by decide)).trans (by simp [family])
  | current thread => exact (take_append_toList (by decide)).trans (by simp [family])
  | opening thread =>
      show (openKey thread).toList.take 6 = _
      unfold openKey
      rw [String.append_assoc]
      exact (take_append_toList (by decide)).trans (by simp [family])

theorem digitChar_inj {m n : Nat} (hm : m < 16) (hn : n < 16)
    (h : m.digitChar = n.digitChar) : m = n := by
  have hall : ∀ m < 16, ∀ n < 16, m.digitChar = n.digitChar → m = n := by decide
  exact hall m hm n hn h

theorem toDigits_hex_inj {m n : Nat} (h : Nat.toDigits 16 m = Nat.toDigits 16 n) : m = n := by
  induction m using Nat.strong_induction_on generalizing n with
  | _ m ih =>
      have hne : ∀ k, Nat.toDigits 16 k ≠ [] := fun k hk => by
        rw [Nat.toDigits_eq_if (by decide)] at hk
        split at hk
        · cases hk
        · simp at hk
      rw [Nat.toDigits_eq_if (by decide), Nat.toDigits_eq_if (n := n) (by decide)] at h
      by_cases hm : m < 16
      · by_cases hn : n < 16
        · rw [if_pos hm, if_pos hn] at h
          exact digitChar_inj hm hn (List.cons.inj h).1
        · rw [if_pos hm, if_neg hn] at h
          exact absurd (List.append_inj' (show [] ++ _ = _ from h) rfl).1.symm (hne _)
      · by_cases hn : n < 16
        · rw [if_neg hm, if_pos hn] at h
          exact absurd (List.append_inj' (show _ = [] ++ _ from h) rfl).1 (hne _)
        · rw [if_neg hm, if_neg hn] at h
          obtain ⟨hdiv, hmod⟩ := List.append_inj' h rfl
          have hd := ih (m / 16) (by omega) hdiv
          have hr := digitChar_inj (Nat.mod_lt _ (by decide)) (Nat.mod_lt _ (by decide))
            (List.cons.inj hmod).1
          omega

/-- Pointers that are printed alike are equal. -/
theorem ptrToString_inj {p q : Nat} (h : ptrToString p = ptrToString q) : p = q := by
  have hx : ∀ s : String, "0" ≠ "0x" ++ s := by
    intro s hs
    have hs := congrArg String.length hs
    rw [String.length_append] at hs
    have h1 : "0".length = 1 := rfl
    have h2 : "0x".length = 2 := rfl
    omega
  unfold ptrToString at h
  by_cases hp : p = 0
  · by_cases hq : q = 0
    · rw [hp, hq]
    · rw [if_pos hp, if_neg hq] at h
      exact absurd h (hx _)
  · by_cases hq : q = 0
    · rw [if_neg hp, if_pos hq] at h
      exact absurd h.symm (hx _)
    · rw [if_neg hp, if_neg hq] at h
      have h := congrArg String.toList h
      rw [String.toList_append, String.toList_append, List.append_cancel_left_eq] at h
      exact toDigits_hex_inj (by simpa using h)

theorem countKey_inj {t u : Nat} (h : countKey t = countKey u) : t = u := by
  unfold countKey at h
  rw [String.append_assoc, String.append_assoc, String.append_right_inj,
    String.append_left_inj] at h
  exact toString_nat_inj.mp h

theorem openKey_inj {t u : Nat} (h : openKey t = openKey u) : t = u := by
  unfold openKey at h
  rw [String.append_assoc, String.append_assoc, String.append_right_inj,
    String.append_left_inj] at h
  exact toString_nat_inj.mp h

/-- **Every slot has a key of its own.** -/
theorem Slot.key_injective : Function.Injective Slot.key := by
  intro a b h
  have hf : a.family = b.family := by rw [← take_key, h, take_key]
  cases a with
  | createdEvent =>
      cases b with
      | createdEvent => rfl
      | _ => simp [family] at hf
  | promiseEvent =>
      cases b with
      | promiseEvent => rfl
      | promises => exact absurd h (by decide)
      | _ => simp [family] at hf
  | promises =>
      cases b with
      | promises => rfl
      | promiseEvent => exact absurd h (by decide)
      | _ => simp [family] at hf
  | timers =>
      cases b with
      | timers => rfl
      | _ => simp [family] at hf
  | pending ptr =>
      cases b with
      | pending ptr' => rw [ptrToString_inj ((String.append_right_inj _).mp h)]
      | _ => simp [family] at hf
  | workCount thread =>
      cases b with
      | workCount thread' => rw [countKey_inj h]
      | _ => simp [family] at hf
  | current thread =>
      cases b with
      | current thread' => rw [toString_nat_inj.mp ((String.append_right_inj _).mp h)]
      | _ => simp [family] at hf
  | opening thread =>
      cases b with
      | opening thread' => rw [openKey_inj h]
      | _ => simp [family] at hf

/-! ## 2. Refinement -/

/-- What the store holds for the system. -/
def System.content (s : System) : Slot → Option StoreValue
  | .createdEvent => s.createdEvent.map .eventId
  | .promiseEvent => if s.promiseEvent then some (.isPromise true) else none
  | .promises => if s.started then some (.idSet s.blocks.promiseSet) else none
  | .timers => if s.started then some (.idSet s.timers) else none
  | .pending ptr => (s.pool.pending ptr).map .opId
  | .workCount thread => (s.pool.worker thread).workCount.map .workCount
  | .current thread => (s.pool.worker thread).current.map .execOp
  | .opening thread => (s.pool.worker thread).opening.map .path

/-- The blocks of the generator, as `BlockBrackets` has them. -/
def TraceGenerator.blockPart (g : TraceGenerator) (promiseSet : List Nat) :
    BlockBrackets.TraceGenerator :=
  ⟨g.trace.blocks, g.currentBlock, g.mainBlockCount, promiseSet⟩

/-- What is neither in the store nor in the blocks. -/
def System.frame (s : System) : List String × Nat × Nat × List ExecOp :=
  (s.callStack, s.eventCount, s.syncOpCount, s.pool.execOps)

/-- **The generator is in the state of the system.** -/
structure Refines (g : TraceGenerator) (s : System) : Prop where
  blocks : g.blockPart s.blocks.promiseSet = s.blocks
  frame : (g.callStack, g.eventCount, g.syncOpCount, g.trace.execOps) = s.frame
  store : ∀ slot, g.getStoreValue slot.key = s.content slot

theorem refines_init (threadId : Nat) (cwd : String) :
    Refines (TraceGenerator.init threadId cwd) System.init where
  blocks := rfl
  frame := rfl
  store slot := by
    refine Table.getValue_empty.trans ?_
    cases slot <;> rfl

section Primitives

variable {g : TraceGenerator} {s : System}

theorem getStoreValue_addToStore (a b : Slot) (value : StoreValue) :
    (g.addToStore a.key value).getStoreValue b.key =
      if a = b then some value else g.getStoreValue b.key := by
  unfold TraceGenerator.addToStore TraceGenerator.getStoreValue
  rw [Table.getValue_addEntry]
  simp only [Std.compare_eq_iff_eq, Slot.key_injective.eq_iff]

theorem getStoreValue_deleteFromStore (a b : Slot) :
    (g.deleteFromStore a.key).getStoreValue b.key =
      if a = b then none else g.getStoreValue b.key := by
  unfold TraceGenerator.deleteFromStore TraceGenerator.getStoreValue
  rw [Table.getValue_erase]
  simp only [Std.compare_eq_iff_eq, Slot.key_injective.eq_iff]

theorem blockPart_editBlock (edit : List Expr → List Expr) (ps : List Nat) :
    (g.editBlock edit).blockPart ps = (g.blockPart ps).editBlock edit := by
  obtain ⟨trace, current, ec, sc, mc, store, stack⟩ := g
  cases current <;> rfl

/-- A change of the current block leaves the rest. -/
theorem editBlock_fields (g : TraceGenerator) (edit : List Expr → List Expr) :
    ((g.editBlock edit).callStack, (g.editBlock edit).eventCount, (g.editBlock edit).syncOpCount,
        (g.editBlock edit).trace.execOps) =
      (g.callStack, g.eventCount, g.syncOpCount, g.trace.execOps) ∧
      (g.editBlock edit).store = g.store := by
  obtain ⟨trace, current, ec, sc, mc, store, stack⟩ := g
  cases current
  · exact ⟨rfl, rfl⟩
  · exact ⟨rfl, rfl⟩

/-- A value of the slot's own type is cast without failure. -/
theorem getAs_eq {α : Type} {cast : StoreValue → Option α} {m : α → StoreValue} {k : Slot}
    {v : Option α} (hv : g.getStoreValue k.key = v.map m)
    (hc : ∀ a, cast (m a) = some a) : g.getAs cast k.key = .ok v := by
  unfold TraceGenerator.getAs
  rw [hv]
  cases v with
  | none => rfl
  | some a =>
      dsimp only [Option.map_some]
      rw [hc]

theorem popAs_eq {α : Type} {cast : StoreValue → Option α} {m : α → StoreValue} {k : Slot}
    {v : Option α} (hv : g.getStoreValue k.key = v.map m)
    (hc : ∀ a, cast (m a) = some a) :
    g.popAs cast k.key = .ok (v, g.deleteFromStore k.key) := by
  unfold TraceGenerator.popAs
  rw [getAs_eq hv hc]
  rfl

theorem Refines.editBlock (h : Refines g s) (edit : List Expr → List Expr) :
    Refines (g.editBlock edit) { s with blocks := s.blocks.editBlock edit } := by
  obtain ⟨hframe, hstore⟩ := editBlock_fields g edit
  have hps : (s.blocks.editBlock edit).promiseSet = s.blocks.promiseSet :=
    BlockBrackets.promiseSet_editBlock ..
  refine ⟨?_, hframe.trans h.frame, fun slot => ?_⟩
  · rw [hps, blockPart_editBlock, h.blocks]
  · have hs : (g.editBlock edit).getStoreValue slot.key = g.getStoreValue slot.key := by
      unfold TraceGenerator.getStoreValue
      rw [hstore]
    rw [hs, h.store]
    cases slot with
    | promises =>
        show _ = if s.started then some (StoreValue.idSet (s.blocks.editBlock edit).promiseSet)
          else none
        rw [hps]
        rfl
    | _ => rfl

theorem Refines.openBlock (h : Refines g s) (b : Block) :
    Refines (g.openBlock b) { s with blocks := s.blocks.openBlock b } where
  blocks := by
    rw [← h.blocks]
    rfl
  frame := h.frame
  store slot := (h.store slot).trans (by cases slot <;> rfl)

theorem Refines.popBlock (h : Refines g s) :
    Refines g.popBlock { s with blocks := s.blocks.popBlock } where
  blocks := by
    rw [← h.blocks]
    rfl
  frame := h.frame
  store slot := (h.store slot).trans (by cases slot <;> rfl)

theorem Refines.addMainBlock (h : Refines g s) :
    Refines (addMainBlock g) { s with blocks := BlockBrackets.addMainBlock s.blocks } where
  blocks := by
    rw [← h.blocks]
    rfl
  frame := h.frame
  store slot := (h.store slot).trans (by cases slot <;> rfl)

theorem Refines.pushFunction (h : Refines g s) (name : String) :
    Refines (g.pushFunction name) { s with callStack := name :: s.callStack } where
  blocks := h.blocks
  frame := congrArg (Prod.map (name :: ·) id) h.frame
  store slot := (h.store slot).trans (by cases slot <;> rfl)

theorem Refines.popStack (h : Refines g s) :
    Refines g.popStack { s with callStack := s.callStack.tail } where
  blocks := h.blocks
  frame := congrArg (Prod.map List.tail id) h.frame
  store slot := (h.store slot).trans (by cases slot <;> rfl)

theorem Refines.countEvent (h : Refines g s) :
    Refines { g with eventCount := g.eventCount + 1 }
      { s with eventCount := s.eventCount + 1 } where
  blocks := h.blocks
  frame := congrArg (Prod.map id (Prod.map (· + 1) id)) h.frame
  store slot := (h.store slot).trans (by cases slot <;> rfl)

theorem Refines.countSyncOp (h : Refines g s) :
    Refines { g with syncOpCount := g.syncOpCount + 1 }
      { s with syncOpCount := s.syncOpCount + 1 } where
  blocks := h.blocks
  frame := congrArg (Prod.map id (Prod.map id (Prod.map (· + 1) id))) h.frame
  store slot := (h.store slot).trans (by cases slot <;> rfl)

/-- A new value of a slot. -/
theorem Refines.addToStore (h : Refines g s) {s' : System} (slot : Slot) (value : StoreValue)
    (hb : g.blockPart s'.blocks.promiseSet = s'.blocks) (hf : s'.frame = s.frame)
    (hc : ∀ x, s'.content x = if slot = x then some value else s.content x) :
    Refines (g.addToStore slot.key value) s' where
  blocks := hb
  frame := h.frame.trans hf.symm
  store x := by rw [getStoreValue_addToStore, h.store, hc]

/-- A slot is cleared. -/
theorem Refines.deleteFromStore (h : Refines g s) {s' : System} (slot : Slot)
    (hb : g.blockPart s'.blocks.promiseSet = s'.blocks) (hf : s'.frame = s.frame)
    (hc : ∀ x, s'.content x = if slot = x then none else s.content x) :
    Refines (g.deleteFromStore slot.key) s' where
  blocks := hb
  frame := h.frame.trans hf.symm
  store x := by rw [getStoreValue_deleteFromStore, h.store, hc]

theorem worker_setWorker (p : Pool) (t u : Nat) (w : Worker) :
    (p.setWorker t w).worker u = if t = u then w else p.worker u := by
  show Function.update p.worker t w u = _
  rw [Function.update_apply]
  simp only [eq_comm]

section Thread

variable (s) (t : Nat)

theorem content_workCount (v : Option Nat) (x : Slot) :
    System.content { s with pool := s.pool.setWorker t { s.pool.worker t with workCount := v } } x =
      if .workCount t = x then v.map .workCount else s.content x := by
  cases x with
  | workCount u =>
      simp only [System.content, worker_setWorker, Slot.workCount.injEq]
      split <;> rfl
  | current u =>
      simp only [System.content, worker_setWorker, reduceCtorEq, if_false]
      split
      · rename_i hu
        rw [hu]
      · rfl
  | opening u =>
      simp only [System.content, worker_setWorker, reduceCtorEq, if_false]
      split
      · rename_i hu
        rw [hu]
      · rfl
  | _ => rfl

theorem content_current (v : Option Nat) (x : Slot) :
    System.content { s with pool := s.pool.setWorker t { s.pool.worker t with current := v } } x =
      if .current t = x then v.map .execOp else s.content x := by
  cases x with
  | workCount u =>
      simp only [System.content, worker_setWorker, reduceCtorEq, if_false]
      split
      · rename_i hu
        rw [hu]
      · rfl
  | current u =>
      simp only [System.content, worker_setWorker, Slot.current.injEq]
      split <;> rfl
  | opening u =>
      simp only [System.content, worker_setWorker, reduceCtorEq, if_false]
      split
      · rename_i hu
        rw [hu]
      · rfl
  | _ => rfl

theorem content_opening (v : Option String) (x : Slot) :
    System.content { s with pool := s.pool.setWorker t { s.pool.worker t with opening := v } } x =
      if .opening t = x then v.map .path else s.content x := by
  cases x with
  | workCount u =>
      simp only [System.content, worker_setWorker, reduceCtorEq, if_false]
      split
      · rename_i hu
        rw [hu]
      · rfl
  | current u =>
      simp only [System.content, worker_setWorker, reduceCtorEq, if_false]
      split
      · rename_i hu
        rw [hu]
      · rfl
  | opening u =>
      simp only [System.content, worker_setWorker, Slot.opening.injEq]
      split <;> rfl
  | _ => rfl

theorem content_pending (request : Nat) (v : Option String) (x : Slot) :
    System.content { s with pool := { s.pool with
      pending := Function.update s.pool.pending request v } } x =
      if .pending request = x then v.map .opId else s.content x := by
  cases x with
  | pending ptr =>
      simp only [System.content, Function.update_apply, Slot.pending.injEq, eq_comm (a := ptr)]
      split <;> rfl
  | _ => rfl

end Thread

theorem Refines.setPending (h : Refines g s) (request : Nat) (id : String) :
    Refines (g.addToStore (opKey (ptrToString request)) (.opId id))
      { s with pool := s.pool.submit request id } :=
  h.addToStore (.pending request) _ h.blocks rfl (content_pending s request (some id))

theorem Refines.popPending (h : Refines g s) (request : Nat) :
    Refines (g.deleteFromStore (opKey (ptrToString request)))
      { s with pool := { s.pool with pending := Function.update s.pool.pending request none } } :=
  h.deleteFromStore (.pending request) h.blocks rfl (content_pending s request none)

theorem Refines.setWorkCount (h : Refines g s) (t n : Nat) :
    Refines (g.addToStore (countKey t) (.workCount n))
      { s with pool := s.pool.setWorker t { s.pool.worker t with workCount := some n } } :=
  h.addToStore (.workCount t) _ h.blocks rfl (content_workCount s t (some n))

theorem Refines.popWorkCount (h : Refines g s) (t : Nat) :
    Refines (g.deleteFromStore (countKey t))
      { s with pool := s.pool.setWorker t { s.pool.worker t with workCount := none } } :=
  h.deleteFromStore (.workCount t) h.blocks rfl (content_workCount s t none)

theorem Refines.setCurrent (h : Refines g s) (t i : Nat) :
    Refines (g.addToStore (threadKey t) (.execOp i))
      { s with pool := s.pool.setWorker t { s.pool.worker t with current := some i } } :=
  h.addToStore (.current t) _ h.blocks rfl (content_current s t (some i))

theorem Refines.popCurrent (h : Refines g s) (t : Nat) :
    Refines (g.deleteFromStore (threadKey t))
      { s with pool := s.pool.setWorker t { s.pool.worker t with current := none } } :=
  h.deleteFromStore (.current t) h.blocks rfl (content_current s t none)

theorem Refines.setOpening (h : Refines g s) (t : Nat) (path : String) :
    Refines (g.addToStore (openKey t) (.path path))
      { s with pool := s.pool.setWorker t { s.pool.worker t with opening := some path } } :=
  h.addToStore (.opening t) _ h.blocks rfl (content_opening s t (some path))

theorem Refines.popOpening (h : Refines g s) (t : Nat) :
    Refines (g.deleteFromStore (openKey t))
      { s with pool := s.pool.setWorker t { s.pool.worker t with opening := none } } :=
  h.deleteFromStore (.opening t) h.blocks rfl (content_opening s t none)

theorem Refines.addExecOp (h : Refines g s) (e : ExecOp) :
    Refines (g.addExecOp e)
      { s with pool := { s.pool with execOps := s.pool.execOps ++ [e] } } where
  blocks := h.blocks
  frame := congrArg (Prod.map id (Prod.map id (Prod.map id (· ++ [e])))) h.frame
  store slot := (h.store slot).trans (by cases slot <;> rfl)

theorem Refines.editExecOp (h : Refines g s) (i : Nat) (f : ExecOp → ExecOp) :
    Refines (g.editExecOp i f)
      { s with pool := { s.pool with execOps := s.pool.execOps.modify i f } } where
  blocks := h.blocks
  frame := congrArg (Prod.map id (Prod.map id (Prod.map id (·.modify i f)))) h.frame
  store slot := (h.store slot).trans (by cases slot <;> rfl)

theorem Refines.execOps (h : Refines g s) : g.trace.execOps = s.pool.execOps :=
  congrArg (·.2.2.2) h.frame

end Primitives

/-! ## 3. The wrappers of the threads -/

section Threads

variable {g : TraceGenerator} {s : System}

@[simp] theorem setWorker_setWorker (p : Pool) (t : Nat) (w w' : Worker) :
    (p.setWorker t w).setWorker t w' = p.setWorker t w' := by
  simp [Pool.setWorker]

@[simp] theorem worker_setWorker_self (p : Pool) (t : Nat) (w : Worker) :
    (p.setWorker t w).worker t = w := by
  rw [worker_setWorker, if_pos rfl]

theorem Refines.countEntry (h : Refines g s) (t : Nat) :
    ∃ g', NodeGenerator.countEntry g t = .ok g' ∧
      Refines g' { s with pool := s.pool.setWorker t { s.pool.worker t with
        workCount := some ((s.pool.worker t).workCount.getD 0 + 1) } } := by
  have hget : g.getAs StoreValue.asWorkCount (countKey t) = .ok (s.pool.worker t).workCount :=
    getAs_eq (k := .workCount t) (h.store _) fun _ => rfl
  refine ⟨_, ?_, h.setWorkCount t ((s.pool.worker t).workCount.getD 0 + 1)⟩
  unfold NodeGenerator.countEntry
  rw [hget]
  cases (s.pool.worker t).workCount <;> rfl

/-- **Entering `uv__fs_work`.** -/
theorem Refines.start (h : Refines g s) (t ptr : Nat) : ∃ g', wrapPreUvFsWork g t ptr = .ok g' ∧
    Refines g' { s with pool := s.pool.start t (ptr - workerOffset) } := by
  obtain ⟨g₁, hg₁, h₁⟩ := h.countEntry t
  have hpop : g₁.popAs StoreValue.asOpId (opKey (ptrToString (ptr - workerOffset))) =
      .ok (s.pool.pending (ptr - workerOffset),
        g₁.deleteFromStore (opKey (ptrToString (ptr - workerOffset)))) :=
    popAs_eq (k := .pending (ptr - workerOffset)) (h₁.store _) fun _ => rfl
  have h₂ := h₁.popPending (ptr - workerOffset)
  unfold wrapPreUvFsWork
  dsimp only
  rw [hg₁]
  show ∃ g', (g₁.popAs StoreValue.asOpId _).bind _ = _ ∧ _
  rw [hpop]
  unfold Pool.start
  cases hp : s.pool.pending (ptr - workerOffset) with
  | none =>
      refine ⟨_, rfl, ?_⟩
      have hup : Function.update s.pool.pending (ptr - workerOffset) none = s.pool.pending := by
        rw [← hp, Function.update_eq_self]
      rw [show (s.pool.setWorker t _).pending = s.pool.pending from rfl, hup] at h₂
      exact h₂
  | some id =>
      refine ⟨_, rfl, ?_⟩
      have hl : (g₁.deleteFromStore (opKey (ptrToString (ptr - workerOffset)))).trace.execOps =
        s.pool.execOps := h₂.execOps
      have h₃ := (h₂.setCurrent t s.pool.execOps.length).addExecOp ⟨id, []⟩
      rw [hl]
      simpa [Pool.setWorker] using h₃

/-- **Leaving `uv__fs_work`.** -/
theorem Refines.leave (h : Refines g s) (t : Nat) : ∃ g', wrapPostUvFsWork g t = .ok g' ∧
    Refines g' { s with pool := s.pool.leave t } := by
  have hget : g.getAs StoreValue.asWorkCount (countKey t) = .ok (s.pool.worker t).workCount :=
    getAs_eq (k := .workCount t) (h.store _) fun _ => rfl
  have hclear := (h.popWorkCount t).popCurrent t
  unfold wrapPostUvFsWork Pool.leave
  rw [hget]
  dsimp only
  cases hw : (s.pool.worker t).workCount with
  | none => exact ⟨_, rfl, h⟩
  | some n =>
      by_cases hn : n ≤ 1
      · refine ⟨_, if_pos (by omega), ?_⟩
        simpa [hn] using hclear
      · refine ⟨_, if_neg (by omega), ?_⟩
        simpa [hn] using h

/-! ## 4. The wrappers of the system calls -/

theorem Refines.getExecOp (h : Refines g s) (t : Nat) :
    getExecOp g t = .ok (s.pool.worker t).current :=
  getAs_eq (k := .current t) (h.store _) fun _ => rfl

theorem edit_some {p : Pool} {t i : Nat} (hi : (p.worker t).current = some i)
    (f : ExecOp → ExecOp) : p.edit t f = { p with execOps := p.execOps.modify i f } := by
  unfold Pool.edit
  rw [hi]

theorem edit_none {p : Pool} {t : Nat} (hi : (p.worker t).current = none) (f : ExecOp → ExecOp) :
    p.edit t f = p := by
  unfold Pool.edit
  rw [hi]

theorem Refines.edit (h : Refines g s) (t : Nat) (f : ExecOp → ExecOp) {i : Nat}
    (hi : (s.pool.worker t).current = some i) :
    Refines (g.editExecOp i f) { s with pool := s.pool.edit t f } := by
  rw [edit_some hi]
  exact h.editExecOp i f

theorem Refines.emitOperation (h : Refines g s) (t : Nat) (op : Operation) :
    ∃ g', NodeGenerator.emitOperation g t op = .ok g' ∧
      Refines g' { s with pool := s.pool.record t [op] } := by
  unfold NodeGenerator.emitOperation
  rw [h.getExecOp]
  cases hi : (s.pool.worker t).current with
  | none =>
      refine ⟨_, rfl, ?_⟩
      unfold Pool.record
      rw [edit_none hi]
      exact h
  | some i => exact ⟨_, rfl, h.edit t _ hi⟩

theorem worker_record (p : Pool) (t u : Nat) (ops : List Operation) :
    (p.record t ops).worker u = p.worker u := by
  unfold Pool.record Pool.edit
  split <;> rfl

theorem worker_edit (p : Pool) (t : Nat) (f : ExecOp → ExecOp) :
    (p.edit t f).worker = p.worker := by
  unfold Pool.edit
  split <;> rfl

theorem edit_edit (p : Pool) (t : Nat) (f f' : ExecOp → ExecOp) :
    (p.edit t f).edit t f' = p.edit t (f' ∘ f) := by
  cases hi : (p.worker t).current with
  | none => rw [edit_none hi, edit_none hi, edit_none hi]
  | some i =>
      rw [edit_some hi, edit_some hi]
      unfold Pool.edit
      dsimp only
      rw [hi]
      dsimp only
      rw [List.modify_modify_eq]

/-- Operations that are recorded one after the other. -/
theorem record_record (p : Pool) (t : Nat) (ops ops' : List Operation) :
    (p.record t ops).record t ops' = p.record t (ops ++ ops') := by
  unfold Pool.record
  rw [edit_edit]
  congr 1
  funext e
  simp

/-- Three operations of one call. -/
theorem Refines.emitThree (h : Refines g s) (t : Nat) (a b c : Operation) :
    ∃ g', (do
      let g ← NodeGenerator.emitOperation g t a
      let g ← NodeGenerator.emitOperation g t b
      NodeGenerator.emitOperation g t c) = .ok g' ∧
      Refines g' { s with pool := s.pool.record t [a, b, c] } := by
  obtain ⟨g₁, hg₁, h₁⟩ := h.emitOperation t a
  obtain ⟨g₂, hg₂, h₂⟩ := h₁.emitOperation t b
  obtain ⟨g₃, hg₃, h₃⟩ := h₂.emitOperation t c
  refine ⟨g₃, ?_, ?_⟩
  · rw [hg₁]
    show (NodeGenerator.emitOperation g₁ t b).bind _ = _
    rw [hg₂]
    exact hg₃
  · simpa only [record_record, List.cons_append, List.nil_append] using h₃

/-- **A system call.** -/
theorem Refines.sysCall (h : Refines g s) (t : Nat) (call : SysCall) :
    ∃ g', wrapPreSysCall g t call = .ok g' ∧
      Refines g' { s with pool := s.pool.sysCall t call } := by
  cases call with
  | openFile path flags =>
      obtain ⟨g₁, hg₁, h₁⟩ := h.emitOperation t
        ⟨.hpath atFdcwd path (if flags % 4 = 0 then .consumed else .produced), false, "open"⟩
      refine ⟨g₁.addToStore (openKey t) (.path path), ?_, h₁.setOpening t path⟩
      show (NodeGenerator.emitOperation g t _).bind _ = _
      rw [hg₁]
      rfl
  | link oldPath newPath => exact h.emitThree t _ _ _
  | rename oldPath newPath => exact h.emitThree t _ _ _
  | _ => exact h.emitOperation t _

theorem Refines.markOperationStatus (h : Refines g s) (t : Nat) (retVal : Int) :
    ∃ g', wrapPostStatus g t retVal = .ok g' ∧
      Refines g' { s with
        pool := if retVal < 0 then s.pool.edit t ExecOp.markLastOperationFailed else s.pool } := by
  unfold wrapPostStatus NodeGenerator.markOperationStatus
  rw [h.getExecOp]
  cases hi : (s.pool.worker t).current with
  | none =>
      refine ⟨_, rfl, ?_⟩
      rw [edit_none hi, ite_self]
      exact h
  | some i =>
      by_cases hr : retVal < 0
      · refine ⟨_, if_pos hr, ?_⟩
        rw [if_pos hr]
        exact h.edit t _ hi
      · refine ⟨_, if_neg hr, ?_⟩
        rw [if_neg hr]
        exact h

theorem wrapPostSysCall_eq (t : Nat) (retVal : Int) {call : SysCall} (h : call.opens = none) :
    wrapPostSysCall g t retVal call =
      if call.hasStatus then wrapPostStatus g t retVal else .ok g := by
  cases call with
  | openFile path flags => cases h
  | _ => rfl

/-- **The return of a system call**; an `open` that returns was made. -/
theorem Refines.sysReturn (h : Refines g s) (t : Nat) (call : SysCall) (retVal : Int)
    (ho : call.opens.isSome → (s.pool.worker t).opening.isSome) :
    ∃ g', wrapPostSysCall g t retVal call = .ok g' ∧
      Refines g' { s with pool := s.pool.sysReturn t call retVal } := by
  cases hopens : call.opens with
  | none =>
      rw [wrapPostSysCall_eq t retVal hopens]
      cases hs : call.hasStatus with
      | true => simpa [Pool.sysReturn, hopens, hs] using h.markOperationStatus t retVal
      | false => exact ⟨g, rfl, by simpa [Pool.sysReturn, hopens, hs] using h⟩
  | some path =>
      obtain ⟨path', hp⟩ := Option.isSome_iff_exists.mp (ho (by rw [hopens]; rfl))
      have hpop : g.popAs StoreValue.asPath (openKey t) =
          .ok (some path', g.deleteFromStore (openKey t)) := by
        rw [← hp]
        exact popAs_eq (k := .opening t) (h.store _) fun _ => rfl
      obtain ⟨g₁, hg₁, h₁⟩ := (h.popOpening t).emitOperation t
        ⟨.newFd atFdcwd path' retVal, decide (retVal < 0), "open"⟩
      have hw : wrapPostSysCall g t retVal call = wrapPostOpen g t retVal := by
        cases call with
        | openFile path flags => rfl
        | _ => cases hopens
      refine ⟨g₁, ?_, by simpa [Pool.sysReturn, hopens, hp] using h₁⟩
      rw [hw]
      show (g.popAs StoreValue.asPath (openKey t)).bind _ = _
      rw [hpop]
      exact hg₁

end Threads

/-! ## 5. The wrappers of the main thread -/

section Main

variable {g : TraceGenerator} {s : System}

theorem Refines.getCurrentBlock (h : Refines g s) :
    g.getCurrentBlock = s.blocks.getCurrentBlock := by
  rw [← h.blocks]
  rfl

theorem Refines.checkBlock (h : Refines g s) {before : List Block} {block : Block}
    (hb : AtEnd s.blocks before block) (msg : String) : checkBlock g msg = .ok block := by
  unfold NodeGenerator.checkBlock
  rw [h.getCurrentBlock, hb.getCurrentBlock]

theorem Refines.addExpr (h : Refines g s) (e : Expr) :
    Refines (g.addExpr e) { s with blocks := BlockBrackets.step s.blocks (.addExpr e) } :=
  h.editBlock _

theorem Refines.popExpr (h : Refines g s) :
    Refines g.popExpr { s with blocks := BlockBrackets.step s.blocks .popExpr } :=
  h.editBlock _

theorem Refines.setExprDebugInfo (h : Refines g s) (index : Nat) (tag : String) :
    Refines (g.setExprDebugInfo index tag)
      { s with blocks := BlockBrackets.step s.blocks (.setExprDebugInfo index tag) } :=
  h.editBlock _

theorem Refines.setCreatedEvent (h : Refines g s) (id : Nat) :
    Refines (g.addToStore emitInitKey (.eventId id)) { s with createdEvent := some id } :=
  h.addToStore .createdEvent _ h.blocks rfl fun x => by cases x <;> rfl

theorem Refines.popCreatedEvent (h : Refines g s) :
    Refines (g.deleteFromStore emitInitKey) { s with createdEvent := none } :=
  h.deleteFromStore .createdEvent h.blocks rfl fun x => by cases x <;> rfl

theorem Refines.setPromiseEvent (h : Refines g s) :
    Refines (wrapPrePromiseWrap g) { s with promiseEvent := true } :=
  h.addToStore .promiseEvent _ h.blocks rfl fun x => by cases x <;> rfl

theorem Refines.popPromiseEvent (h : Refines g s) :
    Refines (g.deleteFromStore promiseEventKey) { s with promiseEvent := false } :=
  h.deleteFromStore .promiseEvent h.blocks rfl fun x => by cases x <;> rfl

theorem Refines.addPromise (h : Refines g s) (hs : s.started = true) (x : Nat) :
    ∃ g', addToSet g x promiseSetKey = .ok g' ∧
      Refines g' { s with blocks := BlockBrackets.step s.blocks (.addPromise x) } := by
  have hget : g.getAs StoreValue.asIdSet promiseSetKey = .ok (some s.blocks.promiseSet) := by
    refine getAs_eq (k := .promises) (m := .idSet) ?_ fun _ => rfl
    rw [h.store]
    exact if_pos hs
  refine ⟨g.addToStore promiseSetKey (.idSet (x :: s.blocks.promiseSet)), ?_,
    h.addToStore .promises _ ?_ rfl fun y => ?_⟩
  · unfold addToSet
    rw [hget]
    rfl
  · rw [← h.blocks]
    rfl
  · cases y with
    | promises => exact if_pos hs
    | _ => rfl

theorem Refines.addTimer (h : Refines g s) (hs : s.started = true) (x : Nat) :
    ∃ g', addToSet g x timerSetKey = .ok g' ∧ Refines g' { s with timers := x :: s.timers } := by
  have hget : g.getAs StoreValue.asIdSet timerSetKey = .ok (some s.timers) := by
    refine getAs_eq (k := .timers) (m := .idSet) ?_ fun _ => rfl
    rw [h.store]
    exact if_pos hs
  refine ⟨g.addToStore timerSetKey (.idSet (x :: s.timers)), ?_,
    h.addToStore .timers _ h.blocks rfl fun y => ?_⟩
  · unfold addToSet
    rw [hget]
    rfl
  · cases y with
    | timers => exact if_pos hs
    | _ => rfl

theorem Refines.hasPromise (h : Refines g s) (hs : s.started = true) (x : Nat) :
    hasEventId g x promiseSetKey = .ok (decide (x ∈ s.blocks.promiseSet)) := by
  have hget : g.getAs StoreValue.asIdSet promiseSetKey = .ok (some s.blocks.promiseSet) := by
    refine getAs_eq (k := .promises) (m := .idSet) ?_ fun _ => rfl
    rw [h.store]
    exact if_pos hs
  unfold hasEventId
  rw [hget]
  rfl

/-- `wrap_pre_emit_before`. -/
theorem Refines.emitBefore (h : Refines g s) (hs : s.started = true) (x t : Nat) :
    ∃ g', wrapPreEmitBefore g x t = .ok g' ∧
      Refines g' { s with blocks := BlockBrackets.wrapPreEmitBefore s.blocks x t } := by
  unfold wrapPreEmitBefore BlockBrackets.wrapPreEmitBefore
  by_cases hx : x = 0 ∨ x = 1
  · rw [if_pos hx, if_pos hx]
    exact ⟨_, rfl, h⟩
  · rw [if_neg hx, if_neg hx, h.hasPromise hs, h.getCurrentBlock]
    simp only [pure, Except.pure, bind, Except.bind, decide_eq_true_eq]
    cases hcur : s.blocks.getCurrentBlock with
    | none => exact ⟨_, rfl, h.openBlock _⟩
    | some block =>
        dsimp only
        by_cases hm : ¬ block.isMain = true
        · rw [if_pos hm, if_pos hm]
          exact ⟨_, rfl, h.editBlock _⟩
        · rw [if_neg hm, if_neg hm]
          by_cases hl : block.exprs.length = 0
          · rw [if_pos hl, if_pos hl]
            exact ⟨_, rfl, h.popBlock.openBlock _⟩
          · rw [if_neg hl, if_neg hl]
            exact ⟨_, rfl, h.openBlock _⟩

/-- `wrap_pre_emit_after`. -/
theorem Refines.emitAfter (h : Refines g s) (hs : s.started = true) (x : Nat) :
    ∃ g', wrapPreEmitAfter g x = .ok g' ∧
      Refines g' { s with blocks := BlockBrackets.wrapPreEmitAfter s.blocks x } := by
  unfold wrapPreEmitAfter BlockBrackets.wrapPreEmitAfter
  rw [h.getCurrentBlock, h.hasPromise hs]
  simp only [pure, Except.pure, bind, Except.bind, decide_eq_true_eq]
  cases hcur : s.blocks.getCurrentBlock with
  | none => exact ⟨_, rfl, h⟩
  | some block =>
      dsimp only
      by_cases hid : block.blockId = x
      · rw [if_pos hid, if_pos hid]
        exact ⟨_, rfl, h.addMainBlock⟩
      · rw [if_neg hid, if_neg hid]
        by_cases hp : x ∈ s.blocks.promiseSet
        · rw [if_pos hp, if_pos hp]
          exact ⟨_, rfl, h.addMainBlock⟩
        · rw [if_neg hp, if_neg hp]
          exact ⟨_, rfl, h⟩

theorem Refines.addNewEvent (h : Refines g s) {before : List Block} {block : Block}
    (hb : AtEnd s.blocks before block) (x : Nat) (event : Event) (debugInfo : String) :
    addNewEventExpr g x event debugInfo false =
      .ok (g.addExpr (.newEvent ⟨x, event, if debugInfo ≠ "" then [debugInfo] else []⟩)) := by
  unfold addNewEventExpr
  rw [h.checkBlock hb]
  rfl

theorem Refines.addStoredEvent (h : Refines g s) {before : List Block} {block : Block}
    (hb : AtEnd s.blocks before block) (x : Nat) (event : Event) :
    addNewEventExpr g x event "" true =
      .ok ((g.addExpr (.newEvent ⟨x, event, []⟩)).addToStore emitInitKey (.eventId x)) := by
  unfold addNewEventExpr
  rw [h.checkBlock hb]
  rfl

/-- `wrap_pre_emit_init`, in the order of its cases. -/
theorem Refines.emitInit (h : Refines g s) (hs : s.started = true) (hstack : s.callStack ≠ [])
    {before : List Block} {block : Block} (hb : AtEnd s.blocks before block) (x t : Nat) :
    ∃ g', wrapPreEmitInit g x t = .ok g' ∧
      Refines g' { s with
        eventCount := s.eventCount + 1
        createdEvent := s.nextCreatedEvent (.node (.emitAsyncInit x t))
        promiseEvent := s.nextPromiseEvent (.node (.emitAsyncInit x t))
        blocks :=
          (s.commands (.node (.emitAsyncInit x t))).foldl BlockBrackets.step s.blocks } := by
  obtain ⟨top, rest, hst⟩ := List.exists_cons_of_ne_nil hstack
  have hhead : s.callStack.head? = some top := by rw [hst]; rfl
  have h₁ := h.countEvent
  unfold wrapPreEmitInit
  dsimp only
  generalize ({ g with eventCount := g.eventCount + 1 } : TraceGenerator) = g₁ at h₁ ⊢
  have htop : g₁.topStack = .ok top := by
    unfold TraceGenerator.topStack
    rw [show g₁.callStack = top :: rest from (congrArg (·.1) h₁.frame).trans hst]
  have hpop : g₁.popAs StoreValue.asIsPromise promiseEventKey =
      .ok (if s.promiseEvent then some true else none, g₁.deleteFromStore promiseEventKey) := by
    refine popAs_eq (k := .promiseEvent) (m := .isPromise) ?_ fun _ => rfl
    rw [h₁.store]
    show (if s.promiseEvent then _ else _) = _
    split <;> rfl
  have h₂ := h₁.popPromiseEvent
  rw [htop]
  show ∃ g', (if top = newTimerWrap then _ else (TraceGenerator.popAs _ _ _).bind _) = _ ∧ _
  rw [hpop]
  unfold System.commands System.nextCreatedEvent System.nextPromiseEvent
  simp only [hhead, Option.some.injEq]
  by_cases ht : top = newTimerWrap
  · rw [if_pos ht, if_pos ht, if_pos (.inl ht), h₁.addNewEvent hb]
    refine ⟨_, rfl, ?_⟩
    simpa [ht] using h₁.addExpr _
  · rw [if_neg ht, if_neg ht]
    cases hp : s.promiseEvent with
    | true =>
        obtain ⟨g₃, hg₃, h₃⟩ := h₂.addPromise hs x
        exact ⟨g₃, hg₃, by simpa [ht] using h₃⟩
    | false =>
        have h₃ := ((h₂.addExpr (.newEvent ⟨x, ⟨.EXT, 0⟩, []⟩)).setCreatedEvent x).addExpr
          (.link ⟨t, x, []⟩)
        refine ⟨(((g₁.deleteFromStore promiseEventKey).addExpr
          (.newEvent ⟨x, ⟨.EXT, 0⟩, []⟩)).addToStore emitInitKey (.eventId x)).addExpr
            (.link ⟨t, x, []⟩), ?_, by simpa [ht] using h₃⟩
        show (addNewEventExpr _ x ⟨.EXT, 0⟩ "" true).bind _ = _
        rw [h₂.addStoredEvent hb]
        rfl

/-- `wrap_pre_start`. -/
theorem Refines.nodeStart (h : Refines g s) : Refines (wrapPreStart g) { s with
    started := true
    eventCount := s.eventCount + 1
    timers := []
    blocks := BlockBrackets.addMainBlock { s.blocks with promiseSet := [] } } := by
  have h₁ : Refines ((g.addToStore promiseSetKey (.idSet [])).addToStore timerSetKey (.idSet []))
      { s with started := true, timers := [], blocks := { s.blocks with promiseSet := [] } } := by
    refine ⟨?_, h.frame, fun x => ?_⟩
    · rw [← h.blocks]
      rfl
    · have hp : (g.addToStore promiseSetKey (.idSet [])).getStoreValue x.key = _ :=
        getStoreValue_addToStore .promises x _
      refine (getStoreValue_addToStore .timers x _).trans ?_
      rw [hp, h.store]
      cases x <;> rfl
  exact h₁.addMainBlock.countEvent

theorem size_eq {before : List Block} {block : Block} (hb : AtEnd s.blocks before block) :
    s.size = block.exprs.length := by
  unfold System.size
  rw [hb.getCurrentBlock]
  rfl

/-- The second half of `AddSubmitOp`. -/
theorem Refines.submit (h : Refines g s) {before : List Block} {block : Block}
    (hb : AtEnd s.blocks before block) (sub : Submission) (opName : String) :
    ∃ g', submit g sub.request sub.id sub.eventId opName = .ok g' ∧ Refines g' { s with
      blocks := (s.submitCommands opName sub).foldl BlockBrackets.step s.blocks
      pool := s.pool.submit sub.request sub.id } := by
  unfold NodeGenerator.submit System.submitCommands
  rw [h.checkBlock hb, size_eq hb]
  have h₁ := h.setPending sub.request sub.id
  by_cases hc : 2 ≤ block.exprs.length ∧ sub.eventId.isSome = true
  · simp only [bind, Except.bind, pure, Except.pure, if_pos hc]
    exact ⟨_, rfl, ((h₁.setExprDebugInfo (block.exprs.length - 2) "fs").setExprDebugInfo
      (block.exprs.length - 2) opName).addExpr (.submitOp ⟨sub.id, sub.eventId, [opName]⟩)⟩
  · simp only [bind, Except.bind, pure, Except.pure, if_neg hc]
    exact ⟨_, rfl, h₁.addExpr (.submitOp ⟨sub.id, sub.eventId, [opName]⟩)⟩

theorem wrapPreUvFs_eq (g : TraceGenerator) (args : List Nat) (f : UvFs) :
    wrapPreUvFs g args f = addSubmitOp g args f.opName f.asyncPos := by
  cases f <;> rfl

theorem nextBlocks_uvFs (s : System) (f : UvFs) (args : List Nat) : s.nextBlocks (.uvFs f args) =
    ((s.submission f args).elim [] (s.submitCommands f.opName)).foldl BlockBrackets.step s.blocks :=
  rfl

theorem poolEvents_uvFs (s : System) (f : UvFs) (args : List Nat) : s.poolEvents (.uvFs f args) =
    ((s.submission f args).map fun sub => .submit sub.request sub.id).toList := rfl

theorem step_submission {f : UvFs} {args : List Nat} {sub : Submission}
    (hsub : s.submission f args = some sub) : s.step (.uvFs f args) = { s with
      syncOpCount := s.nextSyncOpCount (.uvFs f args)
      createdEvent := s.nextCreatedEvent (.uvFs f args)
      blocks := (s.submitCommands f.opName sub).foldl BlockBrackets.step s.blocks
      pool := s.pool.submit sub.request sub.id } := by
  unfold System.step
  rw [nextBlocks_uvFs, poolEvents_uvFs, hsub]
  rfl

theorem step_noSubmission {f : UvFs} {args : List Nat} (hsub : s.submission f args = none) :
    s.step (.uvFs f args) = { s with createdEvent := none } := by
  have hc : getArg args f.asyncPos ≠ 0 := fun hc => by
    unfold System.submission at hsub
    rw [if_pos hc] at hsub
    cases hsub
  have hcreated : s.nextCreatedEvent (.uvFs f args) = none := if_neg hc
  have hcount : s.nextSyncOpCount (.uvFs f args) = s.syncOpCount := if_neg hc
  unfold System.step
  rw [nextBlocks_uvFs, poolEvents_uvFs, hsub, hcreated, hcount]
  rfl

/-- `AddSubmitOp`. -/
theorem Refines.uvFs (h : Refines g s) {before : List Block} {block : Block}
    (hb : AtEnd s.blocks before block) (f : UvFs) (args : List Nat) :
    ∃ g', wrapPreUvFs g args f = .ok g' ∧ Refines g' (s.step (.uvFs f args)) := by
  rw [wrapPreUvFs_eq]
  unfold addSubmitOp
  dsimp only
  by_cases hc : getArg args f.asyncPos = 0
  · have hsub : s.submission f args =
        some ⟨getArg args 1, "sync_" ++ toString (s.syncOpCount + 1), none⟩ := if_pos hc
    have hcount : g.syncOpCount = s.syncOpCount := congrArg (·.2.2.1) h.frame
    have hnext : s.nextSyncOpCount (.uvFs f args) = s.syncOpCount + 1 := if_pos hc
    have hcreated : s.nextCreatedEvent (.uvFs f args) = s.createdEvent := if_pos hc
    rw [if_pos hc, hcount, step_submission hsub, hnext, hcreated]
    have h₁ := h.countSyncOp
    rw [hcount] at h₁
    exact h₁.submit hb ⟨getArg args 1, "sync_" ++ toString (s.syncOpCount + 1), none⟩ f.opName
  · have hpop : g.popAs StoreValue.asEventId emitInitKey =
        .ok (s.createdEvent, g.deleteFromStore emitInitKey) :=
      popAs_eq (k := .createdEvent) (h.store _) fun _ => rfl
    have hsub : s.submission f args = s.createdEvent.map fun e =>
        ⟨getArg args 1, "async_" ++ toString e, some e⟩ := if_neg hc
    have h₁ := h.popCreatedEvent
    rw [if_neg hc, hpop]
    cases he : s.createdEvent with
    | none =>
        rw [he] at hsub
        rw [step_noSubmission hsub]
        exact ⟨_, rfl, h₁⟩
    | some e =>
        have hnext : s.nextSyncOpCount (.uvFs f args) = s.syncOpCount := if_neg hc
        have hcreated : s.nextCreatedEvent (.uvFs f args) = none := if_neg hc
        rw [he] at hsub
        rw [step_submission hsub, hnext, hcreated]
        exact h₁.submit hb ⟨getArg args 1, "async_" ++ toString e, some e⟩ f.opName

theorem Refines.newEvent (h : Refines g s) (e : NewEventExpr) :
    Refines (g.popExpr.addExpr (.newEvent e)) { s with
      blocks := [BlockBrackets.Callback.popExpr, .addExpr (.newEvent e)].foldl BlockBrackets.step
        s.blocks } :=
  h.popExpr.addExpr _

/-- **A call of a function of Node** after `node::Start`. -/
theorem Refines.node (h : Refines g s) (hs : s.started = true) (hstack : s.callStack ≠ [])
    {before : List Block} {block : Block} (hb : AtEnd s.blocks before block) (call : NodeCall) :
    ∃ g', step g (.node call) = .ok g' ∧ Refines g' (s.step (.node call)) := by
  have hcount : g.eventCount = s.eventCount := congrArg (·.2.1) h.frame
  have hpush : ∀ {g' s'}, wrapPreNode g call = .ok g' → Refines g' s' →
      ∃ g'', step g (.node call) = .ok g'' ∧
        Refines g'' { s' with callStack := call.funcName :: s'.callStack } := by
    intro g' s' hg' h'
    refine ⟨_, ?_, h'.pushFunction call.funcName⟩
    show (wrapPreNode g call).map _ = _
    rw [hg']
    rfl
  cases call with
  | start => exact hpush rfl h.nodeStart
  | pushAsyncIds x t =>
      obtain ⟨g', hg', h'⟩ := h.emitBefore hs x t
      exact hpush hg' h'
  | popAsyncId x =>
      obtain ⟨g', hg', h'⟩ := h.emitAfter hs x
      exact hpush hg' h'
  | emitAsyncInit x t =>
      obtain ⟨g', hg', h'⟩ := h.emitInit hs hstack hb x t
      exact hpush hg' h'
  | timerWrapNow =>
      obtain ⟨g₁, hg₁, h₁⟩ := (h.newEvent ⟨s.eventCount, ⟨.W, 1⟩, ["setTimeout"]⟩).addTimer hs
        s.eventCount
      refine hpush ?_ h₁
      show (NodeGenerator.checkBlock g _).bind _ = _
      rw [h.checkBlock hb, ← hg₁, ← hcount]
      rfl
  | timerWrapNew => exact hpush rfl h
  | emitPromiseResolve x =>
      refine hpush ?_ (h.countEvent.addExpr (.newEvent ⟨x, ⟨.S, 0⟩, ["promise"]⟩))
      show (NodeGenerator.checkBlock g _).bind _ = _
      rw [h.checkBlock hb]
      rfl
  | promiseWrapNew => exact hpush rfl h.setPromiseEvent
  | newAsyncId =>
      refine hpush ?_ (h.countEvent.addExpr
        (.newEvent ⟨s.eventCount + 1, ⟨.W, 3⟩, ["setImmediate"]⟩))
      show (NodeGenerator.checkBlock { g with eventCount := g.eventCount + 1 } _).bind _ = _
      rw [h.countEvent.checkBlock hb, ← hcount]
      rfl
  | newTickInfo =>
      refine hpush ?_ (h.newEvent ⟨s.eventCount, ⟨.S, 0⟩, ["nextTick"]⟩)
      show (NodeGenerator.checkBlock g _).bind _ = _
      rw [h.checkBlock hb, ← hcount]
      rfl

/-- `wrap_pre_thenable`. -/
theorem Refines.thenable (h : Refines g s) {before : List Block} {block : Block}
    (hb : AtEnd s.blocks before block) :
    ∃ g', step g .thenable = .ok g' ∧ Refines g' (s.step .thenable) := by
  refine ⟨_, ?_, h.popExpr⟩
  show (NodeGenerator.checkBlock g _).bind _ = _
  rw [h.checkBlock hb]
  rfl

end Main

/-! ## 6. Steps -/

/-- The callbacks of the main thread. -/
def Callback.isMain : Callback → Bool
  | .node _ | .nodeReturn | .thenable | .uvFs .. => true
  | .uvFsWork .. | .uvFsWorkReturn _ | .sysCall .. | .sysReturn .. => false

/-- **The tracer expects the callback**: `node::Start` surrounds those of the main thread, and an
    `open` that returns was called by its thread. -/
structure Enabled (s : System) (c : Callback) : Prop where
  inside : c.isMain = true → c ≠ .node .start → s.started = true ∧ s.callStack ≠ []
  opened : ∀ t call retVal, c = .sysReturn t call retVal → call.opens.isSome →
    (s.pool.worker t).opening.isSome

/-- **A step of the code is a step of the system.** -/
theorem step_refines {g : TraceGenerator} {s : System} {c : Callback} (h : Refines g s)
    (hb : s.started = true → ∃ before block, AtEnd s.blocks before block) (he : Enabled s c) :
    ∃ g', step g c = .ok g' ∧ Refines g' (s.step c) := by
  cases c with
  | node call =>
      by_cases hc : call = .start
      · subst hc
        exact ⟨_, rfl, h.nodeStart.pushFunction _⟩
      · obtain ⟨hs, hstack⟩ := he.inside rfl fun hcall => hc (Callback.node.inj hcall)
        obtain ⟨before, block, hb⟩ := hb hs
        exact h.node hs hstack hb call
  | nodeReturn => exact ⟨_, rfl, h.popStack⟩
  | thenable =>
      obtain ⟨before, block, hb⟩ := hb (he.inside rfl (by simp)).1
      exact h.thenable hb
  | uvFs f args =>
      obtain ⟨before, block, hb⟩ := hb (he.inside rfl (by simp)).1
      exact h.uvFs hb f args
  | uvFsWork t ptr => exact h.start t ptr
  | uvFsWorkReturn t => exact h.leave t
  | sysCall t call => exact h.sysCall t call
  | sysReturn t call retVal => exact h.sysReturn t call retVal (he.opened t call retVal rfl)

end NodeGenerator
end Fsracer

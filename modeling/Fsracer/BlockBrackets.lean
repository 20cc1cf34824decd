/-
  File:      Fsracer/BlockBrackets.lean
  Subject:   THE BLOCKS OF THE NODE TRACER (tools/drfsracer/NodeGenerator.cpp, the wrappers of
             `push_async_ids` and `pop_async_id`; lib/Trace.cpp, `PopBlock`).

  A callback that starts inside the block of another one becomes a trigger of that block. The
  tracer keeps no stack: a pop closes the current block if the ids agree, so the pop of a nested
  callback closes the block of the outer one where both have one id.

  * `atEnd_run` -- the current block is the last one of the trace, whatever is called;
  * `Brackets` -- an outermost push opens a block that takes what is emitted up to its own pop;
  * **`brackets_iff`** -- this holds of a well nested sequence iff no nested pop has the id of
    the outermost bracket around it (`NoReentry`).
-/
import Mathlib
import Fsracer.Trace
import Fsracer.Lib.Nesting

namespace Fsracer

namespace BlockBrackets

/-! ## 1. The tracer -/

/-- The fields of `DynamoTraceGenerator` that the wrappers use, the trace and the set that the
    store keeps under `PROMISE_SET`. A pointer to a block is its position in the trace. -/
structure TraceGenerator where
  blocks : List Block
  currentBlock : Option Nat
  mainBlockCount : Nat
  promiseSet : List Nat

namespace TraceGenerator

/-- `GetCurrentBlock`. -/
def getCurrentBlock (g : TraceGenerator) : Option Block := g.currentBlock.bind (g.blocks[·]?)

/-- `SetCurrentBlock` and `AddBlock` of a new block. -/
def openBlock (g : TraceGenerator) (b : Block) : TraceGenerator :=
  { g with blocks := g.blocks ++ [b], currentBlock := some g.blocks.length }

/-- `Trace::PopBlock`. -/
def popBlock (g : TraceGenerator) : TraceGenerator := { g with blocks := g.blocks.dropLast }

/-- A change of the expressions of the current block. -/
def editBlock (g : TraceGenerator) (edit : List Expr → List Expr) : TraceGenerator :=
  match g.currentBlock with
  | some i => { g with blocks := g.blocks.modify i fun b => { b with exprs := edit b.exprs } }
  | none => g

end TraceGenerator

open TraceGenerator

/-- `Expr::AddDebugInfo`. -/
def addDebugInfo (tag : String) : Expr → Expr
  | .submitOp e => .submitOp { e with debugInfo := e.debugInfo ++ [tag] }
  | .newEvent e => .newEvent { e with debugInfo := e.debugInfo ++ [tag] }
  | .link e => .link { e with debugInfo := e.debugInfo ++ [tag] }
  | .trigger e => .trigger { e with debugInfo := e.debugInfo ++ [tag] }

/-- `add_main_block`. -/
def addMainBlock (g : TraceGenerator) : TraceGenerator :=
  let g := { g with mainBlockCount := g.mainBlockCount + 1 }
  g.openBlock ⟨g.mainBlockCount, .MAIN, []⟩

/-- `wrap_pre_start`. -/
def wrapPreStart : TraceGenerator := addMainBlock ⟨[], none, 0, []⟩

/-- `wrap_pre_emit_before`, the wrapper of `push_async_ids`. -/
def wrapPreEmitBefore (g : TraceGenerator) (asyncId triggerAsyncId : Nat) : TraceGenerator :=
  if asyncId = 0 ∨ asyncId = 1 then g
  else
    let id := if asyncId ∈ g.promiseSet then triggerAsyncId else asyncId
    match g.getCurrentBlock with
    | some block =>
        if ¬ block.isMain then g.editBlock fun es => es ++ [.trigger ⟨asyncId, []⟩]
        else if block.exprs.length = 0 then g.popBlock.openBlock ⟨id, .REG, []⟩
        else g.openBlock ⟨id, .REG, []⟩
    | none => g.openBlock ⟨id, .REG, []⟩

/-- `wrap_pre_emit_after`, the wrapper of `pop_async_id`. -/
def wrapPreEmitAfter (g : TraceGenerator) (asyncId : Nat) : TraceGenerator :=
  match g.getCurrentBlock with
  | some block =>
      if block.blockId = asyncId then addMainBlock g
      else if asyncId ∈ g.promiseSet then addMainBlock g
      else g
  | none => g

/-- What the tracer is called for. The wrappers that emit expressions append them to the current
    block, take the last one away or set a tag; `EmitAsyncInit` of a promise notes its id. -/
inductive Callback where
  | pushAsyncIds (asyncId triggerAsyncId : Nat)
  | popAsyncId (asyncId : Nat)
  | addExpr (e : Expr)
  | popExpr
  | setExprDebugInfo (index : Nat) (tag : String)
  | addPromise (asyncId : Nat)
  deriving DecidableEq

/-- One callback. -/
def step (g : TraceGenerator) : Callback → TraceGenerator
  | .pushAsyncIds asyncId triggerAsyncId => wrapPreEmitBefore g asyncId triggerAsyncId
  | .popAsyncId asyncId => wrapPreEmitAfter g asyncId
  | .addExpr e => g.editBlock fun es => es ++ [e]
  | .popExpr => g.editBlock List.dropLast
  | .setExprDebugInfo index tag => g.editBlock fun es => es.modify index (addDebugInfo tag)
  | .addPromise asyncId => { g with promiseSet := asyncId :: g.promiseSet }

/-- The callbacks after `node::Start`. -/
def run (cs : List Callback) : TraceGenerator := cs.foldl step wrapPreStart

theorem run_snoc (cs : List Callback) (c : Callback) : run (cs ++ [c]) = step (run cs) c :=
  List.foldl_concat ..

/-! ## 2. The current block -/

/-- The current block is `block`, the last one of the trace, behind the blocks `before`. -/
def AtEnd (g : TraceGenerator) (before : List Block) (block : Block) : Prop :=
  g.blocks = before ++ [block] ∧ g.currentBlock = some before.length

instance (g : TraceGenerator) (before : List Block) (block : Block) :
    Decidable (AtEnd g before block) := inferInstanceAs (Decidable (_ ∧ _))

/-- What stays of the blocks of a trace when a callback opens a block: a main block without
    expressions goes. -/
def kept (blocks : List Block) : List Block :=
  if blocks.getLast?.any Block.isEmptyMain then blocks.dropLast else blocks

section Steps

variable {g : TraceGenerator} {before : List Block} {block : Block} {x y t : Nat}

theorem AtEnd.getCurrentBlock (h : AtEnd g before block) : g.getCurrentBlock = some block := by
  unfold TraceGenerator.getCurrentBlock
  rw [h.1, h.2]
  simp

theorem AtEnd.editBlock (h : AtEnd g before block) (edit : List Expr → List Expr) :
    AtEnd (g.editBlock edit) before { block with exprs := edit block.exprs } := by
  unfold AtEnd TraceGenerator.editBlock
  rw [h.1, h.2]
  refine ⟨?_, rfl⟩
  dsimp only
  rw [List.modify_eq_take_cons_drop (by simp)]
  simp

theorem atEnd_openBlock (g : TraceGenerator) (b : Block) : AtEnd (g.openBlock b) g.blocks b :=
  ⟨rfl, rfl⟩

theorem atEnd_addMainBlock (g : TraceGenerator) :
    AtEnd (addMainBlock g) g.blocks ⟨g.mainBlockCount + 1, .MAIN, []⟩ := ⟨rfl, rfl⟩

/-- In the block of an event a push is a trigger. -/
theorem wrapPreEmitBefore_reg (h : AtEnd g before block) (hb : block.isMain = false) (h0 : y ≠ 0)
    (h1 : y ≠ 1) : wrapPreEmitBefore g y t = g.editBlock fun es => es ++ [.trigger ⟨y, []⟩] := by
  unfold wrapPreEmitBefore
  rw [if_neg (by simp [h0, h1]), h.getCurrentBlock]
  simp [hb]

/-- In a main block a push opens the block of the event; `PopBlock` takes away the main block if
    it has no expressions. -/
theorem wrapPreEmitBefore_main (h : AtEnd g before block) (hb : block.isMain = true) (h0 : y ≠ 0)
    (h1 : y ≠ 1) (hp : y ∉ g.promiseSet) :
    AtEnd (wrapPreEmitBefore g y t) (kept g.blocks) ⟨y, .REG, []⟩ := by
  have hkept : kept g.blocks = if block.exprs.length = 0 then before else g.blocks := by
    unfold kept
    rw [h.1]
    simp [Block.isEmptyMain, hb]
  unfold wrapPreEmitBefore
  rw [if_neg (by simp [h0, h1]), h.getCurrentBlock, if_neg hp, hkept]
  dsimp only
  rw [if_neg (by simp [hb])]
  split
  · have hpop : g.popBlock.blocks = before := by
      unfold popBlock
      rw [h.1]
      simp
    rw [← hpop]
    exact atEnd_openBlock _ _
  · exact atEnd_openBlock _ _

/-- **The current block is the last block** after every callback. -/
theorem AtEnd.step (h : AtEnd g before block) (c : Callback) :
    ∃ before block, AtEnd (step g c) before block := by
  cases c with
  | pushAsyncIds x t =>
      show ∃ before block, AtEnd (wrapPreEmitBefore g x t) before block
      unfold wrapPreEmitBefore
      split
      · exact ⟨_, _, h⟩
      · rw [h.getCurrentBlock]
        dsimp only
        split
        · exact ⟨_, _, h.editBlock _⟩
        · split
          · exact ⟨_, _, atEnd_openBlock _ _⟩
          · exact ⟨_, _, atEnd_openBlock _ _⟩
  | popAsyncId x =>
      show ∃ before block, AtEnd (wrapPreEmitAfter g x) before block
      unfold wrapPreEmitAfter
      rw [h.getCurrentBlock]
      dsimp only
      split
      · exact ⟨_, _, atEnd_addMainBlock g⟩
      · split
        · exact ⟨_, _, atEnd_addMainBlock g⟩
        · exact ⟨_, _, h⟩
  | addExpr e => exact ⟨_, _, h.editBlock _⟩
  | popExpr => exact ⟨_, _, h.editBlock _⟩
  | setExprDebugInfo index tag => exact ⟨_, _, h.editBlock _⟩
  | addPromise x => exact ⟨_, _, h⟩

end Steps

theorem atEnd_run (cs : List Callback) : ∃ before block, AtEnd (run cs) before block := by
  induction cs using List.reverseRecOn with
  | nil => exact ⟨_, _, atEnd_addMainBlock _⟩
  | append_singleton cs c ih =>
      obtain ⟨before, block, h⟩ := ih
      rw [run_snoc]
      exact h.step c

@[simp] theorem promiseSet_editBlock (g : TraceGenerator) (edit : List Expr → List Expr) :
    (g.editBlock edit).promiseSet = g.promiseSet := by
  unfold editBlock
  split <;> rfl

@[simp] theorem mainBlockCount_editBlock (g : TraceGenerator) (edit : List Expr → List Expr) :
    (g.editBlock edit).mainBlockCount = g.mainBlockCount := by
  unfold editBlock
  split <;> rfl

/-- A push writes the blocks only. -/
theorem wrapPreEmitBefore_fields (g : TraceGenerator) (x t : Nat) :
    (wrapPreEmitBefore g x t).promiseSet = g.promiseSet ∧
      (wrapPreEmitBefore g x t).mainBlockCount = g.mainBlockCount := by
  unfold wrapPreEmitBefore
  split
  · exact ⟨rfl, rfl⟩
  · dsimp only
    split
    · split
      · exact ⟨promiseSet_editBlock _ _, mainBlockCount_editBlock _ _⟩
      · split
        · exact ⟨rfl, rfl⟩
        · exact ⟨rfl, rfl⟩
    · exact ⟨rfl, rfl⟩

theorem promiseSet_wrapPreEmitAfter (g : TraceGenerator) (x : Nat) :
    (wrapPreEmitAfter g x).promiseSet = g.promiseSet := by
  unfold wrapPreEmitAfter
  split
  · split
    · rfl
    · split <;> rfl
  · rfl

/-- The promises of a run were noted in it. -/
theorem mem_promiseSet {cs : List Callback} {x : Nat} (h : x ∈ (run cs).promiseSet) :
    .addPromise x ∈ cs := by
  induction cs using List.reverseRecOn with
  | nil => cases h
  | append_singleton cs c ih =>
      rw [run_snoc] at h
      have hold : x ∈ (run cs).promiseSet → Callback.addPromise x ∈ cs ++ [c] := fun hx =>
        List.mem_append_left _ (ih hx)
      cases c with
      | pushAsyncIds y t =>
          refine hold ?_
          rw [← (wrapPreEmitBefore_fields (run cs) y t).1]
          exact h
      | popAsyncId y =>
          refine hold ?_
          rw [← promiseSet_wrapPreEmitAfter (run cs) y]
          exact h
      | addExpr e => exact hold (by rwa [step, promiseSet_editBlock] at h)
      | popExpr => exact hold (by rwa [step, promiseSet_editBlock] at h)
      | setExprDebugInfo index tag => exact hold (by rwa [step, promiseSet_editBlock] at h)
      | addPromise y =>
          rcases List.mem_cons.mp h with rfl | h
          · exact List.mem_append_right _ (List.mem_singleton_self _)
          · exact hold h

/-! ## 3. Brackets -/

/-- A push opens a bracket and a pop closes one. -/
def Callback.bracket : Callback → Nesting.Bracket Nat
  | .pushAsyncIds asyncId _ => .opening asyncId
  | .popAsyncId asyncId => .closing asyncId
  | .addExpr _ | .popExpr | .setExprDebugInfo _ _ | .addPromise _ => .plain

theorem bracket_eq_opening {c : Callback} {x : Nat} :
    c.bracket = .opening x ↔ ∃ t, c = .pushAsyncIds x t := by
  cases c <;> simp [Callback.bracket]

theorem bracket_eq_closing {c : Callback} {x : Nat} :
    c.bracket = .closing x ↔ c = .popAsyncId x := by
  cases c <;> simp [Callback.bracket]

/-- The ids that are pushed and not popped; `none` if a pop is not for the innermost of them. -/
def openIds (cs : List Callback) : Option (List Nat) := Nesting.after Callback.bracket [] cs

/-- **A well nested sequence**: the ids that are pushed are not 0 or 1 and not of promises. -/
structure WellNested (cs : List Callback) : Prop where
  nested : (openIds cs).isSome
  ids : ∀ x t, .pushAsyncIds x t ∈ cs → x ≠ 0 ∧ x ≠ 1 ∧ .addPromise x ∉ cs

/-- What a callback inside of a bracket emits; a nested push is a trigger. -/
def Callback.emit (es : List Expr) : Callback → List Expr
  | .pushAsyncIds asyncId _ => es ++ [.trigger ⟨asyncId, []⟩]
  | .popAsyncId _ | .addPromise _ => es
  | .addExpr e => es ++ [e]
  | .popExpr => es.dropLast
  | .setExprDebugInfo index tag => es.modify index (addDebugInfo tag)

/-- What callbacks emit, one after the other. -/
def emitted (cs : List Callback) : List Expr := cs.foldl Callback.emit []

/-- **Block brackets match.** The current block is always the last one. A push while nothing is
    open opens a block; up to its own pop, that block takes everything that is emitted, nothing
    else is opened or closed, and the pop closes it. Outside of all brackets a main block is the
    current one. -/
structure Brackets (cs : List Callback) : Prop where
  last : ∀ as, as <+: cs → ∃ before block, AtEnd (run as) before block
  outside : ∀ as, as <+: cs → openIds as = some [] →
    ∃ before block, AtEnd (run as) before block ∧ block.isMain = true
  inside : ∀ as x t bs, as ++ .pushAsyncIds x t :: bs <+: cs → openIds as = some [] →
    (openIds bs).isSome → AtEnd (run (as ++ .pushAsyncIds x t :: bs)) (kept (run as).blocks)
      ⟨x, .REG, emitted bs⟩
  closed : ∀ as x t bs, as ++ .pushAsyncIds x t :: (bs ++ [.popAsyncId x]) <+: cs →
    openIds as = some [] → openIds bs = some [] →
    AtEnd (run (as ++ .pushAsyncIds x t :: (bs ++ [.popAsyncId x])))
      (kept (run as).blocks ++ [⟨x, .REG, emitted bs⟩]) ⟨(run as).mainBlockCount + 1, .MAIN, []⟩

/-- **No nested pop has the id of the outermost bracket around it.** -/
def NoReentry (cs : List Callback) : Prop :=
  ∀ as x t bs st, as ++ .pushAsyncIds x t :: (bs ++ [.popAsyncId x]) <+: cs →
    openIds as = some [] → openIds bs = some st → st = []

/-! ## 4. When they match -/

section Inside

variable {g : TraceGenerator} {base : List Block} {es : List Expr} {c : Callback} {x : Nat}

/-- A callback inside of a bracket that pops another id than that of the block. -/
theorem step_inside (h : AtEnd g base ⟨x, .REG, es⟩)
    (hpush : ∀ y t, c = .pushAsyncIds y t → y ≠ 0 ∧ y ≠ 1)
    (hpop : ∀ y, c = .popAsyncId y → y ≠ x ∧ y ∉ g.promiseSet) :
    AtEnd (step g c) base ⟨x, .REG, c.emit es⟩ ∧
      (step g c).mainBlockCount = g.mainBlockCount := by
  cases c with
  | pushAsyncIds y t =>
      obtain ⟨h0, h1⟩ := hpush y t rfl
      have hs : step g (.pushAsyncIds y t) = g.editBlock fun es => es ++ [.trigger ⟨y, []⟩] :=
        wrapPreEmitBefore_reg h rfl h0 h1
      rw [hs]
      exact ⟨h.editBlock _, mainBlockCount_editBlock _ _⟩
  | popAsyncId y =>
      obtain ⟨hne, hp⟩ := hpop y rfl
      have hs : step g (.popAsyncId y) = g := by
        show wrapPreEmitAfter g y = g
        unfold wrapPreEmitAfter
        rw [h.getCurrentBlock]
        dsimp only
        rw [if_neg (Ne.symm hne), if_neg hp]
      rw [hs]
      exact ⟨h, rfl⟩
  | addExpr e => exact ⟨h.editBlock _, mainBlockCount_editBlock _ _⟩
  | popExpr => exact ⟨h.editBlock _, mainBlockCount_editBlock _ _⟩
  | setExprDebugInfo index tag => exact ⟨h.editBlock _, mainBlockCount_editBlock _ _⟩
  | addPromise y => exact ⟨h, rfl⟩

/-- The pop of the id of the current block closes it. -/
theorem step_close (h : AtEnd g base ⟨x, .REG, es⟩) :
    AtEnd (step g (.popAsyncId x)) (base ++ [⟨x, .REG, es⟩]) ⟨g.mainBlockCount + 1, .MAIN, []⟩ := by
  have hs : step g (.popAsyncId x) = addMainBlock g := by
    show wrapPreEmitAfter g x = addMainBlock g
    unfold wrapPreEmitAfter
    rw [h.getCurrentBlock]
    dsimp only
    rw [if_pos rfl]
  rw [hs, ← h.1]
  exact atEnd_addMainBlock g

end Inside

section Runs

variable {cs as bs : List Callback} {x t : Nat}

theorem run_append_cons (as : List Callback) (c : Callback) (bs : List Callback) (d : Callback) :
    run (as ++ c :: (bs ++ [d])) = step (run (as ++ c :: bs)) d := by
  rw [← List.cons_append, ← List.append_assoc, run_snoc]

/-- The ids of a well nested sequence: they are regular, and no promises. -/
theorem WellNested.regular (h : WellNested cs) (hp : as <+: cs) (hx : .pushAsyncIds x t ∈ as) :
    x ≠ 0 ∧ x ≠ 1 ∧ ∀ bs, bs <+: cs → x ∉ (run bs).promiseSet := by
  obtain ⟨h0, h1, hno⟩ := h.ids x t (hp.subset hx)
  exact ⟨h0, h1, fun bs hb hmem => hno (hb.subset (mem_promiseSet hmem))⟩

theorem WellNested.openIds_isSome (h : WellNested cs) (hp : as <+: cs) : (openIds as).isSome := by
  obtain ⟨bs, rfl⟩ := hp
  obtain ⟨st, hst⟩ := Option.isSome_iff_exists.mp h.nested
  obtain ⟨st₁, h1, _⟩ := Nesting.after_append_eq_some.mp hst
  exact Option.isSome_iff_exists.mpr ⟨st₁, h1⟩

/-- What is open was pushed. -/
theorem mem_of_openIds {st : List Nat} (h : openIds as = some st) (hx : x ∈ st) :
    ∃ t, .pushAsyncIds x t ∈ as := by
  obtain ⟨c, hc, hx⟩ := Nesting.exists_opening h hx
  obtain ⟨t, rfl⟩ := bracket_eq_opening.mp hx
  exact ⟨t, hc⟩

/-- **Inside of a bracket** everything goes to its block. -/
theorem run_inside (hcs : WellNested cs) (hno : NoReentry cs)
    (hp : as ++ Callback.pushAsyncIds x t :: bs <+: cs) (has : openIds as = some [])
    (hmain : ∃ before block, AtEnd (run as) before block ∧ block.isMain = true)
    {st : List Nat} (hbs : openIds bs = some st) :
    AtEnd (run (as ++ Callback.pushAsyncIds x t :: bs)) (kept (run as).blocks)
        ⟨x, .REG, emitted bs⟩ ∧
      (run (as ++ Callback.pushAsyncIds x t :: bs)).mainBlockCount = (run as).mainBlockCount := by
  induction bs using List.reverseRecOn generalizing st with
  | nil =>
      obtain ⟨before, block, hend, hb⟩ := hmain
      obtain ⟨h0, h1, hpromise⟩ := hcs.regular (x := x) (t := t) hp (by simp)
      have has' := (List.prefix_append as _).trans hp
      rw [run_snoc]
      exact ⟨wrapPreEmitBefore_main hend hb h0 h1 (hpromise as has'),
        (wrapPreEmitBefore_fields _ _ _).2⟩
  | append_singleton bs c ih =>
      obtain ⟨st₁, h1, h2⟩ := Nesting.after_snoc.mp hbs
      have hpre : as ++ Callback.pushAsyncIds x t :: bs <+: cs :=
        (show _ from ⟨[c], by simp⟩ : as ++ Callback.pushAsyncIds x t :: bs <+:
          as ++ Callback.pushAsyncIds x t :: (bs ++ [c])).trans hp
      obtain ⟨hend, hcount⟩ := ih hpre h1
      rw [run_append_cons]
      have hstep := step_inside (c := c) hend (fun y t' hc => ?_) (fun y hc => ?_)
      · refine ⟨?_, hstep.2.trans hcount⟩
        unfold emitted
        rw [List.foldl_concat]
        exact hstep.1
      · obtain ⟨h0, h1, _⟩ := hcs.regular (x := y) (t := t') hp (by simp [hc])
        exact ⟨h0, h1⟩
      · -- the pop is for the innermost id, which was pushed inside of the bracket
        subst hc
        have hst : st₁ = y :: st := (Nesting.step_closing rfl).mp h2
        refine ⟨fun hxy => ?_, ?_⟩
        · subst hxy
          have hnil := hno as y t bs st₁ hp has h1
          rw [hst] at hnil
          cases hnil
        · obtain ⟨t', hmem⟩ := mem_of_openIds (x := y) h1 (by simp [hst])
          exact (hcs.regular (t := t') hpre (by simp [hmem])).2.2 _ hpre

/-- What is neither a push nor a pop changes the expressions of the current block at most. -/
theorem step_plain {g : TraceGenerator} {before : List Block} {block : Block} {c : Callback}
    (h : AtEnd g before block) (hc : c.bracket = .plain) :
    ∃ es, AtEnd (step g c) before { block with exprs := es } := by
  cases c with
  | pushAsyncIds y t => cases hc
  | popAsyncId y => cases hc
  | addExpr e => exact ⟨_, h.editBlock _⟩
  | popExpr => exact ⟨_, h.editBlock _⟩
  | setExprDebugInfo index tag => exact ⟨_, h.editBlock _⟩
  | addPromise y => exact ⟨_, h⟩

/-- **The pop of a bracket** closes its block. -/
theorem run_closed (hcs : WellNested cs) (hno : NoReentry cs)
    (hp : as ++ Callback.pushAsyncIds x t :: bs <+: cs) (has : openIds as = some [])
    (hmain : ∃ before block, AtEnd (run as) before block ∧ block.isMain = true)
    (hbs : openIds bs = some []) :
    AtEnd (run (as ++ Callback.pushAsyncIds x t :: (bs ++ [Callback.popAsyncId x])))
      (kept (run as).blocks ++ [⟨x, .REG, emitted bs⟩])
      ⟨(run as).mainBlockCount + 1, .MAIN, []⟩ := by
  obtain ⟨hend, hcount⟩ := run_inside hcs hno hp has hmain hbs
  rw [run_append_cons, ← hcount]
  exact step_close hend

/-- **Outside of all brackets** a main block is the current one. -/
theorem run_outside (hcs : WellNested cs) (hno : NoReentry cs) (hp : as <+: cs)
    (has : openIds as = some []) :
    ∃ before block, AtEnd (run as) before block ∧ block.isMain = true := by
  induction hn : as.length using Nat.strong_induction_on generalizing as with
  | _ n ih =>
      rcases List.eq_nil_or_concat as with rfl | ⟨as', c, rfl⟩
      · exact ⟨_, _, atEnd_addMainBlock _, rfl⟩
      · rw [List.concat_eq_append] at hp has hn ⊢
        rw [List.length_append, List.length_singleton] at hn
        have hp' : as' <+: cs := (List.prefix_append _ _).trans hp
        obtain ⟨st, h1, h2⟩ := Nesting.after_snoc.mp has
        cases hc : c.bracket with
        | opening k =>
            unfold Nesting.step at h2
            rw [hc] at h2
            cases h2
        | closing x =>
            -- the last pop closes the bracket that is open
            rw [Nesting.step_closing hc] at h2
            subst h2
            have h1 : Nesting.after _ [] as' = some ([] ++ [x]) := h1
            obtain ⟨as₀, c', bs, rfl, hc', h0, hbs⟩ := Nesting.outermost h1
            obtain rfl := bracket_eq_closing.mp hc
            obtain ⟨t, rfl⟩ := bracket_eq_opening.mp hc'
            have hlt : as₀.length < n := by
              rw [← hn, List.length_append, List.length_cons]
              omega
            have hmain := ih _ hlt ((List.prefix_append _ _).trans hp') h0 rfl
            have hend := run_closed hcs hno hp' h0 hmain hbs
            rw [List.append_assoc, List.cons_append]
            exact ⟨_, _, hend, rfl⟩
        | plain =>
            unfold Nesting.step at h2
            rw [hc] at h2
            cases h2
            obtain ⟨before, block, hend, hb⟩ := ih _ (by omega) hp' h1 rfl
            obtain ⟨es, hend'⟩ := step_plain hend hc
            rw [run_snoc]
            exact ⟨_, _, hend', hb⟩

theorem brackets_of_noReentry (hcs : WellNested cs) (hno : NoReentry cs) : Brackets cs where
  last as _ := atEnd_run as
  outside as hp has := run_outside hcs hno hp has
  inside as x t bs hp has hbs := by
    obtain ⟨st, hst⟩ := Option.isSome_iff_exists.mp hbs
    have hmain := run_outside hcs hno ((List.prefix_append _ _).trans hp) has
    exact (run_inside hcs hno hp has hmain hst).1
  closed as x t bs hp has hbs := by
    have hpre : as ++ Callback.pushAsyncIds x t :: bs <+: cs :=
      (show _ from ⟨[.popAsyncId x], by simp⟩ : as ++ Callback.pushAsyncIds x t :: bs <+:
        as ++ Callback.pushAsyncIds x t :: (bs ++ [Callback.popAsyncId x])).trans hp
    have hmain := run_outside hcs hno ((List.prefix_append _ _).trans hpre) has
    exact run_closed hcs hno hpre has hmain hbs

/-- Where a nested pop has the id of the bracket, it closes the block: the trace has one block
    more than the bracket has. -/
theorem noReentry_of_brackets (hcs : WellNested cs) (h : Brackets cs) : NoReentry cs := by
  intro as x t bs st hp has hbs
  by_contra hne
  have hpre : as ++ Callback.pushAsyncIds x t :: bs <+: cs :=
    (show _ from ⟨[.popAsyncId x], by simp⟩ : as ++ Callback.pushAsyncIds x t :: bs <+:
      as ++ Callback.pushAsyncIds x t :: (bs ++ [Callback.popAsyncId x])).trans hp
  have hin := h.inside as x t bs hpre has (by rw [hbs]; rfl)
  have hnext : (openIds (bs ++ [Callback.popAsyncId x])).isSome := by
    obtain ⟨st₂, h2⟩ := Option.isSome_iff_exists.mp (hcs.openIds_isSome hp)
    obtain ⟨st₁, h1, h2⟩ := Nesting.after_append_eq_some.mp h2
    cases has.symm.trans h1
    have h2 : Nesting.after Callback.bracket [x] (bs ++ [Callback.popAsyncId x]) = some st₂ := h2
    obtain ⟨st₃, h3, h4⟩ := Nesting.after_snoc.mp h2
    cases (Nesting.after_frame hbs [x]).symm.trans h3
    have h4 := (Nesting.step_closing (f := Callback.bracket) (k := x) rfl).mp h4
    obtain ⟨y, st', rfl⟩ := List.exists_cons_of_ne_nil hne
    cases (List.cons.inj h4).1
    have hst : openIds (bs ++ [Callback.popAsyncId x]) = some st' :=
      Nesting.after_snoc.mpr ⟨_, hbs, (Nesting.step_closing rfl).mpr rfl⟩
    rw [hst]
    rfl
  have hafter := h.inside as x t (bs ++ [Callback.popAsyncId x]) hp has hnext
  have hclose := step_close hin
  rw [run_append_cons] at hafter
  have hlen := congrArg List.length (hclose.1.symm.trans hafter.1)
  simp at hlen

/-- **Block brackets match iff no nested pop has the id of the outermost bracket around it.** -/
theorem brackets_iff (hcs : WellNested cs) : Brackets cs ↔ NoReentry cs :=
  ⟨noReentry_of_brackets hcs, brackets_of_noReentry hcs⟩

end Runs

/-- The callback of 5 runs another callback of 5, and emits an expression after it. -/
def nestedSelf : List Callback :=
  [.pushAsyncIds 5 1, .pushAsyncIds 5 1, .popAsyncId 5, .addExpr (.link ⟨5, 6, []⟩), .popAsyncId 5]

theorem wellNested_nestedSelf : WellNested nestedSelf := by
  refine ⟨by decide, fun x t hx => ?_⟩
  simp only [nestedSelf, List.mem_cons, Callback.pushAsyncIds.injEq, reduceCtorEq, or_false,
    List.not_mem_nil, or_self] at hx
  obtain ⟨rfl, rfl⟩ := hx
  decide

theorem brackets_iff_nestedSelf : Brackets nestedSelf ↔ NoReentry nestedSelf :=
  brackets_iff wellNested_nestedSelf

/-- The inner pop closes the block of the outer callback. -/
theorem brackets_fails : ¬ ∀ cs, WellNested cs → Brackets cs := by
  intro h
  have hin := (h nestedSelf wellNested_nestedSelf).inside [] 5 1
    [.pushAsyncIds 5 1, .popAsyncId 5, .addExpr (.link ⟨5, 6, []⟩)]
    ⟨[.popAsyncId 5], rfl⟩ rfl rfl
  revert hin
  decide

end BlockBrackets

end Fsracer

/-
  File:      Fsracer/Sentences.lean
  Subject:   WHAT THE BLOCKS OF A TRACE ARE MADE OF.

  Expressions that belong together are written by several callbacks. `EmitAsyncInit` writes a
  `newEvent` and a `link`; the call of libuv behind it tags the expression at `size - 2` and
  writes the `submitOp`. `NewTickInfo`, `TimerWrap::Now` and the thenable job take away the last
  expression, which should be the event that `NewAsyncId` or `EmitPromiseResolve` wrote. In a
  `Prompt` run nothing comes between such callbacks.

  * **`sentences_run`** -- the blocks of a prompt run are sequences of whole `Sentences`;
  * **`submitOps_run`** -- their `submitOp`s are the submissions of the run, each once and in order.
-/
import Mathlib
import Fsracer.Submissions

namespace Fsracer

namespace NodeGenerator

open BlockBrackets (AtEnd addDebugInfo)

/-! ## 1. Sentences -/

/-- **Expressions that the wrappers write together.** -/
inductive Sentences : List Expr → Prop where
  | nil : Sentences []
  | trigger {es : List Expr} (x : Nat) : Sentences es → Sentences (es ++ [.trigger ⟨x, []⟩])
  | event {es : List Expr} (e : NewEventExpr) : e.event.eventType ≠ .EXT → Sentences es →
      Sentences (es ++ [.newEvent e])
  | created {es : List Expr} (x t : Nat) : Sentences es →
      Sentences (es ++ [.newEvent ⟨x, ⟨.EXT, 0⟩, []⟩, .link ⟨t, x, []⟩])
  | submitted {es : List Expr} (x t : Nat) (f : UvFs) : Sentences es →
      Sentences (es ++ [.newEvent ⟨x, ⟨.EXT, 0⟩, ["fs", f.opName]⟩, .link ⟨t, x, []⟩,
        .submitOp ⟨"async_" ++ toString x, some x, [f.opName]⟩])
  | sync {es : List Expr} (n : Nat) (f : UvFs) : Sentences es →
      Sentences (es ++ [.submitOp ⟨"sync_" ++ toString n, none, [f.opName]⟩])

/-- Where an element stands in a list of two parts. -/
theorem append_eq_append_cons {α : Type} {es tail as bs : List α} {a : α}
    (h : es ++ tail = as ++ a :: bs) :
    (∃ cs, es = as ++ a :: cs) ∨ ∃ cs, as = es ++ cs ∧ tail = cs ++ a :: bs := by
  rcases List.append_eq_append_iff.mp h with ⟨cs, has, htail⟩ | ⟨cs, hes, hcs⟩
  · exact .inr ⟨cs, has, htail⟩
  · cases cs with
    | nil => exact .inr ⟨[], by simpa using hes.symm, by simpa using hcs.symm⟩
    | cons c cs =>
        cases (List.cons.inj hcs).1
        exact .inl ⟨cs, hes⟩

/-- **The event of an asynchronous operation is created right before its submission.** -/
theorem Sentences.before_submitOp {es as bs : List Expr} (h : Sentences es) {id : String} {x : Nat}
    {tags : List String} (hes : es = as ++ .submitOp ⟨id, some x, tags⟩ :: bs) :
    ∃ (f : UvFs) (t : Nat) (cs : List Expr), id = "async_" ++ toString x ∧ tags = [f.opName] ∧
      as = cs ++ [.newEvent ⟨x, ⟨.EXT, 0⟩, ["fs", f.opName]⟩, .link ⟨t, x, []⟩] := by
  induction h generalizing as bs with
  | nil => simp at hes
  | trigger y _ ih =>
      rcases append_eq_append_cons hes with ⟨cs, h⟩ | ⟨cs, -, htail⟩
      · exact ih h
      · rcases cs with _ | ⟨c, cs⟩ <;> simp at htail
  | event e _ _ ih =>
      rcases append_eq_append_cons hes with ⟨cs, h⟩ | ⟨cs, -, htail⟩
      · exact ih h
      · rcases cs with _ | ⟨c, cs⟩ <;> simp at htail
  | created y t _ ih =>
      rcases append_eq_append_cons hes with ⟨cs, h⟩ | ⟨cs, -, htail⟩
      · exact ih h
      · rcases cs with _ | ⟨c, _ | ⟨d, cs⟩⟩ <;> simp at htail
  | submitted y t f _ ih =>
      rcases append_eq_append_cons hes with ⟨cs, h⟩ | ⟨cs, has, htail⟩
      · exact ih h
      · rcases cs with _ | ⟨c, _ | ⟨d, _ | ⟨e, cs⟩⟩⟩ <;> simp at htail
        obtain ⟨rfl, rfl, ⟨rfl, rfl, rfl⟩, -⟩ := htail
        exact ⟨f, t, _, rfl, rfl, has⟩
  | sync n f _ ih =>
      rcases append_eq_append_cons hes with ⟨cs, h⟩ | ⟨cs, -, htail⟩
      · exact ih h
      · rcases cs with _ | ⟨c, cs⟩ <;> simp at htail

/-! ## 2. Prompt runs -/

/-- What the current block ends with: an event that the next callback can take away, an event
    with its link, or neither. -/
inductive Tail where
  | event
  | created (x : Nat)
  | other
  deriving DecidableEq, Repr

/-- What a callback leaves at the end of the current block, if it writes. -/
def System.utters (s : System) : Callback → List Tail
  | .node (.emitAsyncInit x _) =>
      if s.callStack.head? = some newTimerWrap then [.event]
      else if s.promiseEvent then [] else [.created x]
  | .node (.emitPromiseResolve _) | .node .newAsyncId => [.event]
  | .node .start | .node (.pushAsyncIds ..) | .node (.popAsyncId _) | .node .timerWrapNow
  | .node .newTickInfo | .thenable => [.other]
  | .uvFs f args => if (s.submission f args).isSome then [.other] else []
  | _ => []

/-- What the last callback that wrote has left there. -/
def said (cs : List Callback) : Tail :=
  (Machine.outputs System.step System.utters System.init cs).getLastD .other

/-- The callbacks that take the last expression away. -/
def Callback.pops : Callback → Bool
  | .node .timerWrapNow | .node .newTickInfo | .thenable => true
  | _ => false

/-- **Nothing comes between callbacks that belong together**: what is taken away is an event that
    the callback before wrote, and an asynchronous operation is submitted right behind the
    creation of its event. -/
structure Prompt (cs : List Callback) : Prop where
  pops : ∀ p c, p ++ [c] <+: cs → c.pops = true → said p = .event
  submits : ∀ p f args x, p ++ [Callback.uvFs f args] <+: cs → getArg args f.asyncPos ≠ 0 →
    (System.run p).createdEvent = some x → said p = .created x

theorem Prompt.of_prefix {cs ds : List Callback} (h : Prompt cs) (hp : ds <+: cs) : Prompt ds where
  pops p c hpc := h.pops p c (hpc.trans hp)
  submits p f args x hpc := h.submits p f args x (hpc.trans hp)

/-- Whether a call of libuv comes right behind the creation of its event. -/
def Callback.isPrompt (s : System) (tail : Tail) : Callback → Bool
  | .uvFs f args => decide (getArg args f.asyncPos = 0) ||
      s.createdEvent.all fun x => decide (tail = .created x)
  | _ => true

theorem isPrompt_iff {s : System} {tail : Tail} {c : Callback} : c.isPrompt s tail = true ↔
    ∀ f args x, c = .uvFs f args → getArg args f.asyncPos ≠ 0 → s.createdEvent = some x →
      tail = .created x := by
  cases c with
  | uvFs f args =>
      have hall : s.createdEvent.all (fun x => decide (tail = .created x)) = true ↔
          ∀ x, s.createdEvent = some x → tail = .created x := by
        cases s.createdEvent <;> simp
      show (decide (getArg args f.asyncPos = 0) || s.createdEvent.all _) = true ↔ _
      rw [Bool.or_eq_true, hall, decide_eq_true_eq]
      refine ⟨fun h f' args' x hc hne hx => ?_, fun h => ?_⟩
      · cases hc
        exact h.resolve_left hne x hx
      · by_cases hz : getArg args f.asyncPos = 0
        · exact .inl hz
        · exact .inr fun x => h f args x rfl hz
  | _ => exact iff_of_true rfl fun _ _ _ hc => by cases hc

theorem prompt_iff {cs : List Callback} : Prompt cs ↔ ∀ i (h : i < cs.length),
    (cs[i].pops = true → said (cs.take i) = .event) ∧
      cs[i].isPrompt (System.run (cs.take i)) (said (cs.take i)) = true := by
  rw [← Machine.forall_prefix (P := fun p c => (c.pops = true → said p = .event) ∧
    c.isPrompt (System.run p) (said p) = true)]
  simp only [isPrompt_iff]
  refine ⟨fun h p c hp => ⟨h.pops p c hp, fun f args x hc => ?_⟩, fun h => ⟨?_, ?_⟩⟩
  · exact h.submits p f args x (hc ▸ hp)
  · exact fun p c hp => (h p c hp).1
  · exact fun p f args x hp => (h p _ hp).2 f args x rfl

instance (cs : List Callback) : Decidable (Prompt cs) := decidable_of_iff _ prompt_iff.symm

theorem said_snoc (cs : List Callback) (c : Callback) :
    said (cs ++ [c]) = ((System.run cs).utters c).getLastD (said cs) := by
  unfold said
  rw [Machine.outputs_snoc]
  show _ = List.getLastD ((cs.foldl System.step System.init).utters c) _
  cases (cs.foldl System.step System.init).utters c using List.reverseRecOn with
  | nil => simp
  | append_singleton ws w _ => simp

/-! ## 3. What is written -/

/-- The current block, with what was said last. -/
def Spoken (es : List Expr) : Tail → Prop
  | .event => ∃ ws e, Sentences ws ∧ e.event.eventType ≠ .EXT ∧ es = ws ++ [.newEvent e]
  | .created x => ∃ ws t, Sentences ws ∧
      es = ws ++ [.newEvent ⟨x, ⟨.EXT, 0⟩, []⟩, .link ⟨t, x, []⟩]
  | .other => Sentences es

theorem Spoken.sentences {es : List Expr} {tail : Tail} (h : Spoken es tail) : Sentences es := by
  cases tail with
  | event =>
      obtain ⟨ws, e, hws, he, rfl⟩ := h
      exact hws.event e he
  | created x =>
      obtain ⟨ws, t, hws, rfl⟩ := h
      exact hws.created x t
  | other => exact h

/-- The `submitOp`s of expressions. -/
def submitOpsOf (es : List Expr) : List SubmitOp :=
  es.filterMap fun e => match e with
    | .submitOp op => some op
    | _ => none

theorem submitOpsOf_append (es fs : List Expr) :
    submitOpsOf (es ++ fs) = submitOpsOf es ++ submitOpsOf fs := List.filterMap_append

/-- The `submitOp`s of a block, with the id of the block. -/
def placedOps (b : Block) : List (String × SubmitOp) :=
  (submitOpsOf b.exprs).map (b.getPrettyBlockId, ·)

/-- The id of the current block. -/
def System.blockId (s : System) : String :=
  (s.blocks.getCurrentBlock.map Block.getPrettyBlockId).getD ""

/-- The `submitOp` of a submission, with the block in which the main thread makes it. -/
def System.submitOp (s : System) : Callback → List (String × SubmitOp)
  | .uvFs f args =>
      ((s.submission f args).map fun sub => (s.blockId, ⟨sub.id, sub.eventId, [f.opName]⟩)).toList
  | _ => []

/-- The `submitOp`s of the submissions of a run. -/
def submitOps (cs : List Callback) : List (String × SubmitOp) :=
  Machine.outputs System.step System.submitOp System.init cs

/-- The ids of the `submitOp`s are those of the submissions. -/
theorem submitOps_ids (cs : List Callback) :
    (submitOps cs).map (·.2.opId) = (submissions cs).map Prod.snd := by
  refine Machine.map_outputs fun s c => ?_
  cases c with
  | uvFs f args =>
      unfold System.submitOp System.submitted
      dsimp only
      cases s.submission f args <;> rfl
  | _ => rfl

/-- The blocks, when `tail` was said last and `ops` were submitted. -/
structure Written (b : BlockBrackets.TraceGenerator) (tail : Tail)
    (ops : List (String × SubmitOp)) : Prop where
  sentences : ∀ x ∈ b.blocks, Sentences x.exprs
  current : ∀ before block, AtEnd b before block → Spoken block.exprs tail
  ops : b.blocks.flatMap placedOps = ops

section Steps

variable {b : BlockBrackets.TraceGenerator} {before : List Block} {block : Block} {tail : Tail}
  {ops : List (String × SubmitOp)}

theorem atEnd_unique {before' : List Block} {block' : Block} (h : AtEnd b before block)
    (h' : AtEnd b before' block') : before = before' ∧ block = block' := by
  obtain ⟨h1, h2⟩ := List.append_inj' (h.1.symm.trans h'.1) rfl
  exact ⟨h1, List.singleton_inj.mp h2⟩

/-- A change of the expressions of the current block. -/
theorem Written.edit (h : Written b tail ops) (hb : AtEnd b before block)
    (edit : List Expr → List Expr) (tail' : Tail) (new : List SubmitOp)
    (hedit : Spoken (edit block.exprs) tail')
    (hops : submitOpsOf (edit block.exprs) = submitOpsOf block.exprs ++ new) :
    Written (b.editBlock edit) tail' (ops ++ new.map (block.getPrettyBlockId, ·)) := by
  have hend := hb.editBlock edit
  refine ⟨fun x hx => ?_, fun before' block' hb' => ?_, ?_⟩
  · rw [hend.1, List.mem_append, List.mem_singleton] at hx
    rcases hx with hx | rfl
    · exact h.sentences x (hb.1 ▸ List.mem_append_left _ hx)
    · exact hedit.sentences
  · obtain ⟨-, rfl⟩ := atEnd_unique hend hb'
    exact hedit
  · have hplaced : placedOps { block with exprs := edit block.exprs } =
        placedOps block ++ new.map (block.getPrettyBlockId, ·) := by
      unfold placedOps
      rw [hops, List.map_append]
      rfl
    rw [hend.1, List.flatMap_append, List.flatMap_singleton, hplaced, ← List.append_assoc,
      ← h.ops, hb.1, List.flatMap_append, List.flatMap_singleton]

/-- Expressions behind those of the current block. -/
theorem Written.append (h : Written b tail ops) (hb : AtEnd b before block) (new : List Expr)
    (tail' : Tail) (hnew : Sentences block.exprs → Spoken (block.exprs ++ new) tail') :
    Written (b.editBlock fun es => es ++ new) tail'
      (ops ++ (submitOpsOf new).map (block.getPrettyBlockId, ·)) :=
  h.edit hb _ _ _ (hnew (h.current _ _ hb).sentences) (submitOpsOf_append _ _)

/-- The last event is taken away. -/
theorem Written.pop (h : Written b .event ops) (hb : AtEnd b before block) :
    Written (b.editBlock List.dropLast) .other ops := by
  obtain ⟨ws, e, hws, -, hes⟩ := h.current _ _ hb
  have hdrop : block.exprs.dropLast = ws := by rw [hes, List.dropLast_concat]
  have hedit : Spoken block.exprs.dropLast .other := hdrop ▸ hws
  have hops : submitOpsOf block.exprs.dropLast = submitOpsOf block.exprs ++ [] := by
    rw [hdrop, hes, submitOpsOf_append, List.append_nil]
    exact (List.append_nil _).symm
  simpa using h.edit hb List.dropLast _ [] hedit hops

/-- A new block. -/
theorem Written.openBlock (h : Written b tail ops) (x : Block) (hx : x.exprs = []) :
    Written (b.openBlock x) .other ops := by
  refine ⟨fun y hy => ?_, fun before' block' hb' => ?_, ?_⟩
  · rcases List.mem_append.mp hy with hy | hy
    · exact h.sentences y hy
    · rw [List.mem_singleton.mp hy, hx]
      exact .nil
  · obtain ⟨-, rfl⟩ := atEnd_unique (BlockBrackets.atEnd_openBlock b x) hb'
    rw [hx]
    exact Sentences.nil
  · show (b.blocks ++ [x]).flatMap _ = ops
    rw [List.flatMap_append, List.flatMap_singleton, placedOps, hx, ← h.ops]
    exact List.append_nil _

/-- A new block in the place of an empty one. -/
theorem Written.reopenBlock (h : Written b tail ops) (hb : AtEnd b before block)
    (hempty : block.exprs.length = 0) (x : Block) (hx : x.exprs = []) :
    Written (b.popBlock.openBlock x) .other ops := by
  have hpop : b.popBlock.blocks = before := by
    unfold BlockBrackets.TraceGenerator.popBlock
    rw [hb.1]
    exact List.dropLast_concat
  refine ⟨fun y hy => ?_, fun before' block' hb' => ?_, ?_⟩
  · rcases List.mem_append.mp hy with hy | hy
    · exact h.sentences y (hb.1 ▸ List.mem_append_left _ (hpop ▸ hy))
    · rw [List.mem_singleton.mp hy, hx]
      exact .nil
  · obtain ⟨-, rfl⟩ := atEnd_unique (BlockBrackets.atEnd_openBlock b.popBlock x) hb'
    rw [hx]
    exact Sentences.nil
  · show (b.popBlock.blocks ++ [x]).flatMap _ = ops
    rw [hpop, ← h.ops, hb.1, List.flatMap_append, List.flatMap_append, List.flatMap_singleton,
      List.flatMap_singleton, placedOps, placedOps, hx, List.length_eq_zero_iff.mp hempty]
    rfl

/-- Nothing is said. -/
theorem Written.other (h : Written b tail ops) : Written b .other ops :=
  ⟨h.sentences, fun before block hb => (h.current before block hb).sentences, h.ops⟩

theorem editBlock_comp (b : BlockBrackets.TraceGenerator) (f k : List Expr → List Expr) :
    (b.editBlock f).editBlock k = b.editBlock (k ∘ f) := by
  obtain ⟨blocks, currentBlock, count, promises⟩ := b
  cases currentBlock with
  | none => rfl
  | some i =>
      unfold BlockBrackets.TraceGenerator.editBlock
      dsimp only
      rw [List.modify_modify_eq]
      rfl

theorem modify_length_append {α : Type} (as : List α) (a : α) (bs : List α) (f : α → α) :
    (as ++ a :: bs).modify as.length f = as ++ f a :: bs := by
  rw [List.modify_eq_take_cons_drop (by simp)]
  simp

/-- A push. -/
theorem Written.push (h : Written b tail ops) (hb : AtEnd b before block) (x t : Nat) :
    Written (BlockBrackets.wrapPreEmitBefore b x t) .other ops := by
  unfold BlockBrackets.wrapPreEmitBefore
  split
  · exact h.other
  · rw [hb.getCurrentBlock]
    dsimp only
    split
    · have hnew := h.append hb [.trigger ⟨x, []⟩] .other (Sentences.trigger x)
      simpa [submitOpsOf] using hnew
    · split
      · rename_i hempty
        exact h.reopenBlock hb hempty _ rfl
      · exact h.openBlock _ rfl

/-- A pop. -/
theorem Written.addMainBlock (h : Written b tail ops) :
    Written (BlockBrackets.addMainBlock b) .other ops := by
  have h' : Written { b with mainBlockCount := b.mainBlockCount + 1 } tail ops :=
    ⟨h.sentences, h.current, h.ops⟩
  exact h'.openBlock _ rfl

@[inherit_doc Written.addMainBlock]
theorem Written.close (h : Written b tail ops) (hb : AtEnd b before block) (x : Nat) :
    Written (BlockBrackets.wrapPreEmitAfter b x) .other ops := by
  unfold BlockBrackets.wrapPreEmitAfter
  rw [hb.getCurrentBlock]
  dsimp only
  split
  · exact h.addMainBlock
  · split
    · exact h.addMainBlock
    · exact h.other

/-- An event that another callback takes away. -/
theorem Written.event (h : Written b tail ops) (hb : AtEnd b before block) (e : NewEventExpr)
    (he : e.event.eventType ≠ .EXT) :
    Written (BlockBrackets.step b (.addExpr (.newEvent e))) .event ops := by
  have hnew := h.append hb [.newEvent e] .event fun hs => ⟨_, e, hs, he, rfl⟩
  have hops : submitOpsOf [.newEvent e] = [] := rfl
  rwa [hops, List.map_nil, List.append_nil] at hnew

/-- An event in the place of the one that was written last. -/
theorem Written.replace (h : Written b .event ops) (hb : AtEnd b before block) (e : NewEventExpr)
    (he : e.event.eventType ≠ .EXT) :
    Written ([.popExpr, .addExpr (.newEvent e)].foldl BlockBrackets.step b) .other ops :=
  ((h.pop hb).event (hb.editBlock _) e he).other

/-- An event with its link. -/
theorem Written.created (h : Written b tail ops) (hb : AtEnd b before block) (x t : Nat) :
    Written ([.addExpr (.newEvent ⟨x, ⟨.EXT, 0⟩, []⟩), .addExpr (.link ⟨t, x, []⟩)].foldl
      BlockBrackets.step b) (.created x) ops := by
  have hnew := h.append hb [.newEvent ⟨x, ⟨.EXT, 0⟩, []⟩, .link ⟨t, x, []⟩]
    (.created x) fun hs => ⟨_, t, hs, rfl⟩
  have hops : submitOpsOf [.newEvent ⟨x, ⟨.EXT, 0⟩, []⟩, .link ⟨t, x, []⟩] = [] := rfl
  rw [hops, List.map_nil, List.append_nil] at hnew
  simp only [List.foldl_cons, List.foldl_nil, BlockBrackets.step]
  rw [editBlock_comp]
  simpa [Function.comp_def] using hnew

/-- A synchronous operation. -/
theorem Written.sync (h : Written b tail ops) (hb : AtEnd b before block) (n : Nat) (f : UvFs) :
    Written (BlockBrackets.step b (.addExpr (.submitOp ⟨"sync_" ++ toString n, none, [f.opName]⟩)))
      .other (ops ++ [(block.getPrettyBlockId, ⟨"sync_" ++ toString n, none, [f.opName]⟩)]) :=
  h.append hb [.submitOp ⟨"sync_" ++ toString n, none, [f.opName]⟩] .other
    (Sentences.sync n f)

/-- An asynchronous operation: its event is at `size - 2`. -/
theorem Written.submitted {x : Nat} (h : Written b (.created x) ops) (hb : AtEnd b before block)
    (f : UvFs) : 2 ≤ block.exprs.length ∧
      Written ([.setExprDebugInfo (block.exprs.length - 2) "fs",
          .setExprDebugInfo (block.exprs.length - 2) f.opName,
          .addExpr (.submitOp ⟨"async_" ++ toString x, some x, [f.opName]⟩)].foldl
            BlockBrackets.step b) .other
        (ops ++ [(block.getPrettyBlockId, ⟨"async_" ++ toString x, some x, [f.opName]⟩)]) := by
  obtain ⟨ws, t, hws, hes⟩ := h.current _ _ hb
  have hlen : block.exprs.length = ws.length + 2 := by rw [hes, List.length_append]; rfl
  refine ⟨by omega, ?_⟩
  simp only [List.foldl_cons, List.foldl_nil, BlockBrackets.step]
  rw [editBlock_comp, editBlock_comp, hlen, Nat.add_sub_cancel]
  have hedit : ((block.exprs.modify ws.length (addDebugInfo "fs")).modify ws.length
      (addDebugInfo f.opName)) ++ [.submitOp ⟨"async_" ++ toString x, some x, [f.opName]⟩] =
      ws ++ [.newEvent ⟨x, ⟨.EXT, 0⟩, ["fs", f.opName]⟩, .link ⟨t, x, []⟩,
        .submitOp ⟨"async_" ++ toString x, some x, [f.opName]⟩] := by
    rw [hes, modify_length_append, modify_length_append, List.append_assoc]
    rfl
  refine h.edit hb _ .other [_] ?_ ?_
  · show Sentences (_ ++ _)
    rw [hedit]
    exact hws.submitted x t f
  · show submitOpsOf (_ ++ _) = _
    rw [hedit, hes, submitOpsOf_append, submitOpsOf_append, List.append_assoc]
    rfl

end Steps

/-- **One callback.** -/
theorem Written.step {s : System} {tail : Tail} {ops : List (String × SubmitOp)}
    (h : Written s.blocks tail ops) {c : Callback} (he : Enabled s c)
    (hb : s.started = true → ∃ before block, AtEnd s.blocks before block)
    (hpops : c.pops = true → tail = .event)
    (hsubmits : ∀ f args x, c = .uvFs f args → getArg args f.asyncPos ≠ 0 →
      s.createdEvent = some x → tail = .created x) :
    Written (s.step c).blocks ((s.utters c).getLastD tail) (ops ++ s.submitOp c) := by
  by_cases hc : c = .node .start
  · subst hc
    have h' : Written { s.blocks with promiseSet := [] } tail ops := ⟨h.sentences, h.current, h.ops⟩
    exact (List.append_nil ops).symm ▸ h'.addMainBlock
  show Written (s.nextBlocks c) _ _
  rw [nextBlocks_of_ne hc]
  cases hm : c.isMain with
  | false =>
      rw [commands_of_not_main hm]
      cases c with
      | node call => cases hm
      | nodeReturn => cases hm
      | thenable => cases hm
      | uvFs f args => cases hm
      | _ => exact (List.append_nil ops).symm ▸ h
  | true =>
      obtain ⟨before, block, hb⟩ := hb (he.inside hm hc).1
      cases c with
      | node call =>
          rw [show ops ++ s.submitOp (.node call) = ops from List.append_nil ops]
          cases call with
          | start => exact absurd rfl hc
          | pushAsyncIds x t => exact h.push hb x t
          | popAsyncId x => exact h.close hb x
          | emitAsyncInit x t =>
              unfold System.commands System.utters
              dsimp only
              split
              · exact h.event hb _ (by simp)
              · split
                · exact ⟨h.sentences, h.current, h.ops⟩
                · exact h.created hb x t
          | timerWrapNow =>
              obtain rfl := hpops rfl
              exact h.replace hb _ (by simp)
          | timerWrapNew => exact h
          | emitPromiseResolve x => exact h.event hb _ (by simp)
          | promiseWrapNew => exact h
          | newAsyncId => exact h.event hb _ (by simp)
          | newTickInfo =>
              obtain rfl := hpops rfl
              exact h.replace hb _ (by simp)
      | nodeReturn => exact (List.append_nil ops).symm ▸ h
      | thenable =>
          obtain rfl := hpops rfl
          exact (List.append_nil ops).symm ▸ h.pop hb
      | uvFs f args =>
          have hsize : s.size = block.exprs.length := by
            unfold System.size
            rw [hb.getCurrentBlock]
            rfl
          have hid : s.blockId = block.getPrettyBlockId := by
            unfold System.blockId
            rw [hb.getCurrentBlock]
            rfl
          unfold System.commands System.utters System.submitOp System.submission
          dsimp only
          rw [hid]
          by_cases hsync : getArg args f.asyncPos = 0
          · rw [if_pos hsync]
            have hcommands : s.submitCommands f.opName
                ⟨getArg args 1, "sync_" ++ toString (s.syncOpCount + 1), none⟩ =
                [.addExpr (.submitOp
                  ⟨"sync_" ++ toString (s.syncOpCount + 1), none, [f.opName]⟩)] := by
              unfold System.submitCommands
              rw [if_neg (by simp), List.nil_append]
            dsimp only [Option.elim_some]
            rw [hcommands]
            exact h.sync hb _ f
          · rw [if_neg hsync]
            cases hx : s.createdEvent with
            | none => exact (List.append_nil ops).symm ▸ h
            | some x =>
                obtain rfl := hsubmits f args x rfl hsync hx
                obtain ⟨hlen, hw⟩ := h.submitted hb f
                dsimp only [Option.map_some, Option.elim_some]
                unfold System.submitCommands
                rw [hsize, if_pos ⟨hlen, rfl⟩]
                exact hw
      | _ => cases hm

/-- **What a legal prompt run writes.** -/
theorem written_run {cs : List Callback} (h : Legal cs) (hp : Prompt cs) :
    Written (System.run cs).blocks (said cs) (submitOps cs) := by
  induction cs using List.reverseRecOn with
  | nil =>
      refine ⟨fun x hx => (List.not_mem_nil hx).elim, fun before block hb => ?_, rfl⟩
      exact absurd hb.1 (by simp [System.run, System.init])
  | append_singleton cs c ih =>
      have hpre := List.prefix_append cs [c]
      have hstep := (ih (h.of_prefix hpre) (hp.of_prefix hpre)).step
        (h.enabled (List.prefix_refl _))
        (atEnd_system cs) (hp.pops cs c (List.prefix_refl _))
        fun f args x hc => hp.submits cs f args x (hc ▸ List.prefix_refl _)
      rw [System.run_snoc, said_snoc]
      unfold submitOps at hstep ⊢
      rw [Machine.outputs_snoc]
      exact hstep

/-! ## 4. The blocks of the tracer -/

theorem prompt_sampleRun : Prompt sampleRun := by decide +kernel

/-- **The blocks of a prompt run** are sequences of whole sentences. -/
theorem sentences_run (threadId : Nat) (cwd : String) {cs : List Callback} (h : Legal cs)
    (hp : Prompt cs) : ∃ g, run threadId cwd cs = .ok g ∧
      ∀ block ∈ g.trace.blocks, Sentences block.exprs := by
  obtain ⟨g, hg, hr⟩ := refines_run threadId cwd h
  have hblocks := hr.traceBlocks
  exact ⟨g, hg, fun block hblock => (written_run h hp).sentences block (hblocks ▸ hblock)⟩

/-- The blocks of the sample run. -/
theorem sentences_run_sampleRun : ∃ g, run 1 "/" sampleRun = .ok g ∧
    ∀ block ∈ g.trace.blocks, Sentences block.exprs :=
  sentences_run 1 "/" legal_sampleRun prompt_sampleRun

/-- **No submission is lost from the blocks**: their `submitOp`s are the submissions of the run,
    each once and in order, in the block in which the main thread made it. -/
theorem submitOps_run (threadId : Nat) (cwd : String) {cs : List Callback} (h : Legal cs)
    (hp : Prompt cs) : ∃ g, run threadId cwd cs = .ok g ∧
      g.trace.blocks.flatMap placedOps = submitOps cs := by
  obtain ⟨g, hg, hr⟩ := refines_run threadId cwd h
  have hblocks := hr.traceBlocks
  exact ⟨g, hg, hblocks ▸ (written_run h hp).ops⟩

/-- The submissions of the sample run. -/
theorem submitOps_run_sampleRun : ∃ g, run 1 "/" sampleRun = .ok g ∧
    g.trace.blocks.flatMap placedOps = submitOps sampleRun :=
  submitOps_run 1 "/" legal_sampleRun prompt_sampleRun

end NodeGenerator

end Fsracer

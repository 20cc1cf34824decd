/-
  File:      Fsracer/NodeTrace.lean
  Subject:   TRACES OF THE NODE TRACER (tools/drfsracer/NodeGenerator.cpp sets the names and tags)
             and the tokens of their dumps.

  `RecordedTrace` are the traces the tracer can record. **`lex_dump_recorded`**: the lexer reads
  the dump of such a trace as the preamble, the header and `traceToks`.
-/
import Mathlib
import Fsracer.Reparse

namespace Fsracer

open TraceLexer TraceParser

/-! ## 1. Recorded traces -/

/-- The names under which the wrappers record the operations of a class. -/
def wrapperNames : OpKind → List String
  | .delFd .. => ["close"]
  | .hpath .. => ["access", "chmod", "chown", "open", "readlink", "realpath", "rename", "rmdir",
      "stat", "unlink", "utime"]
  | .hpathSym .. => ["lchown", "lstat", "link", "mkdir"]
  | .link .. => ["link"]
  | .newFd .. => ["open"]
  | .rename .. => ["rename"]
  | .symlink .. => ["symlink"]

/-- The tags the wrappers set. -/
def debugTags : List String := [
  "fs", "timerWrap", "nextTick", "setTimeout", "promise", "setImmediate",
  "node_access", "node_chmod", "node_chown", "node_copyFile", "node_close", "node_lchown",
  "node_lstat", "node_link", "node_mkdir", "node_open", "node_opendir", "node_readlink",
  "node_realpath", "node_rename", "node_rmdir", "node_stat", "node_symlink", "node_unlink",
  "node_utime"]

/-- The values of an `int`. -/
def IsInt (i : Int) : Prop := -2147483648 ≤ i ∧ i ≤ 2147483647

/-- The arguments of a recorded operation. `DelFd` stores the `int` in a `size_t`; `open` failed
    iff its descriptor is negative. -/
def RecordedArgs (op : Operation) : Prop :=
  match op.kind with
  | .delFd fd => ∃ i : Int, IsInt i ∧ fd = (i % 2 ^ 64).toNat
  | .hpath dirfd path _ | .hpathSym dirfd path _ => dirfd = atFdcwd ∧ IsIdentifier path
  | .link oldDirfd oldPath newDirfd newPath | .rename oldDirfd oldPath newDirfd newPath =>
      oldDirfd = atFdcwd ∧ newDirfd = atFdcwd ∧ IsIdentifier oldPath ∧ IsIdentifier newPath
  | .newFd dirfd path fd =>
      dirfd = atFdcwd ∧ IsIdentifier path ∧ IsInt fd ∧ (op.failed = true ↔ fd < 0)
  | .symlink dirfd path target => dirfd = atFdcwd ∧ IsIdentifier path ∧ IsIdentifier target

/-- An operation that a wrapper records. -/
structure RecordedOperation (op : Operation) : Prop where
  name : op.actualOpName ∈ wrapperNames op.kind
  args : RecordedArgs op

/-- An expression that a wrapper records: ids and values are in the range of `int`. -/
def RecordedExpr : Expr → Prop
  | .submitOp e => IsOpId e.opId ∧ (∀ event, e.eventId = some event → event ≤ intMax) ∧
      e.debugInfo ≠ [] ∧ ∀ tag ∈ e.debugInfo, tag ∈ debugTags
  | .newEvent e => e.eventId ≤ intMax ∧ e.event.eventType ≠ .MAIN ∧ e.event.eventValue ≤ intMax ∧
      (e.event.eventType = .EXT → e.event.eventValue = 0) ∧ ∀ tag ∈ e.debugInfo, tag ∈ debugTags
  | .link e => e.sourceEv ≤ intMax ∧ e.targetEv ≤ intMax ∧ ∀ tag ∈ e.debugInfo, tag ∈ debugTags
  | .trigger e => e.eventId ≤ intMax ∧ ∀ tag ∈ e.debugInfo, tag ∈ debugTags

/-- A trace that the Node tracer can record, with an operation and a block that is printed. -/
structure RecordedTrace (trace : Trace) : Prop where
  cwd : IsIdentifier trace.cwd
  opIds : ∀ execOp ∈ trace.execOps, IsOpId execOp.id
  operations : ∀ execOp ∈ trace.execOps, ∀ op ∈ execOp.operations, RecordedOperation op
  blockIds : ∀ block ∈ trace.blocks, block.blockId ≤ intMax
  exprs : ∀ block ∈ trace.blocks, ∀ e ∈ block.exprs, RecordedExpr e
  someOp : trace.execOps ≠ []
  someBlock : trace.printedBlocks ≠ []

/-! ## 2. The tokens of a recorded trace -/

/-- A tag without a "P" in front is read as it stands. -/
theorem readableTag_of_head {tag : String} (h : IsWord tag.toList)
    (hP : tag.toList.head? ≠ some 'P') : ReadableTag tag := by
  refine ⟨h, fun hc => hP ?_⟩
  obtain ⟨r, hr⟩ := hc
  rw [← hr]
  rfl

theorem identifier_debugTag {tag : String} (h : tag ∈ debugTags) :
    IsIdentifier tag ∧ ReadableTag tag := by
  have hall : ∀ tag ∈ debugTags, IsIdentifier tag ∧ tag.toList.head? ≠ some 'P' := by
    decide +kernel
  obtain ⟨hi, hP⟩ := hall tag h
  exact ⟨hi, readableTag_of_head hi.isWord hP⟩

/-- Every name of a wrapper can be read. -/
theorem readable_name {name : String} {kind : OpKind} (h : name ∈ wrapperNames kind) :
    ReadableTag name := by
  have hall : ∀ name ∈ wrapperNames kind, (name.toList.all isIdentChar ∧
      name.toList.head?.any isIdentStart) ∧ name.toList.head? ≠ some 'P' := by
    cases kind <;> simp only [wrapperNames] <;> decide +kernel
  obtain ⟨⟨hchars, hstart⟩, hP⟩ := hall name h
  exact readableTag_of_head (isWord_of_all hchars hstart) hP

theorem readable_failed : ReadableTag "failed" :=
  readableTag_of_head (isWord_of_all (by decide +kernel) (by decide +kernel)) (by decide)

theorem RecordedArgs.readable {op : Operation} (h : RecordedArgs op) : ReadableArgs op := by
  have h0 : atFdcwd ≤ intMax := by decide
  obtain ⟨kind, failed, name⟩ := op
  cases kind with
  | delFd fd => trivial
  | hpath dirfd path eff => exact ⟨h.1.trans_le h0, h.2⟩
  | hpathSym dirfd path eff => exact ⟨h.1.trans_le h0, h.2⟩
  | link oldDirfd oldPath newDirfd newPath =>
      exact ⟨⟨h.1.trans_le h0, h.2.1.trans_le h0⟩, h.2.2⟩
  | rename oldDirfd oldPath newDirfd newPath =>
      exact ⟨⟨h.1.trans_le h0, h.2.1.trans_le h0⟩, h.2.2⟩
  | newFd dirfd path fd =>
      obtain ⟨hfd, hpath, hint, hneg⟩ := h
      refine ⟨hfd.trans_le h0, hpath, fun hf => ⟨Int.not_lt.mp fun hc => ?_, hint.2⟩⟩
      exact Bool.false_ne_true (hf.symm.trans (hneg.mpr hc))
  | symlink dirfd path target => exact ⟨h.1.trans_le h0, h.2⟩

/-- The marks of a recorded operation: its name, and whether it failed. -/
theorem marks_recorded {op : Operation} (h : RecordedOperation op) :
    op.marks = op.actualOpName :: if op.failed then ["failed"] else [] := by
  have hne : op.actualOpName ≠ "" := by
    intro he
    have hall : ∀ kind, "" ∉ wrapperNames kind := by
      intro kind
      cases kind <;> simp [wrapperNames]
    exact hall op.kind (he ▸ h.name)
  simp [Operation.marks, hne]

theorem readsLines_recorded {op : Operation} (h : RecordedOperation op) :
    ReadsLines [op.lexemes] (opToks op) := by
  refine readsLines_operation h.args.readable fun mark hm => ?_
  rw [marks_recorded h] at hm
  rcases List.mem_cons.mp hm with rfl | hm
  · exact readable_name h.name
  · cases hf : op.failed with
    | false => simp [hf] at hm
    | true =>
        simp only [hf, if_true, List.mem_singleton] at hm
        rw [hm]
        exact readable_failed

theorem isMetaVars_debugTags {tags : List String} (hne : tags ≠ [])
    (h : ∀ tag ∈ tags, tag ∈ debugTags) : IsMetaVars tags := by
  cases tags with
  | nil => exact absurd rfl hne
  | cons tag tags =>
      exact ⟨.inl (identifier_debugTag (h tag List.mem_cons_self)).1,
        fun t ht => (identifier_debugTag (h t (List.mem_cons_of_mem _ ht))).1⟩

theorem RecordedExpr.readable {e : Expr} (h : RecordedExpr e) : ReadableExpr e := by
  cases e with
  | submitOp e => exact ⟨h.2.1, isMetaVars_debugTags h.2.2.1 h.2.2.2⟩
  | newEvent e =>
      obtain ⟨hid, hmain, hval, hext, htags⟩ := h
      exact ⟨hid, hmain, hval, hext, fun hne => isMetaVars_debugTags hne htags⟩
  | link e => exact ⟨h.1, h.2.1⟩
  | trigger e => exact h.1

theorem RecordedExpr.readsLines {e : Expr} (h : RecordedExpr e) :
    ReadsLines [e.lexemes] (exprToks e) := by
  refine readsLines_expr (fun submitOp he => ?_) fun tag ht => ?_
  · subst he
    exact h.1.text
  · cases e with
    | submitOp e => exact (identifier_debugTag (h.2.2.2 tag ht)).2
    | newEvent e => exact (identifier_debugTag (h.2.2.2.2 tag ht)).2
    | link e => exact absurd ht List.not_mem_nil
    | trigger e => exact absurd ht List.not_mem_nil

/-- **The tokens of the dump of a recorded trace.** -/
theorem lex_dump_recorded {trace : Trace} (h : RecordedTrace trace) :
    ∃ blocks operations entries, lex (dump trace).toList =
      statToks "Blocks" blocks ++ (statToks "Operations" operations ++
        (statToks "Entries" entries ++ (headerToks trace ++ traceToks trace))) :=
  lex_dump h.cwd
    (fun x hx => readsLines_execOp (h.opIds x hx).text fun op hop =>
      readsLines_recorded (h.operations x hx op hop))
    fun b hb => readsLines_block fun e he => (h.exprs b (mem_printedBlocks hb).1 e he).readsLines

end Fsracer

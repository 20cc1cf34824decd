/-
  File:      Fsracer/RoundTrip.lean
  Subject:   PARSING WHAT WAS DUMPED.

  **`parse_dump`** computes what the parser makes of the dump of a recorded trace: every operation
  and expression comes back as `reparse…` says, or parsing fails. **`roundTrip_iff`**: the trace
  itself comes back, without its empty main blocks, iff it meets `RoundTrips`; `roundTrip_fails`
  is a recorded trace that is rejected.
-/
import Mathlib
import Fsracer.NodeTrace

namespace Fsracer

open TraceLexer TraceParser

/-! ## 1. Marks -/

/-- The names that are keywords and that `meta_vars` does not accept. -/
def IsLinkName (name : String) : Prop := name = "link" ∨ name = "symlink"

instance (name : String) : Decidable (IsLinkName name) := inferInstanceAs (Decidable (_ ∨ _))

/-- The marks of an operation are read back, unless its name is a keyword. -/
theorem metaVars_marks {op : Operation} (h : RecordedOperation op) {rest : List Token}
    (hrest : rest.head? ≠ some .exclamation) (tr : Trace) (os : List Operation) (es : List Expr) :
    metaVars ⟨tagToks op.marks ++ rest, tr, os, es⟩ =
      if IsLinkName op.actualOpName then .error .syntaxError
      else .ok (op.marks, ⟨rest, tr, os, es⟩) := by
  rw [marks_recorded h]
  have htail : ∀ t ∈ if op.failed then ["failed"] else [], IsIdentifier t := by
    intro t ht
    cases hf : op.failed with
    | false => simp [hf] at ht
    | true =>
        simp only [hf, if_true, List.mem_singleton] at ht
        rw [ht]
        decide +kernel
  generalize (if op.failed then ["failed"] else []) = tags at htail
  have hname : ∀ name ∈ wrapperNames op.kind, IsLinkName name ∧
        (wordToken name.toList = .link ∨ wordToken name.toList = .symlink) ∨
      ¬ IsLinkName name ∧ (IsIdentifier name ∨ name = "rename") := by
    cases op.kind <;> simp only [wrapperNames] <;> decide +kernel
  rcases hname _ h.name with ⟨hl, hw⟩ | ⟨hl, hi⟩
  · rw [if_pos hl]
    show metaVars ⟨.exclamation :: wordToken op.actualOpName.toList :: (tagToks tags ++ rest),
      tr, os, es⟩ = _
    rcases hw with hw | hw
    · rw [hw]; rfl
    · rw [hw]; rfl
  · rw [if_neg hl]
    have hm : IsMetaVars (op.actualOpName :: tags) := ⟨hi, htail⟩
    exact metaVars_tags hm hrest tr os es

/-! ## 2. Operations -/

/-- What the parser makes of the line of a recorded operation. -/
def reparseOperation (op : Operation) : Except ParseError Operation :=
  if IsLinkName op.actualOpName then .error .syntaxError
  else (readKind op.kind op.failed).map fun k => { op with kind := k.1 }

theorem recorded_name_ne_failed {op : Operation} (h : RecordedOperation op) :
    op.actualOpName ≠ "failed" := by
  intro he
  have hall : ∀ kind, "failed" ∉ wrapperNames kind := by
    intro kind
    cases kind <;> simp [wrapperNames]
  exact hall op.kind (he ▸ h.name)

/-- **The line of an operation.** -/
theorem oper_operation {op : Operation} (h : RecordedOperation op) (rest : List Token)
    (s : ParserState) (hrest : rest.head? ≠ some .exclamation) :
    oper { s with toks := opToks op ++ rest } =
      (reparseOperation op).map fun op' =>
        ((), { s with toks := rest, opers := s.opers ++ [op'] }) := by
  have hts : (tagToks op.marks ++ rest).head? = some .exclamation := by
    rw [marks_recorded h]
    rfl
  have hvars : ∀ tr os es, metaVars ⟨tagToks op.marks ++ rest, tr, os, es⟩ =
      (if IsLinkName op.actualOpName then Except.error ParseError.syntaxError
        else .ok (op.marks, rest)).map fun vars => (vars.1, ⟨vars.2, tr, os, es⟩) := by
    intro tr os es
    refine (metaVars_marks h hrest tr os es).trans ?_
    split
    · rfl
    · rfl
  unfold opToks
  rw [List.append_assoc, oper_args h.args.readable hts hvars]
  unfold reparseOperation
  split
  · rfl
  · cases hk : readKind op.kind op.failed with
    | error e => rfl
    | ok k =>
        simp only [ok_bind, Except.map, addOperationDebugInfo_marks (recorded_name_ne_failed h) k.1 (readKind_failed hk)]

/-! ## 3. Traces -/

/-- **What the parser makes of the dump of a recorded trace.** -/
theorem parse_dump {trace : Trace} (h : RecordedTrace trace) :
    parse (dump trace) = (trace.execOps.mapM (readExecOp reparseOperation)).bind fun execOps =>
      if trace.threadId ≤ intMax then
        .ok ⟨trace.threadId, trace.cwd, execOps, trace.printedBlocks.map reparseBlock⟩
      else .error .outOfRange := by
  obtain ⟨blocks, operations, entries, hlex⟩ := lex_dump_recorded h
  exact parse_lines hlex (fun x hx op hop => oper_operation (h.operations x hx op hop)) h.blockIds
    (fun b hb e he => (h.exprs b hb e he).readable) h.someOp h.someBlock

/-! ## 4. The round trip -/

/-- The conditions under which an operation comes back. -/
def Operation.RoundTrips (op : Operation) : Prop :=
  ¬ IsLinkName op.actualOpName ∧
    match op.kind with
    | .delFd fd => fd ≤ intMax
    | .newFd _ _ fd => op.failed = true → fd = -1
    | _ => True

/-- The conditions under which an expression comes back. -/
def Expr.RoundTrips : Expr → Prop
  | .link e => e.debugInfo = []
  | .trigger e => e.debugInfo = []
  | _ => True

/-- The conditions under which a trace comes back. -/
structure RoundTrips (trace : Trace) : Prop where
  threadId : trace.threadId ≤ intMax
  operations : ∀ execOp ∈ trace.execOps, ∀ op ∈ execOp.operations, op.RoundTrips
  exprs : ∀ block ∈ trace.blocks, ∀ e ∈ block.exprs, e.RoundTrips

theorem reparseOperation_eq_self {op : Operation} :
    reparseOperation op = .ok op ↔ op.RoundTrips := by
  obtain ⟨kind, failed, name⟩ := op
  unfold reparseOperation Operation.RoundTrips
  by_cases hl : IsLinkName name
  · rw [if_pos hl]
    exact iff_of_false error_ne_ok fun h => h.1 hl
  · rw [if_neg hl]
    cases kind with
    | delFd fd =>
        by_cases hfd : fd ≤ intMax
        · simp [readKind, hfd, hl, Except.map]
        · simp [readKind, hfd, Except.map]
    | newFd dirfd path fd => cases failed <;> simp [readKind, hl, Except.map, eq_comm]
    | _ => simp [readKind, hl, Except.map]

theorem reparseExpr_eq_self {e : Expr} : reparseExpr e = e ↔ e.RoundTrips := by
  cases e with
  | link e =>
      obtain ⟨source, target, tags⟩ := e
      simp [reparseExpr, Expr.RoundTrips, eq_comm]
  | trigger e =>
      obtain ⟨event, tags⟩ := e
      simp [reparseExpr, Expr.RoundTrips, eq_comm]
  | submitOp e => exact iff_of_true rfl trivial
  | newEvent e => exact iff_of_true rfl trivial

/-- Only blocks without expressions are not printed. -/
theorem forall_printedBlocks {trace : Trace} {p : Expr → Prop} :
    (∀ b ∈ trace.printedBlocks, ∀ e ∈ b.exprs, p e) ↔ ∀ b ∈ trace.blocks, ∀ e ∈ b.exprs, p e := by
  refine ⟨fun h b hb e he => ?_, fun h b hb => h b (mem_printedBlocks hb).1⟩
  refine h b (List.mem_filter.mpr ⟨hb, ?_⟩) e he
  simp [Block.isEmptyMain, List.ne_nil_of_mem he]

/-- **Parsing undoes dumping** for exactly the recorded traces that meet `RoundTrips`. -/
theorem roundTrip_iff {trace : Trace} (h : RecordedTrace trace) :
    parse (dump trace) = .ok { trace with blocks := trace.printedBlocks } ↔ RoundTrips trace := by
  have hops : trace.execOps.mapM (readExecOp reparseOperation) = .ok trace.execOps ↔
      ∀ x ∈ trace.execOps, ∀ op ∈ x.operations, op.RoundTrips := by
    rw [mapM_eq_self]
    simp only [readExecOp_eq_self, reparseOperation_eq_self]
  have hblocks : trace.printedBlocks.map reparseBlock = trace.printedBlocks ↔
      ∀ b ∈ trace.blocks, ∀ e ∈ b.exprs, e.RoundTrips := by
    rw [← forall_printedBlocks, map_eq_self]
    simp only [reparseBlock_eq_self, reparseExpr_eq_self]
  rw [parse_dump h]
  refine ⟨fun hp => ?_, fun ⟨hid, ho, he⟩ => ?_⟩
  · cases hm : trace.execOps.mapM (readExecOp reparseOperation) with
    | error e =>
        rw [hm] at hp
        exact absurd hp error_ne_ok
    | ok execOps =>
        rw [hm, ok_bind] at hp
        split at hp
        · rename_i hid
          injection hp with hp
          injection hp with _ _ hxs hbs
          exact ⟨hid, hops.mp (hxs ▸ hm), hblocks.mp hbs⟩
        · exact absurd hp error_ne_ok
  · rw [hops.mpr ho, ok_bind, if_pos hid, hblocks.mpr he]

/-- A program that submits one operation and creates one event. -/
def oneOperation (op : Operation) : Trace :=
  ⟨4242, "/home", [⟨"sync_1", [op]⟩],
    [⟨1, .MAIN, [.newEvent ⟨4, ⟨.S, 0⟩, ["nextTick"]⟩, .submitOp ⟨"sync_1", none, ["node_open"]⟩]⟩,
      ⟨2, .MAIN, []⟩]⟩

theorem isOpId_sync : IsOpId "sync_1" := ⟨1, .inl (by decide)⟩

theorem recorded_oneOperation {op : Operation} (h : RecordedOperation op) :
    RecordedTrace (oneOperation op) where
  cwd := by
    show IsIdentifier "/home"
    decide +kernel
  opIds := by simpa [oneOperation] using isOpId_sync
  operations := by simpa [oneOperation] using h
  blockIds := by simp [oneOperation, intMax]
  exprs := by
    simp [oneOperation, RecordedExpr, intMax, debugTags, isOpId_sync]
  someOp := List.cons_ne_nil _ _
  someBlock := List.cons_ne_nil _ _

theorem recorded_open : RecordedOperation ⟨.newFd atFdcwd "/home/f" 5, false, "open"⟩ where
  name := List.mem_singleton.mpr rfl
  args := ⟨rfl, by decide +kernel, ⟨by decide, by decide⟩, by decide⟩

theorem recorded_symlink :
    RecordedOperation ⟨.symlink atFdcwd "/home/f" "/home/g", false, "symlink"⟩ where
  name := List.mem_singleton.mpr rfl
  args := ⟨rfl, by decide +kernel, by decide +kernel⟩

/-- The trace of a program that opens a file comes back. -/
theorem roundTrip_open : parse (dump (oneOperation ⟨.newFd atFdcwd "/home/f" 5, false, "open"⟩)) =
    .ok { oneOperation ⟨.newFd atFdcwd "/home/f" 5, false, "open"⟩ with
      blocks := (oneOperation ⟨.newFd atFdcwd "/home/f" 5, false, "open"⟩).printedBlocks } :=
  (roundTrip_iff (recorded_oneOperation recorded_open)).mpr
    { threadId := by decide
      operations := by simp [oneOperation, Operation.RoundTrips, IsLinkName]
      exprs := by simp [oneOperation, Expr.RoundTrips] }

/-- Parsing does not undo dumping for a recorded call of `symlink`. -/
theorem roundTrip_fails : ¬ ∀ trace, RecordedTrace trace →
    parse (dump trace) = .ok { trace with blocks := trace.printedBlocks } := by
  intro h
  have hrec := recorded_oneOperation recorded_symlink
  have hp := h _ hrec
  rw [parse_dump hrec] at hp
  exact error_ne_ok hp
end Fsracer

/-
  File:      Fsracer/Reparse.lean
  Subject:   THE PARSER ON THE LINES OF A TRACE FILE.

  From `meta_vars` to `program`: what the parser makes of the tokens of every line.
  **`parse_lines`**: where the lexer reads a dump as its lines, the parser builds what the lines
  of the operations and expressions are read as, or fails as one of them does.
-/
import Mathlib
import Fsracer.Lines

namespace Fsracer

open TraceLexer TraceParser

/-! ## 1. Tags -/

theorem metaVarsTail_tags {tags : List String} (h : ∀ tag ∈ tags, IsIdentifier tag)
    {rest : List Token} (hrest : rest.head? ≠ some .exclamation) :
    metaVarsTail (tagToks tags ++ rest) = (tags, rest) := by
  induction tags with
  | nil =>
      cases rest with
      | nil => rfl
      | cons t rest =>
          have ht : t ≠ .exclamation := fun he => hrest (congrArg some he)
          show metaVarsTail (t :: rest) = ([], t :: rest)
          unfold metaVarsTail
          split
          · rename_i heq
            exact absurd (List.cons.inj heq).1 ht
          · rfl
  | cons tag tags ih =>
      have ih := ih fun tag' ht => h tag' (List.mem_cons_of_mem _ ht)
      show metaVarsTail (.exclamation :: wordToken tag.toList :: (tagToks tags ++ rest)) = _
      rw [wordToken_identifier (h tag List.mem_cons_self), metaVarsTail, ih]

/-- The words of `meta_vars`: identifiers, the first of which may be the keyword `rename`. -/
def IsMetaVars : List String → Prop
  | [] => False
  | tag :: tags => (IsIdentifier tag ∨ tag = "rename") ∧ ∀ tag' ∈ tags, IsIdentifier tag'

/-- **`meta_vars` on printed tags.** -/
theorem metaVars_tags {tags : List String} (h : IsMetaVars tags) {rest : List Token}
    (hrest : rest.head? ≠ some .exclamation) (tr : Trace) (os : List Operation) (es : List Expr) :
    metaVars ⟨tagToks tags ++ rest, tr, os, es⟩ = .ok (tags, ⟨rest, tr, os, es⟩) := by
  cases tags with
  | nil => exact absurd h id
  | cons tag tags =>
      obtain ⟨htag, htags⟩ := h
      have ht := metaVarsTail_tags htags hrest
      show metaVars ⟨.exclamation :: wordToken tag.toList :: (tagToks tags ++ rest), tr, os, es⟩ = _
      rcases htag with htag | rfl
      · rw [wordToken_identifier htag]
        unfold metaVars
        simp only [ht]
      · have hw : wordToken "rename".toList = .rename := by decide +kernel
        rw [hw]
        unfold metaVars
        simp only [ht]

theorem tagToks_head {tags : List String} (hne : tags ≠ []) (rest : List Token) :
    (tagToks tags ++ rest).head? = some .exclamation := by
  cases tags with
  | nil => exact absurd rfl hne
  | cons tag tags => rfl

/-! ## 2. Operations -/

/-- The class and the failed mark that the parser builds for an operation. -/
def readKind : OpKind → Bool → Except ParseError (OpKind × Bool)
  | .delFd fd, _ => if fd ≤ intMax then .ok (.delFd fd, false) else .error .outOfRange
  | .newFd dirfd path _, true => .ok (.newFd dirfd path (-1), true)
  | kind, _ => .ok (kind, false)

theorem readKind_failed {kind : OpKind} {failed : Bool} {k : OpKind × Bool}
    (h : readKind kind failed = .ok k) : k.2 = true → failed = true := by
  intro hk
  cases failed with
  | true => rfl
  | false =>
      cases kind with
      | delFd fd =>
          simp only [readKind] at h
          split at h
          · cases h
            exact hk
          · cases h
      | _ =>
          cases h
          exact hk

theorem effectType_cons (eff : EffectType) (ts : List Token) (tr : Trace) (os : List Operation)
    (es : List Expr) :
    effectType ⟨effectTok eff :: ts, tr, os, es⟩ = .ok (eff, ⟨ts, tr, os, es⟩) := by
  cases eff <;> rfl

/-- Reading the marks that were printed for an operation restores its name and its mark. -/
theorem addOperationDebugInfo_marks {op : Operation} (hname : op.actualOpName ≠ "failed")
    (kind : OpKind) {failed : Bool} (hf : failed = true → op.failed = true) :
    addOperationDebugInfo { kind := kind, failed := failed } op.marks = { op with kind := kind } := by
  obtain ⟨kind', failed', name⟩ := op
  have hname : name ≠ "failed" := hname
  unfold Operation.marks addOperationDebugInfo
  by_cases hne : name = ""
  · subst hne
    cases failed' with
    | true => simp [Operation.markFailed]
    | false =>
        have hf : failed = false := by simpa using hf
        simp [hf]
  · cases failed' with
    | true => simp [hne, hname, Operation.setActualOpName, Operation.markFailed]
    | false =>
        have hf : failed = false := by simpa using hf
        simp [hne, hname, Operation.setActualOpName, hf]

theorem dirfd_cons {fd : Nat} (h : fd ≤ intMax) (ts : List Token) (tr : Trace)
    (os : List Operation) (es : List Expr) :
    dirfd ⟨dirfdTok fd :: ts, tr, os, es⟩ = .ok (fd, ⟨ts, tr, os, es⟩) := by
  unfold dirfdTok
  split
  · rename_i h0
    rw [h0]
    rfl
  · simp only [dirfd, bind_apply, peek_apply, List.head?_cons, ok_bind, number_cons, stoi_ok h]

/-- **`oper` on the arguments of an operation**, in front of its marks. -/
theorem oper_args {op : Operation} (h : ReadableArgs op) {ts : List Token}
    (hts : ts.head? = some .exclamation) {r : Except ParseError (List String × List Token)}
    (hvars : ∀ tr os es, metaVars ⟨ts, tr, os, es⟩ =
      r.map fun vars => (vars.1, ⟨vars.2, tr, os, es⟩)) (s : ParserState) :
    oper { s with toks := argToks op ++ ts } =
      r.bind fun vars => (readKind op.kind op.failed).map fun k => ((), { s with
        toks := vars.2
        opers := s.opers ++ [addOperationDebugInfo { kind := k.1, failed := k.2 } vars.1] }) := by
  obtain ⟨kind, failed, name⟩ := op
  obtain ⟨toks, tr, os, es⟩ := s
  have hpush : ∀ kind failed, (((metaVars ⟨ts, tr, os, es⟩).bind fun x =>
        pushOper (addOperationDebugInfo { kind := kind, failed := failed } x.1) x.2) =
      r.bind fun vars => .ok ((), ⟨vars.2, tr, os ++
        [addOperationDebugInfo { kind := kind, failed := failed } vars.1], es⟩)) := by
    intro kind failed
    rw [hvars]
    cases r with
    | error e => rfl
    | ok vars => rfl
  have hstoi : ∀ (n : Nat) (kind : Nat → OpKind), (((metaVars ⟨ts, tr, os, es⟩).bind fun x =>
        (stoi (toString n) x.2).bind fun y =>
          pushOper (addOperationDebugInfo { kind := kind y.1 } x.1) y.2) =
      r.bind fun vars => if n ≤ intMax then .ok ((), ⟨vars.2, tr, os ++
        [addOperationDebugInfo { kind := kind n } vars.1], es⟩) else .error .outOfRange) := by
    intro n kind
    rw [hvars]
    cases r with
    | error e => rfl
    | ok vars =>
        simp only [Except.map, ok_bind, stoi_toString]
        split
        · rfl
        · rfl
  cases kind with
  | delFd fd =>
      simp only [argToks, List.cons_append, oper, bind_apply, peek_apply, List.head?_cons, ok_bind,
        shift_cons, number_cons, List.nil_append, hstoi fd .delFd, readKind]
      split
      · rfl
      · rfl
  | hpath dirfd path eff | hpathSym dirfd path eff =>
      obtain ⟨hfd, _⟩ := h
      simp only [argToks, List.cons_append, oper, bind_apply, peek_apply, List.head?_cons, ok_bind,
        shift_cons, dirfd_cons hfd, identifier_cons, effectType_cons, List.nil_append]
      exact hpush _ _
  | link oldDirfd oldPath newDirfd newPath | rename oldDirfd oldPath newDirfd newPath =>
      obtain ⟨⟨hold, hnew⟩, _⟩ := h
      simp only [argToks, List.cons_append, oper, bind_apply, peek_apply, List.head?_cons, ok_bind,
        shift_cons, dirfd_cons hold, dirfd_cons hnew, identifier_cons, List.nil_append]
      exact hpush _ _
  | symlink dirfd path target =>
      obtain ⟨hfd, _⟩ := h
      simp only [argToks, List.cons_append, oper, bind_apply, peek_apply, List.head?_cons, ok_bind,
        shift_cons, dirfd_cons hfd, identifier_cons, List.nil_append]
      exact hpush _ _
  | newFd dirfd path fd =>
      obtain ⟨hfd, _, hopen⟩ := h
      cases failed with
      | true =>
          simp only [argToks, if_true, List.append_nil, List.cons_append, oper, bind_apply,
            peek_apply, List.head?_cons, ok_bind, shift_cons, dirfd_cons hfd, identifier_cons,
            List.nil_append, hts]
          exact hpush _ _
      | false =>
          obtain ⟨h0, hmax⟩ := hopen rfl
          obtain ⟨n, rfl⟩ := Int.eq_ofNat_of_zero_le h0
          have hn : n ≤ intMax := Int.ofNat_le.mp hmax
          simp only [argToks, Bool.false_eq_true, if_false, Int.toNat_natCast, List.cons_append,
            oper, bind_apply, peek_apply, List.head?_cons, ok_bind, shift_cons, dirfd_cons hfd,
            identifier_cons, number_cons, List.nil_append, hstoi n fun n => .newFd dirfd path n,
            if_pos hn]
          rfl

/-! ## 3. Expressions -/

/-- What the parser makes of the line of an expression: `link` and `trigger` lose their tags. -/
def reparseExpr : Expr → Expr
  | .link e => .link { e with debugInfo := [] }
  | .trigger e => .trigger { e with debugInfo := [] }
  | e => e

theorem eventType_event {e : Event} (hmain : e.eventType ≠ .MAIN) (hval : e.eventValue ≤ intMax)
    (hext : e.eventType = .EXT → e.eventValue = 0) (ts : List Token) (tr : Trace)
    (os : List Operation) (es : List Expr) :
    eventType ⟨eventToks e ++ ts, tr, os, es⟩ = .ok (e, ⟨ts, tr, os, es⟩) := by
  obtain ⟨type, value⟩ := e
  cases type with
  | MAIN => exact absurd rfl hmain
  | EXT =>
      obtain rfl : value = 0 := hext rfl
      rfl
  | _ =>
      simp only [eventToks, List.cons_append, List.nil_append, eventType, bind_apply, peek_apply,
        List.head?_cons, ok_bind, shift_cons, number_cons, stoi_ok hval]
      rfl

/-- An expression the grammar can read: ids and values are in the range of `int`, and only
    `newEvent` may be without tags. -/
def ReadableExpr : Expr → Prop
  | .submitOp e => (∀ event, e.eventId = some event → event ≤ intMax) ∧ IsMetaVars e.debugInfo
  | .newEvent e => e.eventId ≤ intMax ∧ e.event.eventType ≠ .MAIN ∧ e.event.eventValue ≤ intMax ∧
      (e.event.eventType = .EXT → e.event.eventValue = 0) ∧
        (e.debugInfo ≠ [] → IsMetaVars e.debugInfo)
  | .link e => e.sourceEv ≤ intMax ∧ e.targetEv ≤ intMax
  | .trigger e => e.eventId ≤ intMax

/-- **`expr` on the line of an expression.** -/
theorem expr_expr {e : Expr} (h : ReadableExpr e) {rest : List Token}
    (hrest : rest.head? ≠ some .exclamation) (s : ParserState) :
    expr { s with toks := exprToks e ++ rest } =
      .ok ((), { s with toks := rest, exprs := s.exprs ++ [reparseExpr e] }) := by
  obtain ⟨toks, tr, os, es⟩ := s
  cases e with
  | link e =>
      obtain ⟨hs, ht⟩ := h
      simp only [exprToks, List.cons_append, List.nil_append, expr, bind_apply, peek_apply,
        List.head?_cons, ok_bind, shift_cons, number_cons, stoi_ok hs, stoi_ok ht]
      rfl
  | trigger e =>
      simp only [exprToks, List.cons_append, List.nil_append, expr, bind_apply, peek_apply,
        List.head?_cons, ok_bind, shift_cons, number_cons, stoi_ok h]
      rfl
  | submitOp e =>
      obtain ⟨id, eventId, tags⟩ := e
      obtain ⟨hev, htags⟩ := h
      cases eventId with
      | none =>
          simp only [exprToks, List.cons_append, List.nil_append, expr, bind_apply,
            peek_apply, List.head?_cons, ok_bind, shift_cons, opId_cons,
            metaVars_tags htags hrest]
          rfl
      | some event =>
          simp only [exprToks, List.cons_append, List.nil_append, expr, bind_apply,
            peek_apply, List.head?_cons, ok_bind, shift_cons, opId_cons, number_cons,
            metaVars_tags htags hrest, stoi_ok (hev event rfl)]
          rfl
  | newEvent e =>
      obtain ⟨id, event, tags⟩ := e
      obtain ⟨hid, hmain, hval, hext, htags⟩ := h
      simp only [exprToks, List.append_assoc, List.cons_append, expr, bind_apply, peek_apply,
        List.head?_cons, ok_bind, shift_cons, number_cons, eventType_event hmain hval hext]
      cases tags with
      | nil =>
          simp only [tagToks, List.flatMap_nil, List.nil_append, nextIs_of_ne hrest, bind_apply,
            stoi_ok hid, ok_bind]
          rfl
      | cons tag tags =>
          have hnext : nextIs .exclamation ⟨tagToks (tag :: tags) ++ rest, tr, os, es⟩ =
              .ok (true, ⟨tagToks (tag :: tags) ++ rest, tr, os, es⟩) := nextIs_cons _ _ tr os es
          simp only [hnext, bind_apply, metaVars_tags (htags (List.cons_ne_nil tag tags)) hrest,
            stoi_ok hid, ok_bind]
          rfl

/-! ## 4. Definitions -/

section Definitions

variable {res : Operation → Except ParseError Operation}

/-- The lines of the operations are read as `res` says. -/
def OpersRead (res : Operation → Except ParseError Operation) (ops : List Operation) : Prop :=
  ∀ op ∈ ops, ∀ (rest : List Token) (s : ParserState), rest.head? ≠ some .exclamation →
    oper { s with toks := opToks op ++ rest } =
      (res op).map fun op' => ((), { s with toks := rest, opers := s.opers ++ [op'] })

/-- The definition of an operation, its operations read as `res` says. -/
def readExecOp (res : Operation → Except ParseError Operation) (execOp : ExecOp) :
    Except ParseError ExecOp :=
  (execOp.operations.mapM res).map fun ops => ⟨execOp.id, ops⟩

/-- What the parser makes of a block. -/
def reparseBlock (block : Block) : Block := { block with exprs := block.exprs.map reparseExpr }

theorem foldl_opers (ops : List Operation) (s : ParserState) :
    ops.foldl (fun (s : ParserState) op => { s with opers := s.opers ++ [op] }) s =
      { s with opers := s.opers ++ ops } := by
  induction ops generalizing s with
  | nil => simp
  | cons op ops ih => rw [List.foldl_cons, ih]; simp

theorem foldl_exprs (es : List Expr) (s : ParserState) :
    es.foldl (fun (s : ParserState) e => { s with exprs := s.exprs ++ [e] }) s =
      { s with exprs := s.exprs ++ es } := by
  induction es generalizing s with
  | nil => simp
  | cons e es ih => rw [List.foldl_cons, ih]; simp

theorem opToks_head (op : Operation) :
    ∃ t ts, opToks op = t :: ts ∧ t ≠ .done ∧ t ≠ .exclamation := by
  obtain ⟨kind, failed, name⟩ := op
  cases kind <;> exact ⟨_, _, rfl, Token.noConfusion, Token.noConfusion⟩

theorem exprToks_head (e : Expr) :
    ∃ t ts, exprToks e = t :: ts ∧ t ≠ .endBlock ∧ t ≠ .exclamation := by
  cases e with
  | submitOp e =>
      obtain ⟨id, eventId, tags⟩ := e
      cases eventId <;> exact ⟨_, _, rfl, Token.noConfusion, Token.noConfusion⟩
  | _ => exact ⟨_, _, rfl, Token.noConfusion, Token.noConfusion⟩

theorem operations_eq {ops : List Operation} (h : OpersRead res ops) (hne : ops ≠ [])
    (s : ParserState) (rest : List Token) :
    operations { s with toks := ops.flatMap opToks ++ .done :: rest } =
      (ops.mapM res).map fun ops' =>
        ((), { s with toks := .done :: rest, opers := s.opers ++ ops' }) := by
  refine (list_eq opToks res (fun s op => { s with opers := s.opers ++ [op] })
    (fun _ => True) (· ≠ some .exclamation)
    (fun op hop s rest _ hrest => h op hop rest s hrest)
    (fun _ _ _ => trivial) (fun op _ => ?_) hne trivial (by simp) (by simp)).trans ?_
  · obtain ⟨t, ts, ht, hd, he⟩ := opToks_head op
    exact ⟨t, ts, ht, by simpa using hd, by simpa using he⟩
  · simp only [foldl_opers]

theorem exprs_eq {es : List Expr} (h : ∀ e ∈ es, ReadableExpr e) (hne : es ≠ [])
    (s : ParserState) (rest : List Token) :
    exprs { s with toks := es.flatMap exprToks ++ .endBlock :: rest } =
      .ok ((), { s with toks := .endBlock :: rest, exprs := s.exprs ++ es.map reparseExpr }) := by
  have hm : es.mapM (fun e => (.ok (reparseExpr e) : Except ParseError Expr)) =
      .ok (es.map reparseExpr) := List.mapM_pure
  refine (list_eq exprToks (fun e => .ok (reparseExpr e))
    (fun s e => { s with exprs := s.exprs ++ [e] }) (fun _ => True) (· ≠ some .exclamation)
    (fun e he s rest _ hrest => expr_expr (h e he) hrest s)
    (fun _ _ _ => trivial) (fun e _ => ?_) hne trivial (by simp) (by simp)).trans ?_
  · obtain ⟨t, ts, ht, hd, he⟩ := exprToks_head e
    exact ⟨t, ts, ht, by simpa using hd, by simpa using he⟩
  · rw [hm]
    simp only [foldl_exprs, Except.map]

theorem opDef_execOp {execOp : ExecOp} (h : OpersRead res execOp.operations)
    (s : ParserState) (rest : List Token) (hs : s.opers = []) :
    opDef { s with toks := execOpToks execOp ++ rest } =
      (readExecOp res execOp).map fun execOp' => ((), { s with
        toks := rest
        traceF := { s.traceF with execOps := s.traceF.execOps ++ [execOp'] } }) := by
  obtain ⟨toks, tr, os, es⟩ := s
  obtain rfl : os = [] := hs
  obtain ⟨id, ops⟩ := execOp
  unfold readExecOp execOpToks
  simp only [List.append_assoc, List.cons_append, List.nil_append, opDef, bind_apply, ok_bind,
    shift_cons, opId_cons]
  cases ops with
  | nil =>
      simp only [List.flatMap_nil, List.nil_append, nextIs_cons, bind_apply, shift_cons, ok_bind]
      rfl
  | cons op ops =>
      obtain ⟨t, ts, ht, hd, _⟩ := opToks_head op
      have hnext : ((op :: ops).flatMap opToks ++ .done :: rest).head? ≠ some .done := by
        simpa [ht] using hd
      simp only [nextIs_of_ne hnext, bind_apply, ok_bind,
        operations_eq h (List.cons_ne_nil op ops) ⟨[], tr, [], es⟩ rest]
      cases (op :: ops).mapM res with
      | error e => rfl
      | ok ops' =>
          simp only [Except.map, ok_bind, shift_cons]
          rfl

theorem blockDef_block {block : Block} (h : ∀ e ∈ block.exprs, ReadableExpr e)
    (hid : block.blockId ≤ intMax) (hmain : block.isEmptyMain = false) (s : ParserState)
    (rest : List Token) (hs : s.exprs = []) :
    blockDef { s with toks := blockToks block ++ rest } =
      .ok ((), { s with
        toks := rest
        traceF := { s.traceF with blocks := s.traceF.blocks ++ [reparseBlock block] } }) := by
  obtain ⟨toks, tr, os, es⟩ := s
  obtain rfl : es = [] := hs
  obtain ⟨id, type, es⟩ := block
  have hexprs := fun hne => exprs_eq h hne ⟨[], tr, os, []⟩ rest
  cases type with
  | MAIN =>
      have hne : es ≠ [] := by
        intro he
        rw [he] at hmain
        exact Bool.noConfusion hmain
      simp only [blockToks, Block.isMain, decide_true, if_true, List.append_assoc, List.cons_append,
        List.nil_append, blockDef, bind_apply, nextIs_cons, ok_bind, shift_cons, number_cons,
        hexprs hne, stoi_ok hid]
      rfl
  | REG =>
      have hnum : ∀ ts, (Token.number (toString id) :: ts).head? ≠ some .main := by simp
      cases es with
      | nil =>
          simp only [blockToks, Block.isMain, reduceCtorEq, decide_false, Bool.false_eq_true,
            if_false, List.flatMap_nil, List.nil_append, List.cons_append, blockDef, bind_apply,
            nextIs_of_ne (hnum _), nextIs_cons, ok_bind, shift_cons, number_cons, stoi_ok hid]
          rfl
      | cons e es =>
          obtain ⟨t, ts, ht, hd, _⟩ := exprToks_head e
          have hend : ((e :: es).flatMap exprToks ++ .endBlock :: rest).head? ≠ some .endBlock := by
            simpa [ht] using hd
          simp only [blockToks, Block.isMain, reduceCtorEq, decide_false, Bool.false_eq_true,
            if_false, List.append_assoc, List.nil_append, List.cons_append, blockDef, bind_apply,
            nextIs_of_ne (hnum _), nextIs_of_ne hend, ok_bind, shift_cons, number_cons,
            hexprs (List.cons_ne_nil e es), stoi_ok hid]
          rfl

/-! ## 5. Traces -/

theorem stats_eq (blocks operations entries : Nat) (s : ParserState) {rest : List Token}
    (hrest : rest.head? ≠ some .exclamation) :
    stats { s with toks := statToks "Blocks" blocks ++ (statToks "Operations" operations ++
      (statToks "Entries" entries ++ rest)) } = .ok ((), { s with toks := rest }) := by
  have h : list stat (fun t => t = some .exclamation) { s with
      toks := ([("Blocks", blocks), ("Operations", operations), ("Entries", entries)].flatMap
        fun x => statToks x.1 x.2) ++ rest } = _ :=
    list_eq _ (fun x => .ok x) (fun s _ => s) (fun _ => True) (fun _ => True)
      (fun x _ s rest _ _ => rfl) (fun _ _ _ => trivial) (fun x _ => ⟨_, _, rfl, rfl, trivial⟩)
      (List.cons_ne_nil _ _) trivial trivial (by simp [hrest])
  exact h

theorem foldl_execOps (xs : List ExecOp) (s : ParserState) :
    xs.foldl (fun (s : ParserState) x =>
      { s with traceF := { s.traceF with execOps := s.traceF.execOps ++ [x] } }) s =
      { s with traceF := { s.traceF with execOps := s.traceF.execOps ++ xs } } := by
  induction xs generalizing s with
  | nil => simp
  | cons x xs ih => rw [List.foldl_cons, ih]; simp

theorem foldl_blocks (xs : List Block) (s : ParserState) :
    xs.foldl (fun (s : ParserState) x =>
      { s with traceF := { s.traceF with blocks := s.traceF.blocks ++ [x] } }) s =
      { s with traceF := { s.traceF with blocks := s.traceF.blocks ++ xs } } := by
  induction xs generalizing s with
  | nil => simp
  | cons x xs ih => rw [List.foldl_cons, ih]; simp

theorem opDefs_eq {xs : List ExecOp} (h : ∀ x ∈ xs, OpersRead res x.operations)
    (hne : xs ≠ []) (s : ParserState) (hs : s.opers = []) {rest : List Token}
    (hrest : rest.head? ≠ some .op) :
    opDefs { s with toks := xs.flatMap execOpToks ++ rest } =
      (xs.mapM (readExecOp res)).map fun xs' => ((), { s with
        toks := rest
        traceF := { s.traceF with execOps := s.traceF.execOps ++ xs' } }) := by
  refine (list_eq execOpToks (readExecOp res)
    (fun s x => { s with traceF := { s.traceF with execOps := s.traceF.execOps ++ [x] } })
    (fun s => s.opers = []) (fun _ => True)
    (fun x hx s rest hs _ => opDef_execOp (h x hx) s rest hs) (fun _ _ hs => hs)
    (fun x _ => ⟨_, _, rfl, rfl, trivial⟩) hne hs trivial (by simp [hrest])).trans ?_
  simp only [foldl_execOps]

theorem blockDefs_eq {xs : List Block} (h : ∀ x ∈ xs, ∀ e ∈ x.exprs, ReadableExpr e)
    (hid : ∀ x ∈ xs, x.blockId ≤ intMax) (hmain : ∀ x ∈ xs, x.isEmptyMain = false)
    (hne : xs ≠ []) (s : ParserState) (hs : s.exprs = []) :
    blockDefs { s with toks := xs.flatMap blockToks } =
      .ok ((), { s with
        toks := []
        traceF := { s.traceF with blocks := s.traceF.blocks ++ xs.map reparseBlock } }) := by
  have hm : xs.mapM (fun x => (.ok (reparseBlock x) : Except ParseError Block)) =
      .ok (xs.map reparseBlock) := List.mapM_pure
  rw [← List.append_nil (xs.flatMap blockToks)]
  refine (list_eq blockToks (fun x => .ok (reparseBlock x))
    (fun s x => { s with traceF := { s.traceF with blocks := s.traceF.blocks ++ [x] } })
    (fun s => s.exprs = []) (fun _ => True)
    (fun x hx s rest hs _ => blockDef_block (h x hx) (hid x hx) (hmain x hx) s rest hs)
    (fun _ _ hs => hs) (fun x _ => ⟨_, _, rfl, rfl, trivial⟩) hne hs trivial (by simp)).trans ?_
  rw [hm]
  simp only [foldl_blocks, Except.map]

theorem traceToks_head {trace : Trace} (h : trace.execOps ≠ []) :
    (traceToks trace).head? = some .op := by
  unfold traceToks
  cases hx : trace.execOps with
  | nil => exact absurd hx h
  | cons x xs => rfl

/-- **What the parser makes of a dump** that is read as its lines. -/
theorem parse_lines {trace : Trace} {text : String} {blocks operations entries : Nat}
    (hlex : lex text.toList = statToks "Blocks" blocks ++ (statToks "Operations" operations ++
      (statToks "Entries" entries ++ (headerToks trace ++ traceToks trace))))
    (hops : ∀ x ∈ trace.execOps, OpersRead res x.operations)
    (hids : ∀ b ∈ trace.blocks, b.blockId ≤ intMax)
    (hexprs : ∀ b ∈ trace.blocks, ∀ e ∈ b.exprs, ReadableExpr e)
    (hsomeOp : trace.execOps ≠ []) (hsomeBlock : trace.printedBlocks ≠ []) :
    parse text = (trace.execOps.mapM (readExecOp res)).bind fun execOps =>
      if trace.threadId ≤ intMax then
        .ok ⟨trace.threadId, trace.cwd, execOps, trace.printedBlocks.map reparseBlock⟩
      else .error .outOfRange := by
  have hheader : (headerToks trace ++ traceToks trace).head? ≠ some .exclamation := by
    simp [headerToks]
  have hstats := stats_eq blocks operations entries ⟨[], ⟨0, "", [], []⟩, [], []⟩ hheader
  have hblocks : (trace.printedBlocks.flatMap blockToks).head? ≠ some .op := by
    cases hb : trace.printedBlocks with
    | nil => exact absurd hb hsomeBlock
    | cons b bs => simp [blockToks]
  have hdefsO : opDefs ⟨traceToks trace, ⟨0, "", [], []⟩, [], []⟩ = _ :=
    opDefs_eq hops hsomeOp ⟨[], ⟨0, "", [], []⟩, [], []⟩ rfl hblocks
  have hmem : ∀ b ∈ trace.printedBlocks, b ∈ trace.blocks :=
    fun b hb => (mem_printedBlocks hb).1
  have hdefs := fun execOps => blockDefs_eq (fun b hb => hexprs b (hmem b hb))
    (fun b hb => hids b (hmem b hb)) (fun b hb => (mem_printedBlocks hb).2) hsomeBlock
    ⟨[], ⟨0, "", execOps, []⟩, [], []⟩ rfl
  unfold parse program
  rw [hlex, bind_apply, hstats, ok_bind]
  simp only [headerToks, List.cons_append, List.nil_append, bind_apply, ok_bind, shift_cons,
    number_cons, identifier_cons, peek_apply, traceToks_head hsomeOp, hdefsO]
  cases trace.execOps.mapM (readExecOp res) with
  | error e => rfl
  | ok execOps =>
      by_cases hid : trace.threadId ≤ intMax
      · simp only [Except.map, ok_bind, List.nil_append, hdefs, stoi_toString, if_pos hid]
        rfl
      · simp only [Except.map, ok_bind, List.nil_append, hdefs, stoi_toString, if_neg hid]
        rfl

/-! ## 6. What comes back -/

theorem error_ne_ok {α : Type} {e : ParseError} {a : α} : Except.error e ≠ .ok a := by
  intro h
  cases h

theorem mapM_eq_self {α : Type} {f : α → Except ParseError α} {xs : List α} :
    xs.mapM f = .ok xs ↔ ∀ x ∈ xs, f x = .ok x := by
  induction xs with
  | nil => exact iff_of_true rfl fun _ h => absurd h List.not_mem_nil
  | cons x xs ih =>
      rw [List.mapM_cons, List.forall_mem_cons, ← ih]
      cases hx : f x with
      | error e => exact iff_of_false error_ne_ok fun h => error_ne_ok h.1
      | ok y =>
          cases hxs : xs.mapM f with
          | error e => exact iff_of_false error_ne_ok fun h => error_ne_ok h.2
          | ok ys =>
              show Except.ok (y :: ys) = .ok (x :: xs) ↔ _
              simp

theorem map_eq_self {α : Type} {f : α → α} {xs : List α} :
    xs.map f = xs ↔ ∀ x ∈ xs, f x = x := by
  induction xs with
  | nil => simp
  | cons x xs ih => simp [ih]

theorem readExecOp_eq_self {execOp : ExecOp} :
    readExecOp res execOp = .ok execOp ↔ ∀ op ∈ execOp.operations, res op = .ok op := by
  rw [← mapM_eq_self]
  unfold readExecOp
  cases execOp.operations.mapM res with
  | error e => exact iff_of_false error_ne_ok error_ne_ok
  | ok ops =>
      obtain ⟨id, ops'⟩ := execOp
      simp [Except.map]

theorem reparseBlock_eq_self {block : Block} :
    reparseBlock block = block ↔ ∀ e ∈ block.exprs, reparseExpr e = e := by
  obtain ⟨id, type, es⟩ := block
  simp [reparseBlock, map_eq_self]

end Definitions

end Fsracer

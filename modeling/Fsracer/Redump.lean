/-
  File:      Fsracer/Redump.lean
  Subject:   DUMPING A PARSED TRACE, and parsing the dump.

  A trace the parser builds is written in a normal form: one name and one mark per operation,
  numbers without zeros in front. **`redump_iff`**: the dump is accepted, and yields the trace
  again, iff the trace is `Stable`. Two things are lost. An `open` that is marked as failed is
  printed without its descriptor, and a tag that starts like "!PID" -- the text it was parsed from
  has a blank behind the `!` -- makes the lexer see a second header.
-/
import Mathlib
import Fsracer.ParsedTrace

namespace Fsracer

open TraceLexer TraceParser

/-! ## 1. Operations -/

/-- What the parser makes of the line of an operation. -/
def rereadOperation (op : Operation) : Except ParseError Operation :=
  (readKind op.kind op.failed).map fun k => { op with kind := k.1 }

/-- The line of a parsed operation. -/
theorem opersRead_parsed {ops : List Operation} (h : ∀ op ∈ ops, ParsedOperation op) :
    OpersRead rereadOperation ops := by
  intro op hop rest s hrest
  have hp := h op hop
  have hts : (tagToks op.marks ++ rest).head? = some .exclamation :=
    tagToks_head hp.marks.ne_nil rest
  have hvars : ∀ tr os es, metaVars ⟨tagToks op.marks ++ rest, tr, os, es⟩ =
      (Except.ok (op.marks, rest)).map fun vars => (vars.1, ⟨vars.2, tr, os, es⟩) :=
    fun tr os es => metaVars_tags hp.marks hrest tr os es
  unfold opToks rereadOperation
  rw [List.append_assoc, oper_args hp.args hts hvars, ok_bind]
  cases hk : readKind op.kind op.failed with
  | error e => rfl
  | ok k =>
      simp only [Except.map, addOperationDebugInfo_marks hp.name k.1 (readKind_failed hk)]

/-- An operation keeps its descriptor: no `open` is marked as failed and has one. -/
def KeepsDescriptor (op : Operation) : Prop :=
  ∀ dirfd path fd, op.kind = .newFd dirfd path fd → op.failed = true → fd = -1

theorem rereadOperation_eq_self {op : Operation} (h : ParsedOperation op) :
    rereadOperation op = .ok op ↔ KeepsDescriptor op := by
  obtain ⟨kind, failed, name⟩ := op
  unfold rereadOperation KeepsDescriptor
  cases kind with
  | delFd fd =>
      have hfd := h.delFd fd rfl
      simp [readKind, hfd, Except.map]
  | newFd dirfd path fd => cases failed <;> simp [readKind, Except.map, eq_comm]
  | _ => simp [readKind, Except.map]

/-! ## 2. Lines with a second header -/

/-- The lexer finds "!PID" in the lines, whatever follows. -/
def HidesPid (lines : List (List Lexeme)) : Prop := ∀ rest, Token.pid ∈ lex (linesText lines ++ rest)

/-- Words, and then tags that are words. -/
def IsLine (line : List Lexeme) (tags : List String) : Prop :=
  ∃ ls ts, Reads ls ts ∧ ls ≠ [] ∧ line = ls ++ tags.map .tag ∧ ∀ tag ∈ tags, IsWord tag.toList

/-- A tag that starts like "!PID", in front of anything. -/
theorem lex_pidTag {tag : String} (h : "PID".toList <+: tag.toList) (rest : List Char) :
    Token.pid ∈ lex ('!' :: (tag.toList ++ rest)) := by
  obtain ⟨r, hr⟩ := h
  have hsplit : '!' :: (tag.toList ++ rest) = pidText ++ (r ++ rest) := by
    rw [← hr, List.append_assoc]
    rfl
  rw [hsplit, lex_pid]
  exact List.mem_cons_self

theorem pid_mem_tags {tags : List String} (hw : ∀ tag ∈ tags, IsWord tag.toList)
    (h : ∃ tag ∈ tags, "PID".toList <+: tag.toList) (rest : List Char) :
    Token.pid ∈ lex ((debugInfoStr tags).toList ++ '\n' :: rest) := by
  induction tags with
  | nil =>
      obtain ⟨tag, ht, _⟩ := h
      exact absurd ht List.not_mem_nil
  | cons tag tags ih =>
      obtain ⟨d, rest', hr, hd, hD⟩ := debugInfoStr_delimiter tags rest
      rw [toList_debugInfoStr_cons, lex_blank]
      by_cases hpid : "PID".toList <+: tag.toList
      · exact lex_pidTag hpid _
      · have hrest : ∃ tag ∈ tags, "PID".toList <+: tag.toList := by
          obtain ⟨tag', ht, hp⟩ := h
          rcases List.mem_cons.mp ht with rfl | ht
          · exact absurd hp hpid
          · exact ⟨tag', ht, hp⟩
        have ih := ih (fun tag' ht => hw tag' (List.mem_cons_of_mem _ ht)) hrest
        rw [hr] at ih ⊢
        rw [lex_tag ⟨hw tag List.mem_cons_self, hpid⟩ hd hD]
        exact List.mem_cons_of_mem _ (List.mem_cons_of_mem _ ih)

/-- **A line is read as it stands, or hides a header.** -/
theorem IsLine.cases {line : List Lexeme} {tags : List String} (h : IsLine line tags) :
    (∃ ts, ReadsLines [line] ts) ∧ (∀ tag ∈ tags, ¬ "PID".toList <+: tag.toList) ∨
      HidesPid [line] ∧ ∃ tag ∈ tags, "PID".toList <+: tag.toList := by
  obtain ⟨ls, ts, hls, hne, rfl, hw⟩ := h
  by_cases hpid : ∃ tag ∈ tags, "PID".toList <+: tag.toList
  · refine .inr ⟨fun rest => ?_, hpid⟩
    obtain ⟨d, rest', hr, hd, _⟩ := debugInfoStr_delimiter tags rest
    have hmem := pid_mem_tags hw hpid rest
    rw [linesText_cons, lineText_append_tags hne, List.append_assoc, List.append_assoc,
      List.cons_append]
    show Token.pid ∈ lex (lineText ls ++ ((debugInfoStr tags).toList ++ '\n' :: rest))
    rw [hr] at hmem ⊢
    rw [lex_line hls hne hd]
    exact List.mem_append_right _ hmem
  · have hno : ∀ tag ∈ tags, ¬ "PID".toList <+: tag.toList := fun tag ht hp => hpid ⟨tag, ht, hp⟩
    exact .inl ⟨⟨_, hls.line hne fun tag ht => ⟨hw tag ht, hno tag ht⟩⟩, hno⟩

theorem linesText_cons_append (line : List Lexeme) (lines : List (List Lexeme))
    (rest : List Char) :
    linesText (line :: lines) ++ rest = linesText [line] ++ (linesText lines ++ rest) := by
  rw [← List.append_assoc, ← linesText_append]
  rfl

/-- One such line is enough. -/
theorem hidesPid_of_mem {lines : List (List Lexeme)} (h : ∀ line ∈ lines, ∃ tags, IsLine line tags)
    (hp : ∃ line ∈ lines, HidesPid [line]) : HidesPid lines := by
  intro rest
  induction lines with
  | nil =>
      obtain ⟨line, hl, _⟩ := hp
      exact absurd hl List.not_mem_nil
  | cons line lines ih =>
      rw [linesText_cons_append]
      by_cases hhere : HidesPid [line]
      · exact hhere _
      · obtain ⟨tags, hline⟩ := h line List.mem_cons_self
        rcases hline.cases with ⟨⟨ts, hts⟩, _⟩ | ⟨hpid, _⟩
        · rw [hts]
          refine List.mem_append_right _ (ih (fun l hl => h l (List.mem_cons_of_mem _ hl)) ?_)
          obtain ⟨line', hl, hpid⟩ := hp
          rcases List.mem_cons.mp hl with rfl | hl
          · exact absurd hpid hhere
          · exact ⟨line', hl, hpid⟩
        · exact absurd hpid hhere

/-! ## 3. The lines of a parsed trace -/

theorem isLine_words {ls : List Lexeme} {ts : List Token} (h : Reads ls ts) (hne : ls ≠ []) :
    IsLine ls [] :=
  ⟨ls, ts, h, hne, by simp, fun _ ht => absurd ht List.not_mem_nil⟩

/-- A word of `meta_vars` is a word for the lexer. -/
theorem isWord_metaVar {vars : List String} (h : IsMetaVars vars) {var : String} (hv : var ∈ vars) :
    IsWord var.toList := by
  rcases h.word hv with hi | rfl
  · exact hi.isWord
  · exact isWord_of_all (by decide +kernel) (by decide +kernel)

theorem isLine_operation {op : Operation} (h : ParsedOperation op) : IsLine op.lexemes op.marks :=
  ⟨_, _, reads_args h.args, List.cons_ne_nil _ _, rfl, fun _ hm => isWord_metaVar h.marks hm⟩

theorem isLine_expr {e : Expr} (h : ParsedExpr e) : IsLine e.lexemes e.printedTags := by
  obtain ⟨ls, ts, hls, hne, hlex, _⟩ := reads_expr h.opId
  refine ⟨ls, ts, hls, hne, hlex, fun tag ht => ?_⟩
  cases e with
  | submitOp e => exact isWord_metaVar h.readable.2 ht
  | newEvent e => exact isWord_metaVar (h.readable.2.2.2.2 (List.ne_nil_of_mem ht)) ht
  | link e => exact absurd ht List.not_mem_nil
  | trigger e => exact absurd ht List.not_mem_nil

theorem isLine_execOp {execOp : ExecOp} (h : ParsedExecOp execOp) {line : List Lexeme}
    (hl : line ∈ execOp.lines) : ∃ tags, IsLine line tags := by
  rcases List.mem_cons.mp hl with rfl | hl
  · exact ⟨[], isLine_words (reads_opHead h.id) (List.cons_ne_nil _ _)⟩
  · rcases List.mem_append.mp hl with hl | hl
    · obtain ⟨op, hop, rfl⟩ := List.mem_map.mp hl
      exact ⟨op.marks, isLine_operation (h.operations op hop)⟩
    · rw [List.mem_singleton.mp hl]
      exact ⟨[], isLine_words (reads_keyword (t := .done) (by decide)) (List.cons_ne_nil _ _)⟩

theorem isLine_block {block : Block} (h : ParsedBlock block) {line : List Lexeme}
    (hl : line ∈ block.lines) : ∃ tags, IsLine line tags := by
  rcases List.mem_cons.mp hl with rfl | hl
  · exact ⟨[], isLine_words (reads_blockHead block) (by simp)⟩
  · rcases List.mem_append.mp hl with hl | hl
    · obtain ⟨e, he, rfl⟩ := List.mem_map.mp hl
      exact ⟨e.printedTags, isLine_expr (h.exprs e he)⟩
    · rw [List.mem_singleton.mp hl]
      exact ⟨[], isLine_words (reads_keyword (t := .endBlock) (by decide)) (List.cons_ne_nil _ _)⟩

/-- The parser builds no empty main block, so that every block is printed. -/
theorem ParsedTrace.printedBlocks {trace : Trace} (h : ParsedTrace trace) :
    trace.printedBlocks = trace.blocks :=
  List.filter_eq_self.mpr fun b hb => by simp [(h.blocks b hb).main]

theorem isLine_trace {trace : Trace} (h : ParsedTrace trace) {line : List Lexeme}
    (hl : line ∈ trace.lines) : ∃ tags, IsLine line tags := by
  rcases List.mem_append.mp hl with hl | hl
  · obtain ⟨x, hx, hl⟩ := List.mem_flatMap.mp hl
    exact isLine_execOp (h.execOps x hx) hl
  · obtain ⟨b, hb, hl⟩ := List.mem_flatMap.mp hl
    exact isLine_block (h.blocks b (mem_printedBlocks hb).1) hl

/-! ## 4. A second header -/

/-- A second header is ahead, in tokens of a text. -/
def PidAhead (s : ParserState) : Prop := Sound s ∧ .pid ∈ s.toks

theorem built_pidAhead : Built PidAhead where
  sound h := h.1
  next h hts ht := by
    refine ⟨h.1.next hts, ?_⟩
    have hpid := h.2
    rw [hts] at hpid
    exact (List.mem_cons.mp hpid).resolve_left ht.symm
  oper h hop := ⟨h.1.pushOper hop, h.2⟩
  expr h he := ⟨h.1.pushExpr he, h.2⟩
  execOp h _ := ⟨⟨h.1.toks, fun _ h => absurd h List.not_mem_nil, h.1.exprs⟩, h.2⟩
  block h _ := ⟨⟨h.1.toks, h.1.opers, fun _ h => absurd h List.not_mem_nil⟩, h.2⟩

/-- The definitions and the blocks do not come to an end in front of a second header. -/
theorem leads_behindHeader (text cwd : String) : Leads PidAhead (do
    opDefs
    blockDefs
    setHeader (← stoi text) cwd) (fun _ => False) fun _ => True := by
  refine (leads_opDefs built_pidAhead).bind fun _ _ =>
    (leads_blockDefs built_pidAhead).bind fun _ _ s a s' hs _ => ?_
  obtain ⟨⟨_, hpid⟩, hnil⟩ := hs
  rw [hnil] at hpid
  exact absurd hpid List.not_mem_nil

/-- **A dump with a second header is rejected.** -/
theorem parse_hidesPid {trace trace' : Trace} (hcwd : IsIdentifier trace.cwd)
    (hp : HidesPid trace.lines) : parse (dump trace) ≠ .ok trace' := by
  intro h
  obtain ⟨blocks, operations, entries, hlex⟩ := lex_dump_lines hcwd
  have hpid := hp []
  rw [List.append_nil] at hpid
  have hstart : PidAhead ⟨lex (linesText trace.lines), ⟨0, "", [], []⟩, [], []⟩ :=
    ⟨sound_start, hpid⟩
  generalize lex (linesText trace.lines) = ts at hlex hpid hstart
  have hheader : (headerToks trace ++ ts).head? ≠ some .exclamation := by simp [headerToks]
  have hstats := stats_eq blocks operations entries ⟨[], ⟨0, "", [], []⟩, [], []⟩ hheader
  unfold parse program at h
  rw [hlex, bind_apply, hstats, ok_bind] at h
  simp only [headerToks, List.cons_append, List.nil_append, bind_apply, ok_bind, shift_cons,
    number_cons, identifier_cons, peek_apply] at h
  cases ts with
  | nil => exact absurd hpid List.not_mem_nil
  | cons t ts =>
      rw [List.head?_cons] at h
      obtain ⟨r, hr, _⟩ := map_eq_ok h
      exact (leads_behindHeader (toString trace.threadId) trace.cwd _ r.1 r.2 hstart hr).1

/-! ## 5. The dump of a parsed trace -/

/-- **What keeps a dump from being read back**: a descriptor that is not printed, and a name or a
    tag that is printed as a header. -/
structure Stable (trace : Trace) : Prop where
  descriptors : ∀ x ∈ trace.execOps, ∀ op ∈ x.operations, KeepsDescriptor op
  names : ∀ x ∈ trace.execOps, ∀ op ∈ x.operations, ¬ "PID".toList <+: op.actualOpName.toList
  tags : ∀ b ∈ trace.blocks, ∀ e ∈ b.exprs, ∀ tag ∈ e.printedTags, ¬ "PID".toList <+: tag.toList

/-- The marks of an operation are printed as a header only if its name is. -/
theorem pid_marks_iff {op : Operation} :
    (∃ mark ∈ op.marks, "PID".toList <+: mark.toList) ↔ "PID".toList <+: op.actualOpName.toList := by
  obtain ⟨kind, failed, name⟩ := op
  unfold Operation.marks
  by_cases h : name = ""
  · subst h
    cases failed with
    | false => simp
    | true => simp
  · cases failed with
    | false => simp [h]
    | true => simp [h]

/-- The dump of a parsed trace whose tags are read as they stand. -/
theorem parse_dump_readable {trace : Trace} (h : ParsedTrace trace)
    (hnames : ∀ x ∈ trace.execOps, ∀ op ∈ x.operations, ¬ "PID".toList <+: op.actualOpName.toList)
    (htags : ∀ b ∈ trace.blocks, ∀ e ∈ b.exprs, ∀ tag ∈ e.printedTags,
      ¬ "PID".toList <+: tag.toList)
    (hops : trace.execOps ≠ []) (hblocks : trace.printedBlocks ≠ []) :
    parse (dump trace) = .ok trace ↔
      ∀ x ∈ trace.execOps, ∀ op ∈ x.operations, KeepsDescriptor op := by
  have hlineOp : ∀ x ∈ trace.execOps, ReadsLines x.lines (execOpToks x) := by
    intro x hx
    refine readsLines_execOp (h.execOps x hx).id fun op hop => ?_
    have hop' := (h.execOps x hx).operations op hop
    refine readsLines_operation hop'.args fun mark hm => ?_
    exact ⟨isWord_metaVar hop'.marks hm, fun hp => hnames x hx op hop (pid_marks_iff.mp ⟨mark, hm, hp⟩)⟩
  have hlineBlock : ∀ b ∈ trace.printedBlocks, ReadsLines b.lines (blockToks b) := by
    intro b hb
    rw [h.printedBlocks] at hb
    refine readsLines_block fun e he => ?_
    have he' := (h.blocks b hb).exprs e he
    refine readsLines_expr he'.opId fun tag ht => ?_
    obtain ⟨_, _, _, _, _, hw⟩ := isLine_expr he'
    exact ⟨hw tag ht, htags b hb e he tag ht⟩
  obtain ⟨blocks, operations, entries, hlex⟩ := lex_dump h.cwd hlineOp hlineBlock
  have hkeep : trace.execOps.mapM (readExecOp rereadOperation) = .ok trace.execOps ↔
      ∀ x ∈ trace.execOps, ∀ op ∈ x.operations, KeepsDescriptor op := by
    rw [mapM_eq_self]
    refine forall₂_congr fun x hx => ?_
    rw [readExecOp_eq_self]
    exact forall₂_congr fun op hop => rereadOperation_eq_self ((h.execOps x hx).operations op hop)
  have hback : trace.printedBlocks.map reparseBlock = trace.blocks := by
    rw [h.printedBlocks, map_eq_self]
    exact fun b hb => reparseBlock_eq_self.mpr fun e he => ((h.blocks b hb).exprs e he).reparse
  rw [← hkeep, parse_lines hlex (fun x hx => opersRead_parsed (h.execOps x hx).operations)
    (fun b hb => (h.blocks b hb).id) (fun b hb e he => ((h.blocks b hb).exprs e he).readable)
    hops hblocks, hback]
  cases trace.execOps.mapM (readExecOp rereadOperation) with
  | error e => exact iff_of_false error_ne_ok error_ne_ok
  | ok execOps =>
      obtain ⟨threadId, cwd, execOps', blocks'⟩ := trace
      rw [ok_bind, if_pos h.threadId]
      simp

/-- A line with a tag that starts like "!PID" keeps the dump from being accepted. -/
theorem no_pid_of_parse {trace : Trace} (hp : ParsedTrace trace) (h : parse (dump trace) = .ok trace)
    {line : List Lexeme} (hl : line ∈ trace.lines) {tags : List String} (hline : IsLine line tags) :
    ∀ tag ∈ tags, ¬ "PID".toList <+: tag.toList := by
  rcases hline.cases with ⟨_, hno⟩ | ⟨hpid, _⟩
  · exact hno
  · exact absurd h (parse_hidesPid hp.cwd
      (hidesPid_of_mem (fun _ hl => isLine_trace hp hl) ⟨line, hl, hpid⟩))

/-- **Dumping a parsed trace is stable** iff no failed `open` has a descriptor and no name or tag
    is printed as a header. -/
theorem redump_iff {text : String} {trace : Trace} (h : parse text = .ok trace)
    (hops : trace.execOps ≠ []) (hblocks : trace.printedBlocks ≠ []) :
    parse (dump trace) = .ok trace ↔ Stable trace := by
  have hp := parsedTrace_of_parse h
  constructor
  · intro hback
    have hnames : ∀ x ∈ trace.execOps, ∀ op ∈ x.operations,
        ¬ "PID".toList <+: op.actualOpName.toList := by
      intro x hx op hop hpid
      have hl : op.lexemes ∈ trace.lines := List.mem_append_left _ (List.mem_flatMap.mpr
        ⟨x, hx, List.mem_cons_of_mem _ (List.mem_append_left _ (List.mem_map_of_mem hop))⟩)
      have hno := no_pid_of_parse hp hback hl (isLine_operation ((hp.execOps x hx).operations op hop))
      obtain ⟨mark, hm, hmark⟩ := pid_marks_iff.mpr hpid
      exact hno mark hm hmark
    have htags : ∀ b ∈ trace.blocks, ∀ e ∈ b.exprs, ∀ tag ∈ e.printedTags,
        ¬ "PID".toList <+: tag.toList := by
      intro b hb e he
      have hb' : b ∈ trace.printedBlocks := by rwa [hp.printedBlocks]
      have hl : e.lexemes ∈ trace.lines := List.mem_append_right _ (List.mem_flatMap.mpr
        ⟨b, hb', List.mem_cons_of_mem _ (List.mem_append_left _ (List.mem_map_of_mem he))⟩)
      exact no_pid_of_parse hp hback hl (isLine_expr ((hp.blocks b hb).exprs e he))
    exact ⟨(parse_dump_readable hp hnames htags hops hblocks).mp hback, hnames, htags⟩
  · intro hs
    exact (parse_dump_readable hp hs.names hs.tags hops hblocks).mpr hs.descriptors

/-- A trace file with one operation, all of whose numbers have zeros in front. -/
def oneLineText (line : String) : String :=
  "!Blocks: 01\n!PID: 007\n!Working Directory: /\nOperation sync_01 do\n" ++ line ++
    "\ndone\nBegin 01\nnewEvent 04 S 00 !rename !fs\nEnd\n"

/-- The trace of such a file. -/
def oneLineTrace (op : Operation) : Trace :=
  ⟨7, "/", [⟨"sync_01", [op]⟩], [⟨1, .REG, [.newEvent ⟨4, ⟨.S, 0⟩, ["rename", "fs"]⟩]⟩]⟩

/-- The trace of a file whose operation failed comes back. -/
theorem redump_iff_failedOpen :
    parse (dump (oneLineTrace ⟨.newFd 5 "/a" (-1), true, "open"⟩)) =
      .ok (oneLineTrace ⟨.newFd 5 "/a" (-1), true, "open"⟩) := by
  have hparse : parse (oneLineText "newFd 05 /a !failed !open") =
      .ok (oneLineTrace ⟨.newFd 5 "/a" (-1), true, "open"⟩) := by decide +kernel
  refine (redump_iff hparse (List.cons_ne_nil _ _) (List.cons_ne_nil _ _)).mpr ⟨?_, ?_, ?_⟩
  · simp [oneLineTrace, KeepsDescriptor]
  · simp [oneLineTrace]
  · simp [oneLineTrace, Expr.printedTags]

/-- The descriptor of an `open` that is marked as failed does not come back. -/
theorem redump_fails : ¬ ∀ (text : String) (trace : Trace), parse text = .ok trace →
    trace.execOps ≠ [] → trace.printedBlocks ≠ [] → parse (dump trace) = .ok trace := by
  intro h
  have hparse : parse (oneLineText "newFd AT_FDCWD /a 3 !open !failed") =
      .ok (oneLineTrace ⟨.newFd 0 "/a" 3, true, "open"⟩) := by decide +kernel
  have hback := h _ _ hparse (List.cons_ne_nil _ _) (List.cons_ne_nil _ _)
  have hlost : parse (dump (oneLineTrace ⟨.newFd 0 "/a" 3, true, "open"⟩)) =
      .ok (oneLineTrace ⟨.newFd 0 "/a" (-1), true, "open"⟩) := by decide +kernel
  rw [hlost] at hback
  revert hback
  decide

end Fsracer

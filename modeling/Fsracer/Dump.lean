/-
  File:      Fsracer/Dump.lean
  Subject:   THE DUMP ANALYZER (class DumpAnalyzer of lib/Analyzer.h and .cpp): the text of a
             trace file, and its tokens.

  Section 2 writes every printed line as a list of `Lexeme`s, words and tags with one blank in
  between. **`lex_dump_lines`**: the lexer reads the preamble and the header of a dump, and then
  its lines.
-/
import Mathlib
import Fsracer.TraceLexer
import Fsracer.Trace

namespace Fsracer

/-! ## 1. The analyzer -/

/-- The fields of `DumpAnalyzer`. -/
structure DumpAnalyzer where
  traceBuf : String := ""
  traceCount : Nat := 0
  operationCount : Nat := 0
  blockCount : Nat := 0

namespace DumpAnalyzer

/-- `AnalyzeExecOp`. -/
def analyzeExecOp (st : DumpAnalyzer) (execOp : ExecOp) : DumpAnalyzer :=
  { st with
    traceCount := st.traceCount + execOp.operations.length
    traceBuf := st.traceBuf ++ execOp.toStr ++ "\n" }

/-- `AnalyzeExpr`: the four methods for expressions do the same. -/
def analyzeExpr (st : DumpAnalyzer) (e : Expr) : DumpAnalyzer :=
  { st with traceBuf := st.traceBuf ++ e.toStr ++ "\n" }

/-- `AnalyzeBlock`. -/
def analyzeBlock (st : DumpAnalyzer) (block : Block) : DumpAnalyzer :=
  if block.isEmptyMain then st
  else
    let id := if block.isMain then "MAIN " ++ toString block.blockId else toString block.blockId
    let st := { st with
      traceBuf := st.traceBuf ++ "Begin " ++ id ++ "\n"
      traceCount := st.traceCount + block.exprs.length }
    let st := block.exprs.foldl analyzeExpr st
    { st with traceBuf := st.traceBuf ++ "End\n" }

/-- `AnalyzeTrace`. -/
def analyzeTrace (st : DumpAnalyzer) (trace : Trace) : DumpAnalyzer :=
  let st := { st with
    traceBuf := st.traceBuf ++ "!PID: " ++ toString trace.threadId ++ "\n" ++
      "!Working Directory: " ++ trace.cwd ++ "\n"
    operationCount := trace.execOps.length }
  let st := trace.execOps.foldl analyzeExecOp st
  let st := { st with blockCount := trace.blocks.length }
  trace.blocks.foldl analyzeBlock st

/-- `DumpOutput`. -/
def dumpOutput (st : DumpAnalyzer) : String :=
  "!Blocks: " ++ toString st.blockCount ++ "\n" ++ "!Operations: " ++ toString st.operationCount ++
    "\n" ++ "!Entries: " ++ toString st.traceCount ++ "\n" ++ st.traceBuf

end DumpAnalyzer

/-- The text that is written for a trace. -/
def dump (trace : Trace) : String := (DumpAnalyzer.analyzeTrace {} trace).dumpOutput

/-! ## 2. Lines of lexemes -/

/-- A word, or a word behind a `!`. -/
inductive Lexeme where
  | word (text : String)
  | tag (text : String)

namespace Lexeme

/-- The text of a lexeme. -/
def text : Lexeme → List Char
  | .word w => w.toList
  | .tag w => '!' :: w.toList

/-- The tokens of a lexeme. -/
def toks : Lexeme → List Token
  | .word w => [TraceLexer.wordToken w.toList]
  | .tag w => [.exclamation, TraceLexer.wordToken w.toList]

/-- A lexeme the lexer reads as it stands. A tag does not start like "!PID" or "!Working
    Directory". -/
def Readable : Lexeme → Prop
  | .word w => TraceLexer.IsWord w.toList
  | .tag w => TraceLexer.IsWord w.toList ∧ w.toList.head? ≠ some 'P' ∧ w.toList.head? ≠ some 'W'

theorem lex_text {l : Lexeme} (h : l.Readable) {d : Char} (hd : TraceLexer.IsDelimiter d)
    (rest : List Char) : TraceLexer.lex (l.text ++ d :: rest) = l.toks ++ TraceLexer.lex (d :: rest) := by
  cases l with
  | word w =>
      unfold text toks
      rw [TraceLexer.lex_word h hd, List.singleton_append]
  | tag w =>
      obtain ⟨hw, hP, hW⟩ := h
      obtain ⟨c, cs, hcs, _⟩ := hw.head
      have hlex : TraceLexer.lex (w.toList ++ d :: rest) =
          TraceLexer.wordToken w.toList :: TraceLexer.lex (d :: rest) := TraceLexer.lex_word hw hd
      rw [hcs] at hP hW
      have hP : c ≠ 'P' := fun he => hP (by rw [he]; rfl)
      have hW : c ≠ 'W' := fun he => hW (by rw [he]; rfl)
      unfold text toks
      rw [List.cons_append, hcs, List.cons_append, TraceLexer.lex_exclamation,
        ← List.cons_append, ← hcs, hlex, List.cons_append, List.singleton_append]
      · intro h
        exact hP.symm (List.cons_prefix_cons.mp (List.cons_prefix_cons.mp h).2).1
      · intro h
        exact hW.symm (List.cons_prefix_cons.mp (List.cons_prefix_cons.mp h).2).1

end Lexeme

/-- The text of a line: its lexemes with blanks in between. -/
def lineText : List Lexeme → List Char
  | [] => []
  | [l] => l.text
  | l :: l' :: ls => l.text ++ ' ' :: lineText (l' :: ls)

/-- The text of lines. -/
def linesText (lines : List (List Lexeme)) : List Char :=
  lines.flatMap fun l => lineText l ++ ['\n']

theorem lineText_cons {l : Lexeme} {ls : List Lexeme} (h : ls ≠ []) :
    lineText (l :: ls) = l.text ++ ' ' :: lineText ls := by
  cases ls with
  | nil => exact absurd rfl h
  | cons l' ls => rfl

/-- Tags are printed behind what stands before. -/
theorem lineText_append_tags {ls : List Lexeme} (hls : ls ≠ []) (tags : DebugInfo) :
    lineText (ls ++ tags.map .tag) = lineText ls ++ (debugInfoStr tags).toList := by
  induction ls with
  | nil => exact absurd rfl hls
  | cons l ls ih =>
      cases ls with
      | cons l' ls =>
          rw [List.cons_append, lineText_cons (by simp), ih (List.cons_ne_nil l' ls),
            lineText_cons (List.cons_ne_nil l' ls), List.append_assoc, List.cons_append]
      | nil =>
          clear ih
          induction tags generalizing l with
          | nil => simp [debugInfoStr]
          | cons tag tags ih =>
              rw [List.map_cons, List.singleton_append, lineText_cons (by simp)]
              have ih := ih (.tag tag) (by simp)
              rw [List.singleton_append] at ih
              rw [ih]
              simp [lineText, Lexeme.text, debugInfoStr]

/-! ## 3. The lines of a trace -/

/-- What is printed for a directory descriptor. -/
def dirfdLexeme (fd : Nat) : Lexeme := .word (dirfdToString fd)

namespace Operation

/-- The words that the macros `ACTUAL_NAME` and `FAILED` print. -/
def marks (op : Operation) : List String :=
  (if op.actualOpName ≠ "" then [op.actualOpName] else []) ++ (if op.failed then ["failed"] else [])

/-- The lexemes in front of the marks. -/
def argLexemes (op : Operation) : List Lexeme :=
  match op.kind with
  | .delFd fd => [.word (toString fd)]
  | .hpath fd path eff | .hpathSym fd path eff =>
      [dirfdLexeme fd, .word path, .word (effToString eff)]
  | .link oldFd oldPath newFd newPath | .rename oldFd oldPath newFd newPath =>
      [dirfdLexeme oldFd, .word oldPath, dirfdLexeme newFd, .word newPath]
  | .newFd dirfd path fd =>
      [dirfdLexeme dirfd, .word path] ++ if op.failed then [] else [.word (toString fd)]
  | .symlink fd path target => [dirfdLexeme fd, .word path, .word target]

/-- The line of an operation. -/
def lexemes (op : Operation) : List Lexeme :=
  (.word op.kind.getOpName :: op.argLexemes) ++ op.marks.map .tag

theorem toStr_marks (op : Operation) :
    (op.actualNameStr ++ op.failedStr).toList = (debugInfoStr op.marks).toList := by
  unfold actualNameStr failedStr marks
  by_cases h1 : op.actualOpName = "" <;> cases op.failed <;> simp [h1, debugInfoStr]

theorem toList_toStr (op : Operation) : op.toStr.toList = lineText op.lexemes := by
  have hargs : (op.kind.getOpName ++ " " ++ op.argsStr).toList =
      lineText (.word op.kind.getOpName :: op.argLexemes) := by
    unfold argsStr argLexemes
    cases op.kind with
    | newFd dirfd path fd =>
        cases op.failed <;> simp [lineText, Lexeme.text, dirfdLexeme]
    | delFd fd => simp [lineText, Lexeme.text]
    | hpath fd path eff => simp [lineText, Lexeme.text, dirfdLexeme]
    | hpathSym fd path eff => simp [lineText, Lexeme.text, dirfdLexeme]
    | link a b c d => simp [lineText, Lexeme.text, dirfdLexeme]
    | rename a b c d => simp [lineText, Lexeme.text, dirfdLexeme]
    | symlink a b c => simp [lineText, Lexeme.text, dirfdLexeme]
  rw [lexemes, lineText_append_tags (List.cons_ne_nil _ _), ← hargs, ← toStr_marks,
    ← String.toList_append, toStr]
  simp only [String.append_assoc]

end Operation

/-- The lines of the definition of an operation. -/
def ExecOp.lines (execOp : ExecOp) : List (List Lexeme) :=
  [.word "Operation", .word execOp.id, .word "do"] ::
    (execOp.operations.map Operation.lexemes ++ [[.word "done"]])

/-- What is printed for an event. -/
def Event.lexemes (e : Event) : List Lexeme :=
  match e.eventType with
  | .S => [.word "S", .word (toString e.eventValue)]
  | .M => [.word "M", .word (toString e.eventValue)]
  | .W => [.word "W", .word (toString e.eventValue)]
  | .MAIN => [.word "MAIN"]
  | .EXT => [.word "EXTERNAL"]

/-- The line of an expression. -/
def Expr.lexemes : Expr → List Lexeme
  | .submitOp e =>
      (match e.eventId with
        | some event => [.word "submitOp", .word e.opId, .word (toString event), .word "ASYNC"]
        | none => [.word "submitOp", .word e.opId, .word "SYNC"]) ++ e.debugInfo.map .tag
  | .newEvent e =>
      (.word "newEvent" :: .word (toString e.eventId) :: e.event.lexemes) ++ e.debugInfo.map .tag
  | .link e => [.word "link", .word (toString e.sourceEv), .word (toString e.targetEv)]
  | .trigger e => [.word "trigger", .word (toString e.eventId)]

theorem Expr.toList_toStr (e : Expr) : e.toStr.toList = lineText e.lexemes := by
  cases e with
  | submitOp e =>
      simp only [toStr, lexemes, SubmitOp.toStr]
      cases e.eventId with
      | none =>
          rw [lineText_append_tags (List.cons_ne_nil _ _)]
          simp [lineText, Lexeme.text]
      | some event =>
          rw [lineText_append_tags (List.cons_ne_nil _ _)]
          simp [lineText, Lexeme.text]
  | newEvent e =>
      simp only [toStr, lexemes, NewEventExpr.toStr, Event.toStr, Event.lexemes]
      rw [lineText_append_tags (List.cons_ne_nil _ _)]
      cases e.event.eventType <;> simp [lineText, Lexeme.text]
  | link e => simp [toStr, lexemes, LinkExpr.toStr, lineText, Lexeme.text]
  | trigger e => simp [toStr, lexemes, Trigger.toStr, lineText, Lexeme.text]

/-- The lines of a block that is printed. -/
def Block.lines (block : Block) : List (List Lexeme) :=
  ([.word "Begin"] ++ (if block.isMain then [.word "MAIN"] else []) ++
      [.word (toString block.blockId)]) ::
    (block.exprs.map Expr.lexemes ++ [[.word "End"]])

/-- The blocks that are printed. -/
def Trace.printedBlocks (trace : Trace) : List Block := trace.blocks.filter fun b => !b.isEmptyMain

/-- The lines behind the header. -/
def Trace.lines (trace : Trace) : List (List Lexeme) :=
  trace.execOps.flatMap ExecOp.lines ++ trace.printedBlocks.flatMap Block.lines

theorem linesText_append (ls ls' : List (List Lexeme)) :
    linesText (ls ++ ls') = linesText ls ++ linesText ls' := List.flatMap_append

theorem linesText_cons (l : List Lexeme) (ls : List (List Lexeme)) :
    linesText (l :: ls) = lineText l ++ '\n' :: linesText ls := by
  simp [linesText]

theorem ExecOp.toList_toStr (execOp : ExecOp) :
    (execOp.toStr ++ "\n").toList = linesText execOp.lines := by
  have hfold : ∀ (ops : List Operation) (str : String),
      (ops.foldl (fun str o => str ++ o.toStr ++ "\n") str).toList =
        str.toList ++ linesText (ops.map Operation.lexemes) := by
    intro ops
    induction ops with
    | nil => simp [linesText]
    | cons op ops ih =>
        intro str
        rw [List.foldl_cons, ih, List.map_cons, linesText_cons]
        simp [Operation.toList_toStr]
  unfold ExecOp.toStr ExecOp.lines
  rw [linesText_cons, linesText_append, linesText_cons]
  simp only [String.toList_append, hfold]
  simp [lineText, Lexeme.text, linesText]

namespace DumpAnalyzer

theorem traceBuf_execOps (execOps : List ExecOp) (st : DumpAnalyzer) :
    (execOps.foldl analyzeExecOp st).traceBuf.toList =
      st.traceBuf.toList ++ linesText (execOps.flatMap ExecOp.lines) := by
  induction execOps generalizing st with
  | nil => simp [linesText]
  | cons execOp execOps ih =>
      rw [List.foldl_cons, ih, List.flatMap_cons, linesText_append, ← ExecOp.toList_toStr]
      simp [analyzeExecOp]

theorem traceBuf_exprs (exprs : List Expr) (st : DumpAnalyzer) :
    (exprs.foldl analyzeExpr st).traceBuf.toList =
      st.traceBuf.toList ++ linesText (exprs.map Expr.lexemes) := by
  induction exprs generalizing st with
  | nil => simp [linesText]
  | cons e exprs ih =>
      rw [List.foldl_cons, ih, List.map_cons, linesText_cons]
      simp [analyzeExpr, Expr.toList_toStr]

theorem traceBuf_block (block : Block) (st : DumpAnalyzer) :
    (analyzeBlock st block).traceBuf.toList =
      st.traceBuf.toList ++ if block.isEmptyMain then [] else linesText block.lines := by
  unfold analyzeBlock
  by_cases h : block.isEmptyMain
  · simp [h]
  · rw [if_neg h, if_neg h]
    simp only [String.toList_append, traceBuf_exprs]
    rw [Block.lines, linesText_cons, linesText_append]
    cases block.isMain <;> simp [lineText, Lexeme.text, linesText]

theorem traceBuf_blocks (blocks : List Block) (st : DumpAnalyzer) :
    (blocks.foldl analyzeBlock st).traceBuf.toList =
      st.traceBuf.toList ++
        linesText ((blocks.filter fun b => !b.isEmptyMain).flatMap Block.lines) := by
  induction blocks generalizing st with
  | nil => simp [linesText]
  | cons block blocks ih =>
      rw [List.foldl_cons, ih, traceBuf_block, List.filter_cons]
      cases block.isEmptyMain <;> simp [linesText_append]

end DumpAnalyzer

/-! ## 4. The tokens of a dump -/

/-- A line of the preamble. -/
def statText (name : String) (n : Nat) : List Char :=
  (Lexeme.tag name).text ++ ':' :: ' ' :: ((toString n).toList ++ ['\n'])

/-- The lines of the thread and of the working directory. -/
def headerText (trace : Trace) : List Char :=
  TraceLexer.pidText ++ ':' :: ' ' :: ((toString trace.threadId).toList ++ '\n' ::
    (TraceLexer.cwdText ++ ':' :: ' ' :: (trace.cwd.toList ++ ['\n'])))

/-- The tokens of a line of the preamble. -/
def statToks (name : String) (n : Nat) : List Token :=
  [.exclamation, .identifier name, .colon, .number (toString n)]

/-- The tokens of the header. -/
def headerToks (trace : Trace) : List Token :=
  [.pid, .colon, .number (toString trace.threadId), .cwd, .colon, .identifier trace.cwd]

theorem traceBuf_trace (trace : Trace) :
    (DumpAnalyzer.analyzeTrace {} trace).traceBuf.toList =
      ("!PID: " ++ toString trace.threadId ++ "\n" ++ "!Working Directory: " ++ trace.cwd ++
        "\n").toList ++ linesText trace.lines := by
  unfold DumpAnalyzer.analyzeTrace
  rw [DumpAnalyzer.traceBuf_blocks]
  dsimp only
  rw [DumpAnalyzer.traceBuf_execOps, Trace.lines, linesText_append]
  simp [Trace.printedBlocks]

/-- The dump is the preamble, the header and the lines of the trace. -/
theorem toList_dump (trace : Trace) : ∃ blocks operations entries, (dump trace).toList =
    statText "Blocks" blocks ++ (statText "Operations" operations ++ (statText "Entries" entries ++
      (headerText trace ++ linesText trace.lines))) := by
  set st := DumpAnalyzer.analyzeTrace {} trace with hst
  refine ⟨st.blockCount, st.operationCount, st.traceCount, ?_⟩
  have hpid : "!PID: ".toList = TraceLexer.pidText ++ [':', ' '] := by decide
  have hcwd : "!Working Directory: ".toList = TraceLexer.cwdText ++ [':', ' '] := by decide
  have hbuf := traceBuf_trace trace
  unfold dump DumpAnalyzer.dumpOutput headerText statText Lexeme.text
  rw [← hst] at hbuf ⊢
  simp only [String.toList_append, hbuf, hpid, hcwd, List.append_assoc]
  simp

theorem lex_number (n : Nat) (rest : List Char) :
    TraceLexer.lex ((toString n).toList ++ '\n' :: rest) = .number (toString n) :: TraceLexer.lex rest := by
  rw [TraceLexer.lex_word (TraceLexer.isWord_number n) (.inr (.inr rfl)), TraceLexer.wordToken_number,
    TraceLexer.lex_newline]

theorem lex_stat {name : String} (h : (Lexeme.tag name).Readable)
    (ht : TraceLexer.wordToken name.toList = .identifier name) (n : Nat) (rest : List Char) :
    TraceLexer.lex (statText name n ++ rest) = statToks name n ++ TraceLexer.lex rest := by
  unfold statText
  rw [List.append_assoc, List.cons_append, Lexeme.lex_text h (.inr (.inl rfl)), TraceLexer.lex_colon,
    List.cons_append, TraceLexer.lex_blank, List.append_assoc, List.singleton_append, lex_number,
    Lexeme.toks, ht]
  rfl

theorem lex_header {trace : Trace} (hcwd : TraceLexer.IsIdentifier trace.cwd) (rest : List Char) :
    TraceLexer.lex (headerText trace ++ rest) = headerToks trace ++ TraceLexer.lex rest := by
  unfold headerText
  rw [List.append_assoc, TraceLexer.lex_pid, List.cons_append, TraceLexer.lex_colon, List.cons_append,
    TraceLexer.lex_blank, List.append_assoc, List.cons_append, lex_number, List.append_assoc,
    TraceLexer.lex_cwd, List.cons_append, TraceLexer.lex_colon, List.cons_append, TraceLexer.lex_blank,
    List.append_assoc, List.singleton_append, TraceLexer.lex_word hcwd.isWord (.inr (.inr rfl)),
    TraceLexer.wordToken_identifier hcwd, TraceLexer.lex_newline]
  rfl

/-- A text that is read as an identifier behind a `!`. -/
theorem readable_tag {text : String} (h : TraceLexer.IsIdentifier text)
    (hP : text.toList.head? ≠ some 'P') (hW : text.toList.head? ≠ some 'W') :
    (Lexeme.tag text).Readable := ⟨h.isWord, hP, hW⟩

/-- The tokens of a dump: the preamble, the header, and those of the lines. -/
theorem lex_dump_lines {trace : Trace} (hcwd : TraceLexer.IsIdentifier trace.cwd) :
    ∃ blocks operations entries, TraceLexer.lex (dump trace).toList =
      statToks "Blocks" blocks ++ (statToks "Operations" operations ++
        (statToks "Entries" entries ++
          (headerToks trace ++ TraceLexer.lex (linesText trace.lines)))) := by
  obtain ⟨blocks, operations, entries, h⟩ := toList_dump trace
  refine ⟨blocks, operations, entries, ?_⟩
  have hstat : ∀ name ∈ ["Blocks", "Operations", "Entries"], TraceLexer.IsIdentifier name ∧
      name.toList.head? ≠ some 'P' ∧ name.toList.head? ≠ some 'W' := by
    decide +kernel
  have hlex : ∀ name ∈ ["Blocks", "Operations", "Entries"], ∀ (n : Nat) (rest : List Char),
      TraceLexer.lex (statText name n ++ rest) = statToks name n ++ TraceLexer.lex rest := by
    intro name hn n rest
    obtain ⟨hi, hP, hW⟩ := hstat name hn
    exact lex_stat (readable_tag hi hP hW) (TraceLexer.wordToken_identifier hi) n rest
  rw [h, hlex _ (by simp), hlex _ (by simp), hlex _ (by simp), lex_header hcwd]

end Fsracer

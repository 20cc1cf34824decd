/-
  File:      Fsracer/Lines.lean
  Subject:   THE LINES OF A TRACE FILE: the tokens of what a dump prints, and what the parser makes
             of them.

  Sections 1 to 3 are about the lexer: a line is words and then tags, and each is read as the
  token it stands for. Sections 4 to 6 are about the parser, from `meta_vars` to `program`.
  **`parse_lines`**: where the lexer reads a dump as its lines, the trace that is parsed holds
  what the lines of its operations and expressions are read as.
-/
import Mathlib
import Fsracer.Dump
import Fsracer.TraceParser

namespace Fsracer

open TraceLexer TraceParser

/-! ## 1. Words -/

/-- The lexemes are read as they stand, as the tokens `ts`. -/
def Reads (ls : List Lexeme) (ts : List Token) : Prop :=
  (∀ l ∈ ls, l.Readable) ∧ ls.flatMap Lexeme.toks = ts

theorem Reads.nil : Reads [] [] := ⟨fun _ h => absurd h List.not_mem_nil, rfl⟩

theorem Reads.append {ls ls' : List Lexeme} {ts ts' : List Token} (h : Reads ls ts)
    (h' : Reads ls' ts') : Reads (ls ++ ls') (ts ++ ts') :=
  ⟨fun l hl => (List.mem_append.mp hl).elim (h.1 l) (h'.1 l), by
    rw [List.flatMap_append, h.2, h'.2]⟩

theorem Reads.cons {l : Lexeme} {ls : List Lexeme} {t ts : List Token} (h : Reads [l] t)
    (h' : Reads ls ts) : Reads (l :: ls) (t ++ ts) := h.append h'

theorem reads_word {w : String} {t : Token} (hw : IsWord w.toList) (ht : wordToken w.toList = t) :
    Reads [.word w] [t] := by
  refine ⟨fun l hl => ?_, by rw [← ht]; rfl⟩
  rw [List.mem_singleton.mp hl]
  exact hw

theorem isWord_of_all {w : List Char} (hchars : w.all isIdentChar)
    (hstart : w.head?.any isIdentStart) : IsWord w := by
  refine ⟨List.all_eq_true.mp hchars, .inl ?_⟩
  cases w with
  | nil => cases hstart
  | cons c cs => exact ⟨c, cs, rfl, hstart⟩

theorem reads_keyword {w : String} {t : Token} (h : (w, t) ∈ keywords) : Reads [.word w] [t] := by
  have hall : ∀ k ∈ keywords, (k.1.toList.all isIdentChar ∧ k.1.toList.head?.any isIdentStart) ∧
      wordToken k.1.toList = k.2 := by decide +kernel
  obtain ⟨⟨hchars, hstart⟩, ht⟩ := hall (w, t) h
  exact reads_word (isWord_of_all hchars hstart) ht

theorem reads_number (n : Nat) : Reads [.word (toString n)] [.number (toString n)] :=
  reads_word (isWord_number n) (wordToken_number n)

theorem reads_identifier {text : String} (h : IsIdentifier text) :
    Reads [.word text] [.identifier text] := reads_word h.isWord (wordToken_identifier h)

theorem reads_opId {id : String} (h : IsOpIdText id) : Reads [.word id] [.opId id] :=
  reads_word (isWord_opId h) (wordToken_opId h)

/-- The token of an effect. -/
def effectTok : EffectType → Token
  | .consumed => .consumed
  | .produced => .produced
  | .expunged => .expunged

theorem reads_effect (eff : EffectType) : Reads [.word (effToString eff)] [effectTok eff] := by
  cases eff
  · exact reads_keyword (by decide)
  · exact reads_keyword (by decide)
  · exact reads_keyword (by decide)

/-- The token of a directory descriptor. -/
def dirfdTok (dirfd : Nat) : Token :=
  if dirfd = atFdcwd then .atFdcwd else .number (toString dirfd)

theorem reads_dirfd (dirfd : Nat) : Reads [dirfdLexeme dirfd] [dirfdTok dirfd] := by
  unfold dirfdLexeme dirfdToString dirfdTok
  split
  · exact reads_keyword (by decide)
  · exact reads_number dirfd

/-- The tokens of an event. -/
def eventToks (e : Event) : List Token :=
  match e.eventType with
  | .S => [.S, .number (toString e.eventValue)]
  | .M => [.M, .number (toString e.eventValue)]
  | .W => [.W, .number (toString e.eventValue)]
  | .MAIN => [.main]
  | .EXT => [.external]

theorem reads_event (e : Event) : Reads e.lexemes (eventToks e) := by
  obtain ⟨type, value⟩ := e
  cases type with
  | S => exact .cons (reads_keyword (w := "S") (by decide)) (reads_number value)
  | M => exact .cons (reads_keyword (w := "M") (by decide)) (reads_number value)
  | W => exact .cons (reads_keyword (w := "W") (by decide)) (reads_number value)
  | EXT => exact reads_keyword (w := "EXTERNAL") (by decide)
  | MAIN => exact reads_keyword (w := "MAIN") (by decide)

/-! ## 2. Tags -/

/-- A tag that the lexer reads as it stands: it does not start like "!PID". -/
def ReadableTag (tag : String) : Prop := IsWord tag.toList ∧ ¬ "PID".toList <+: tag.toList

/-- The tokens of tags. -/
def tagToks (tags : List String) : List Token :=
  tags.flatMap fun tag => [.exclamation, wordToken tag.toList]

/-- "!Working Directory" is longer than any tag. -/
theorem cwdText_not_leading {w rest : List Char} {d : Char} (hw : IsWord w) (hd : IsDelimiter d)
    (hD : d = ' ' → ¬ "Directory".toList <+: rest) : ¬ cwdText <+: '!' :: (w ++ d :: rest) := by
  intro h
  have hsplit : cwdText = '!' :: ("Working".toList ++ ' ' :: "Directory".toList) := by decide
  rw [hsplit] at h
  obtain ⟨r, hr⟩ := (List.cons_prefix_cons.mp h).2
  rw [List.append_assoc, List.cons_append] at hr
  rcases List.append_eq_append_iff.mp hr with ⟨a, ha, hb⟩ | ⟨a, ha, hb⟩
  · cases a with
    | nil =>
        have hb : ' ' :: ("Directory".toList ++ r) = d :: rest := hb
        obtain ⟨rfl, hrest⟩ := List.cons.inj hb
        exact hD rfl ⟨r, hrest⟩
    | cons c a =>
        obtain ⟨rfl, _⟩ := List.cons.inj hb
        have hc := hw.chars ' ' (by rw [ha]; simp)
        exact absurd hc (by decide)
  · cases a with
    | nil =>
        have hb : d :: rest = ' ' :: ("Directory".toList ++ r) := hb
        obtain ⟨rfl, hrest⟩ := List.cons.inj hb
        exact hD rfl ⟨r, hrest.symm⟩
    | cons c a =>
        obtain ⟨rfl, _⟩ := List.cons.inj hb
        have hmem : d ∈ "Working".toList := by rw [ha]; simp
        rcases hd with rfl | rfl | rfl <;> revert hmem <;> decide

theorem pidText_prefix_iff {w rest : List Char} {d : Char} (hd : IsDelimiter d) :
    pidText <+: '!' :: (w ++ d :: rest) ↔ "PID".toList <+: w := by
  have hsplit : pidText = '!' :: "PID".toList := by decide
  rw [hsplit, List.cons_prefix_cons, and_iff_right rfl]
  exact Munch.isPrefix_append_iff (by rcases hd with rfl | rfl | rfl <;> decide)

/-- A tag in front of a delimiter. -/
theorem lex_tag {tag : String} (h : ReadableTag tag) {d : Char} (hd : IsDelimiter d)
    {rest : List Char} (hD : d = ' ' → ¬ "Directory".toList <+: rest) :
    lex ('!' :: (tag.toList ++ d :: rest)) =
      .exclamation :: wordToken tag.toList :: lex (d :: rest) := by
  rw [lex_exclamation (fun hc => h.2 ((pidText_prefix_iff hd).mp hc))
    (cwdText_not_leading h.1 hd hD), lex_word h.1 hd]

/-- The text behind tags, from the next delimiter on. -/
theorem debugInfoStr_delimiter (tags : DebugInfo) (rest : List Char) : ∃ d rest',
    (debugInfoStr tags).toList ++ '\n' :: rest = d :: rest' ∧ IsDelimiter d ∧
      (d = ' ' → ¬ "Directory".toList <+: rest') := by
  cases tags with
  | nil => exact ⟨'\n', rest, rfl, .inr (.inr rfl), fun h => absurd h (by decide)⟩
  | cons tag tags =>
      refine ⟨' ', '!' :: (tag.toList ++ ((debugInfoStr tags).toList ++ '\n' :: rest)), ?_,
        .inl rfl, fun _ h => ?_⟩
      · simp [debugInfoStr]
      · exact absurd (List.cons_prefix_cons.mp h).1 (by decide)

theorem toList_debugInfoStr_cons (tag : String) (tags : DebugInfo) (rest : List Char) :
    (debugInfoStr (tag :: tags)).toList ++ rest =
      ' ' :: '!' :: (tag.toList ++ ((debugInfoStr tags).toList ++ rest)) := by
  simp [debugInfoStr]

/-- Tags at the end of a line. -/
theorem lex_tags {tags : List String} (h : ∀ tag ∈ tags, ReadableTag tag) (rest : List Char) :
    lex ((debugInfoStr tags).toList ++ '\n' :: rest) = tagToks tags ++ lex rest := by
  induction tags with
  | nil => exact lex_newline rest
  | cons tag tags ih =>
      have ih := ih fun tag' ht => h tag' (List.mem_cons_of_mem _ ht)
      obtain ⟨d, rest', hr, hd, hD⟩ := debugInfoStr_delimiter tags rest
      rw [toList_debugInfoStr_cons, lex_blank, hr, lex_tag (h tag List.mem_cons_self) hd hD, ← hr,
        ih]
      rfl

/-! ## 3. Lines -/

/-- The lexer reads the lines as the tokens `ts`, whatever follows. -/
def ReadsLines (lines : List (List Lexeme)) (ts : List Token) : Prop :=
  ∀ rest, lex (linesText lines ++ rest) = ts ++ lex rest

theorem ReadsLines.append {ls ls' : List (List Lexeme)} {ts ts' : List Token}
    (h : ReadsLines ls ts) (h' : ReadsLines ls' ts') : ReadsLines (ls ++ ls') (ts ++ ts') := by
  intro rest
  rw [linesText_append, List.append_assoc, h, h', List.append_assoc]

theorem lex_line {ls : List Lexeme} {ts : List Token} (h : Reads ls ts) (hne : ls ≠ [])
    {d : Char} (hd : IsDelimiter d) (rest : List Char) :
    lex (lineText ls ++ d :: rest) = ts ++ lex (d :: rest) := by
  obtain ⟨hread, rfl⟩ := h
  induction ls using lineText.induct with
  | case1 => exact absurd rfl hne
  | case2 l =>
      rw [lineText, Lexeme.lex_text (hread l List.mem_cons_self) hd]
      simp
  | case3 l l' ls ih =>
      have ih := ih (List.cons_ne_nil l' ls) fun l'' hl'' => hread l'' (List.mem_cons_of_mem _ hl'')
      rw [lineText, List.append_assoc, List.cons_append,
        Lexeme.lex_text (hread l List.mem_cons_self) (.inl rfl), lex_blank, ih]
      simp

/-- **A line of words and tags.** -/
theorem Reads.line {ls : List Lexeme} {ts : List Token} (h : Reads ls ts) (hne : ls ≠ [])
    {tags : List String} (ht : ∀ tag ∈ tags, ReadableTag tag) :
    ReadsLines [ls ++ tags.map .tag] (ts ++ tagToks tags) := by
  intro rest
  obtain ⟨d, rest', hr, hd, _⟩ := debugInfoStr_delimiter tags rest
  rw [linesText_cons, lineText_append_tags hne, List.append_assoc, List.append_assoc,
    List.cons_append]
  show lex (lineText ls ++ ((debugInfoStr tags).toList ++ '\n' :: rest)) = _
  rw [hr, lex_line h hne hd, ← hr, lex_tags ht, List.append_assoc]

/-- A line without tags. -/
theorem Reads.words {ls : List Lexeme} {ts : List Token} (h : Reads ls ts) (hne : ls ≠ []) :
    ReadsLines [ls] ts := by
  have hnil : ∀ tag ∈ ([] : List String), ReadableTag tag := fun _ ht => absurd ht List.not_mem_nil
  have hl := h.line hne hnil
  rwa [List.map_nil, List.append_nil, tagToks, List.flatMap_nil, List.append_nil] at hl

theorem readsLines_flatMap {α : Type} {xs : List α} {f : α → List (List Lexeme)}
    {g : α → List Token} (h : ∀ x ∈ xs, ReadsLines (f x) (g x)) :
    ReadsLines (xs.flatMap f) (xs.flatMap g) := by
  induction xs with
  | nil => exact fun _ => rfl
  | cons x xs ih =>
      exact (h x List.mem_cons_self).append (ih fun y hy => h y (List.mem_cons_of_mem _ hy))

theorem readsLines_map {α : Type} {xs : List α} {f : α → List Lexeme} {g : α → List Token}
    (h : ∀ x ∈ xs, ReadsLines [f x] (g x)) : ReadsLines (xs.map f) (xs.flatMap g) := by
  rw [← List.flatMap_singleton' (xs.map f), List.flatMap_map]
  exact readsLines_flatMap h

/-! ## 4. The tokens of a trace -/

/-- The tokens of an operation in front of its marks. -/
def argToks (op : Operation) : List Token :=
  match op.kind with
  | .delFd fd => [.delFd, .number (toString fd)]
  | .hpath dirfd path eff => [.hpath, dirfdTok dirfd, .identifier path, effectTok eff]
  | .hpathSym dirfd path eff => [.hpathSym, dirfdTok dirfd, .identifier path, effectTok eff]
  | .link oldDirfd oldPath newDirfd newPath =>
      [.link, dirfdTok oldDirfd, .identifier oldPath, dirfdTok newDirfd, .identifier newPath]
  | .rename oldDirfd oldPath newDirfd newPath =>
      [.rename, dirfdTok oldDirfd, .identifier oldPath, dirfdTok newDirfd, .identifier newPath]
  | .newFd dirfd path fd => [.newFd, dirfdTok dirfd, .identifier path] ++
      if op.failed then [] else [.number (toString fd.toNat)]
  | .symlink dirfd path target => [.symlink, dirfdTok dirfd, .identifier path, .identifier target]

/-- The tokens of an operation. -/
def opToks (op : Operation) : List Token := argToks op ++ tagToks op.marks

/-- Arguments the grammar can read: the descriptors of directories are in the range of `int`, so
    is the descriptor of an `open` that is not failed, and paths are identifiers. -/
def ReadableArgs (op : Operation) : Prop :=
  match op.kind with
  | .delFd _ => True
  | .hpath dirfd path _ | .hpathSym dirfd path _ => dirfd ≤ intMax ∧ IsIdentifier path
  | .link oldDirfd oldPath newDirfd newPath | .rename oldDirfd oldPath newDirfd newPath =>
      (oldDirfd ≤ intMax ∧ newDirfd ≤ intMax) ∧ IsIdentifier oldPath ∧ IsIdentifier newPath
  | .newFd dirfd path fd => dirfd ≤ intMax ∧ IsIdentifier path ∧
      (op.failed = false → 0 ≤ fd ∧ fd ≤ intMax)
  | .symlink dirfd path target => dirfd ≤ intMax ∧ IsIdentifier path ∧ IsIdentifier target

theorem reads_args {op : Operation} (h : ReadableArgs op) :
    Reads (.word op.kind.getOpName :: op.argLexemes) (argToks op) := by
  obtain ⟨kind, failed, name⟩ := op
  cases kind with
  | delFd fd => exact .cons (reads_keyword (w := "delFd") (by decide)) (reads_number fd)
  | hpath dirfd path eff =>
      exact .cons (reads_keyword (w := "hpath") (by decide)) (.cons (reads_dirfd dirfd)
        (.cons (reads_identifier h.2) (reads_effect eff)))
  | hpathSym dirfd path eff =>
      exact .cons (reads_keyword (w := "hpathsym") (by decide)) (.cons (reads_dirfd dirfd)
        (.cons (reads_identifier h.2) (reads_effect eff)))
  | link oldDirfd oldPath newDirfd newPath =>
      obtain ⟨_, hold, hnew⟩ := h
      exact .cons (reads_keyword (w := "link") (by decide)) (.cons (reads_dirfd oldDirfd)
        (.cons (reads_identifier hold) (.cons (reads_dirfd newDirfd) (reads_identifier hnew))))
  | rename oldDirfd oldPath newDirfd newPath =>
      obtain ⟨_, hold, hnew⟩ := h
      exact .cons (reads_keyword (w := "rename") (by decide)) (.cons (reads_dirfd oldDirfd)
        (.cons (reads_identifier hold) (.cons (reads_dirfd newDirfd) (reads_identifier hnew))))
  | newFd dirfd path fd =>
      obtain ⟨_, hpath, hfd⟩ := h
      have hpre := Reads.cons (reads_keyword (w := "newFd") (t := .newFd) (by decide))
        (.cons (reads_dirfd dirfd) (reads_identifier hpath))
      cases failed with
      | true => exact hpre
      | false =>
          obtain ⟨n, rfl⟩ := Int.eq_ofNat_of_zero_le (hfd rfl).1
          exact hpre.append (reads_number n)
  | symlink dirfd path target =>
      obtain ⟨_, hpath, htarget⟩ := h
      exact .cons (reads_keyword (w := "symlink") (by decide)) (.cons (reads_dirfd dirfd)
        (.cons (reads_identifier hpath) (reads_identifier htarget)))

/-- The line of an operation. -/
theorem readsLines_operation {op : Operation} (h : ReadableArgs op)
    (hm : ∀ mark ∈ op.marks, ReadableTag mark) : ReadsLines [op.lexemes] (opToks op) :=
  (reads_args h).line (List.cons_ne_nil _ _) hm

/-- The tokens of an expression. -/
def exprToks : Expr → List Token
  | .submitOp e =>
      (match e.eventId with
        | some event => [.submitOp, .opId e.opId, .number (toString event), .async]
        | none => [.submitOp, .opId e.opId, .sync]) ++ tagToks e.debugInfo
  | .newEvent e =>
      (.newEvent :: .number (toString e.eventId) :: eventToks e.event) ++ tagToks e.debugInfo
  | .link e => [.link, .number (toString e.sourceEv), .number (toString e.targetEv)]
  | .trigger e => [.trigger, .number (toString e.eventId)]

/-- The tags of an expression that are printed. -/
def Expr.printedTags : Expr → DebugInfo
  | .submitOp e => e.debugInfo
  | .newEvent e => e.debugInfo
  | .link _ => []
  | .trigger _ => []

/-- The line of an expression is words, and then its tags. -/
theorem reads_expr {e : Expr} (hid : ∀ submitOp, e = .submitOp submitOp → IsOpIdText submitOp.opId) :
    ∃ ls ts, Reads ls ts ∧ ls ≠ [] ∧ e.lexemes = ls ++ e.printedTags.map .tag ∧
      exprToks e = ts ++ tagToks e.printedTags := by
  cases e with
  | submitOp e =>
      obtain ⟨id, eventId, tags⟩ := e
      have hid := reads_opId (hid _ rfl)
      cases eventId with
      | none =>
          exact ⟨_, _, .cons (reads_keyword (w := "submitOp") (t := .submitOp) (by decide))
            (.cons hid (reads_keyword (w := "SYNC") (t := .sync) (by decide))),
            List.cons_ne_nil _ _, rfl, rfl⟩
      | some event =>
          exact ⟨_, _, .cons (reads_keyword (w := "submitOp") (t := .submitOp) (by decide))
            (.cons hid (.cons (reads_number event)
              (reads_keyword (w := "ASYNC") (t := .async) (by decide)))),
            List.cons_ne_nil _ _, rfl, rfl⟩
  | newEvent e =>
      exact ⟨_, _, .cons (reads_keyword (w := "newEvent") (t := .newEvent) (by decide))
        (.cons (reads_number e.eventId) (reads_event e.event)), List.cons_ne_nil _ _, rfl, rfl⟩
  | link e =>
      exact ⟨_, _, .cons (reads_keyword (w := "link") (t := .link) (by decide))
        (.cons (reads_number e.sourceEv) (reads_number e.targetEv)), List.cons_ne_nil _ _, rfl, rfl⟩
  | trigger e =>
      exact ⟨_, _, .cons (reads_keyword (w := "trigger") (t := .trigger) (by decide))
        (reads_number e.eventId), List.cons_ne_nil _ _, rfl, rfl⟩

/-- The line of an expression. -/
theorem readsLines_expr {e : Expr} (hid : ∀ submitOp, e = .submitOp submitOp → IsOpIdText submitOp.opId)
    (ht : ∀ tag ∈ e.printedTags, ReadableTag tag) : ReadsLines [e.lexemes] (exprToks e) := by
  obtain ⟨ls, ts, hls, hne, hlex, htoks⟩ := reads_expr hid
  rw [hlex, htoks]
  exact hls.line hne ht

/-- The tokens of the definition of an operation. -/
def execOpToks (execOp : ExecOp) : List Token :=
  [.op, .opId execOp.id, .do_] ++ (execOp.operations.flatMap opToks ++ [.done])

/-- The tokens of a block. -/
def blockToks (block : Block) : List Token :=
  (.beginBlock :: (if block.isMain then [.main] else []) ++ [.number (toString block.blockId)]) ++
    (block.exprs.flatMap exprToks ++ [.endBlock])

/-- The first line of a definition. -/
theorem reads_opHead {id : String} (hid : IsOpIdText id) :
    Reads [.word "Operation", .word id, .word "do"] [.op, .opId id, .do_] :=
  .cons (reads_keyword (by decide)) (.cons (reads_opId hid) (reads_keyword (by decide)))

theorem readsLines_execOp {execOp : ExecOp} (hid : IsOpIdText execOp.id)
    (hops : ∀ op ∈ execOp.operations, ReadsLines [op.lexemes] (opToks op)) :
    ReadsLines execOp.lines (execOpToks execOp) :=
  ((reads_opHead hid).words (List.cons_ne_nil _ _)).append ((readsLines_map hops).append
    ((reads_keyword (w := "done") (by decide)).words (List.cons_ne_nil _ _)))

/-- The first line of a block. -/
theorem reads_blockHead (block : Block) :
    Reads ([Lexeme.word "Begin"] ++ (if block.isMain then [Lexeme.word "MAIN"] else []) ++
        [Lexeme.word (toString block.blockId)])
      (Token.beginBlock :: (if block.isMain then [Token.main] else []) ++
        [Token.number (toString block.blockId)]) := by
  have hmain : Reads (if block.isMain then [.word "MAIN"] else [])
      (if block.isMain then [.main] else []) := by
    split
    · exact reads_keyword (by decide)
    · exact .nil
  exact Reads.append (Reads.append (reads_keyword (w := "Begin") (t := .beginBlock)
    (by decide)) hmain) (reads_number block.blockId)

theorem readsLines_block {block : Block}
    (hexprs : ∀ e ∈ block.exprs, ReadsLines [e.lexemes] (exprToks e)) :
    ReadsLines block.lines (blockToks block) :=
  ((reads_blockHead block).words (by simp)).append ((readsLines_map hexprs).append
    ((reads_keyword (w := "End") (by decide)).words (List.cons_ne_nil _ _)))

/-- The tokens of a trace behind its header. -/
def traceToks (trace : Trace) : List Token :=
  trace.execOps.flatMap execOpToks ++ trace.printedBlocks.flatMap blockToks

theorem mem_printedBlocks {trace : Trace} {block : Block} (h : block ∈ trace.printedBlocks) :
    block ∈ trace.blocks ∧ block.isEmptyMain = false := by
  obtain ⟨hm, he⟩ := List.mem_filter.mp h
  exact ⟨hm, by simpa using he⟩

/-- **The tokens of a dump.** -/
theorem lex_dump {trace : Trace} (hcwd : IsIdentifier trace.cwd)
    (hops : ∀ execOp ∈ trace.execOps, ReadsLines execOp.lines (execOpToks execOp))
    (hblocks : ∀ block ∈ trace.printedBlocks, ReadsLines block.lines (blockToks block)) :
    ∃ blocks operations entries, lex (dump trace).toList =
      statToks "Blocks" blocks ++ (statToks "Operations" operations ++
        (statToks "Entries" entries ++ (headerToks trace ++ traceToks trace))) := by
  have hlines : ReadsLines trace.lines (traceToks trace) :=
    (readsLines_flatMap hops).append (readsLines_flatMap hblocks)
  have hnil : lex [] = [] := by decide +kernel
  have hall := hlines []
  rw [List.append_nil, hnil, List.append_nil] at hall
  obtain ⟨blocks, operations, entries, hlex⟩ := lex_dump_lines hcwd
  exact ⟨blocks, operations, entries, by rw [hlex, hall]⟩

end Fsracer

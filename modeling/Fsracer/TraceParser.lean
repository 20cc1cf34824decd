/-
  File:      Fsracer/TraceParser.lean
  Subject:   THE PARSER OF TRACE FILES (tools/fsracer/TraceParser.y, TraceGeneratorDriver.cpp).

  One definition for each nonterminal of the grammar, with the actions of its alternatives. The
  state holds the tokens that are left and the fields of the driver: the trace that is built and
  the lists `opers` and `exprs`, which the actions fill and clear. A left-recursive list of the
  grammar is a loop that stops in front of the token that follows the list; every alternative is
  decided by the next token. Parsing fails with a syntax error, or because `std::stoi` throws.
-/
import Mathlib
import Fsracer.TraceLexer
import Fsracer.Trace

namespace Fsracer

/-- How parsing fails. -/
inductive ParseError where
  | syntaxError
  | outOfRange
  deriving DecidableEq, Repr

/-- The input of the parser and the fields of `TraceGeneratorDriver`. -/
structure ParserState where
  toks : List Token
  traceF : Trace
  opers : List Operation
  exprs : List Expr
  deriving DecidableEq, Repr

/-- A nonterminal. -/
abbrev Parse (α : Type) := ParserState → Except ParseError (α × ParserState)

namespace TraceParser

instance : Monad Parse := inferInstanceAs (Monad (StateT ParserState (Except ParseError)))

/-! ## 1. Tokens -/

/-- A syntax error. -/
def fail {α : Type} : Parse α := fun _ => .error .syntaxError

/-- The next token, which stays; `none` for `END`. -/
def peek : Parse (Option Token) := fun s => .ok (s.toks.head?, s)

/-- Whether the next token is `t`. -/
def nextIs (t : Token) : Parse Bool := fun s => .ok (decide (s.toks.head? = some t), s)

/-- The token `t`. -/
def shift (t : Token) : Parse Unit := fun s =>
  match s.toks with
  | t' :: toks => if t' = t then .ok ((), { s with toks := toks }) else .error .syntaxError
  | [] => .error .syntaxError

/-- `NUMBER`. -/
def number : Parse String := fun s =>
  match s.toks with
  | .number text :: toks => .ok (text, { s with toks := toks })
  | _ => .error .syntaxError

/-- `IDENTIFIER`. -/
def identifier : Parse String := fun s =>
  match s.toks with
  | .identifier text :: toks => .ok (text, { s with toks := toks })
  | _ => .error .syntaxError

/-- `OPID`. -/
def opId : Parse String := fun s =>
  match s.toks with
  | .opId text :: toks => .ok (text, { s with toks := toks })
  | _ => .error .syntaxError

/-- The largest `int`. -/
def intMax : Nat := 2147483647

/-- `std::stoi` on digits. -/
def stoi (text : String) : Parse Nat := fun s =>
  let n := Nat.ofDigitChars 10 text.toList 0
  if n ≤ intMax then .ok (n, s) else .error .outOfRange

/-- A list of the grammar: `p` at least once, and again while `more` holds of the next token. The
    fuel is the number of tokens; `p` takes one at least, and fails without any. -/
def loop (p : Parse Unit) (more : Option Token → Bool) : Nat → Parse Unit
  | 0 => fail
  | n + 1 => do
      p
      if more (← peek) then loop p more n

/-- A list of the grammar, with fuel. -/
def list (p : Parse Unit) (more : Option Token → Bool) : Parse Unit := fun s =>
  loop p more s.toks.length s

/-! ## 2. Operations -/

/-- `AddOperationDebugInfo`. -/
def addOperationDebugInfo (op : Operation) (debugInfo : List String) : Operation :=
  debugInfo.foldl (fun op debugEntry =>
    if debugEntry = "failed" then op.markFailed else op.setActualOpName debugEntry) op

/-- `driver.opers.push_back`. -/
def pushOper (op : Operation) : Parse Unit := fun s => .ok ((), { s with opers := s.opers ++ [op] })

/-- The words of `meta_vars` behind the first one. A `!` without an identifier is left; no rule
    accepts it there. -/
def metaVarsTail : List Token → List String × List Token
  | .exclamation :: .identifier text :: toks =>
      let (vars, toks) := metaVarsTail toks
      (text :: vars, toks)
  | toks => ([], toks)

/-- `meta_vars`: the first word may be the keyword `rename`. -/
def metaVars : Parse (List String) := fun s =>
  match s.toks with
  | .exclamation :: .identifier text :: toks =>
      let (vars, toks) := metaVarsTail toks
      .ok (text :: vars, { s with toks := toks })
  | .exclamation :: .rename :: toks =>
      let (vars, toks) := metaVarsTail toks
      .ok ("rename" :: vars, { s with toks := toks })
  | _ => .error .syntaxError

/-- `dirfd`. -/
def dirfd : Parse Nat := do
  match ← peek with
  | some .atFdcwd => do
      shift .atFdcwd
      return atFdcwd
  | _ => stoi (← number)

/-- `effect_type`. -/
def effectType : Parse EffectType := do
  match ← peek with
  | some .consumed => do
      shift .consumed
      return .consumed
  | some .produced => do
      shift .produced
      return .produced
  | some .expunged => do
      shift .expunged
      return .expunged
  | _ => fail

/-- `oper`. -/
def oper : Parse Unit := do
  match ← peek with
  | some .hpath => do
      shift .hpath
      let fd ← dirfd
      let path ← identifier
      let effect ← effectType
      let vars ← metaVars
      pushOper (addOperationDebugInfo { kind := .hpath fd path effect } vars)
  | some .hpathSym => do
      shift .hpathSym
      let fd ← dirfd
      let path ← identifier
      let effect ← effectType
      let vars ← metaVars
      pushOper (addOperationDebugInfo { kind := .hpathSym fd path effect } vars)
  | some .newFd => do
      shift .newFd
      let atFd ← dirfd
      let path ← identifier
      match ← peek with
      | some (.number _) => do
          let text ← number
          let vars ← metaVars
          let fd ← stoi text
          pushOper (addOperationDebugInfo { kind := .newFd atFd path fd } vars)
      | _ => do
          let vars ← metaVars
          pushOper (addOperationDebugInfo
            (Operation.markFailed { kind := .newFd atFd path (-1) }) vars)
  | some .delFd => do
      shift .delFd
      let text ← number
      let vars ← metaVars
      let fd ← stoi text
      pushOper (addOperationDebugInfo { kind := .delFd fd } vars)
  | some .link => do
      shift .link
      let oldFd ← dirfd
      let oldPath ← identifier
      let newFd ← dirfd
      let newPath ← identifier
      let vars ← metaVars
      pushOper (addOperationDebugInfo { kind := .link oldFd oldPath newFd newPath } vars)
  | some .rename => do
      shift .rename
      let oldFd ← dirfd
      let oldPath ← identifier
      let newFd ← dirfd
      let newPath ← identifier
      let vars ← metaVars
      pushOper (addOperationDebugInfo { kind := .rename oldFd oldPath newFd newPath } vars)
  | some .symlink => do
      shift .symlink
      let fd ← dirfd
      let path ← identifier
      let target ← identifier
      let vars ← metaVars
      pushOper (addOperationDebugInfo { kind := .symlink fd path target } vars)
  | _ => fail

/-- `operations`, in front of `DONE`. -/
def operations : Parse Unit := list oper fun t => t ≠ some .done

/-- `AddExecOp` and `driver.opers.clear()`. -/
def addExecOp (execOp : ExecOp) : Parse Unit := fun s =>
  .ok ((), { s with
    traceF := { s.traceF with execOps := s.traceF.execOps ++ [execOp] }
    opers := [] })

/-- `op_def`. -/
def opDef : Parse Unit := do
  shift .op
  let id ← opId
  shift .do_
  match ← nextIs .done with
  | true => do
      shift .done
      addExecOp ⟨id, []⟩
  | false => do
      operations
      shift .done
      fun s => addExecOp ⟨id, s.opers⟩ s

/-- `op_defs`. -/
def opDefs : Parse Unit := list opDef fun t => t = some .op

/-! ## 3. Blocks -/

/-- `driver.exprs.push_back`. -/
def pushExpr (e : Expr) : Parse Unit := fun s => .ok ((), { s with exprs := s.exprs ++ [e] })

/-- `event_type`. -/
def eventType : Parse Event := do
  match ← peek with
  | some .S => do
      shift .S
      return ⟨.S, ← stoi (← number)⟩
  | some .M => do
      shift .M
      return ⟨.M, ← stoi (← number)⟩
  | some .W => do
      shift .W
      return ⟨.W, ← stoi (← number)⟩
  | some .external => do
      shift .external
      return ⟨.EXT, 0⟩
  | _ => fail

/-- `expr`. Only the tags of `newEvent` may be missing; `link` and `trigger` have none. -/
def expr : Parse Unit := do
  match ← peek with
  | some .newEvent => do
      shift .newEvent
      let text ← number
      let event ← eventType
      match ← nextIs .exclamation with
      | true => do
          let vars ← metaVars
          pushExpr (.newEvent ⟨← stoi text, event, vars⟩)
      | false => pushExpr (.newEvent ⟨← stoi text, event, []⟩)
  | some .link => do
      shift .link
      let source ← number
      let target ← number
      pushExpr (.link ⟨← stoi source, ← stoi target, []⟩)
  | some .trigger => do
      shift .trigger
      pushExpr (.trigger ⟨← stoi (← number), []⟩)
  | some .submitOp => do
      shift .submitOp
      let id ← opId
      match ← peek with
      | some .sync => do
          shift .sync
          let vars ← metaVars
          pushExpr (.submitOp ⟨id, none, vars⟩)
      | _ => do
          let text ← number
          shift .async
          let vars ← metaVars
          pushExpr (.submitOp ⟨id, some (← stoi text), vars⟩)
  | _ => fail

/-- `exprs`, in front of `End`. -/
def exprs : Parse Unit := list expr fun t => t ≠ some .endBlock

/-- `AddBlock` and `driver.exprs.clear()`. -/
def addBlock (block : Block) : Parse Unit := fun s =>
  .ok ((), { s with
    traceF := { s.traceF with blocks := s.traceF.blocks ++ [block] }
    exprs := [] })

/-- `block_def`: a main block is not empty. -/
def blockDef : Parse Unit := do
  shift .beginBlock
  match ← nextIs .main with
  | true => do
      shift .main
      let text ← number
      exprs
      shift .endBlock
      let id ← stoi text
      fun s => addBlock ⟨id, .MAIN, s.exprs⟩ s
  | false => do
      let text ← number
      match ← nextIs .endBlock with
      | true => do
          shift .endBlock
          addBlock ⟨← stoi text, .REG, []⟩
      | false => do
          exprs
          shift .endBlock
          let id ← stoi text
          fun s => addBlock ⟨id, .REG, s.exprs⟩ s

/-- `block_defs`, in front of `END`. -/
def blockDefs : Parse Unit := list blockDef fun t => t ≠ none

/-! ## 4. Programs -/

/-- One line of `stats`. -/
def stat : Parse Unit := do
  shift .exclamation
  let _ ← identifier
  shift .colon
  let _ ← number

/-- `stats`. -/
def stats : Parse Unit := list stat fun t => t = some .exclamation

/-- `SetThreadId` and `SetCwd`. -/
def setHeader (threadId : Nat) (cwd : String) : Parse Unit := fun s =>
  .ok ((), { s with traceF := { s.traceF with threadId := threadId, cwd := cwd } })

/-- `program`: operations and blocks come together or not at all. -/
def program : Parse Unit := do
  stats
  shift .pid
  shift .colon
  let text ← number
  shift .cwd
  shift .colon
  let cwd ← identifier
  match ← peek with
  | none => setHeader (← stoi text) cwd
  | some _ => do
      opDefs
      blockDefs
      setHeader (← stoi text) cwd

/-- The trace of a file that is accepted. -/
def parse (text : String) : Except ParseError Trace :=
  (program ⟨TraceLexer.lex text.toList, ⟨0, "", [], []⟩, [], []⟩).map fun r => r.2.traceF

/-- The traces of the files that the parser accepts. -/
def Accepts (trace : Trace) : Prop := ∃ text, parse text = .ok trace

/-! ## 5. Reading tokens -/

theorem bind_apply {α β : Type} (p : Parse α) (f : α → Parse β) (s : ParserState) :
    (p >>= f) s = (p s).bind fun r => f r.1 r.2 := rfl

theorem peek_apply (s : ParserState) : peek s = .ok (s.toks.head?, s) := rfl

theorem nextIs_cons (t : Token) (ts : List Token) (tr : Trace) (os : List Operation)
    (es : List Expr) : nextIs t ⟨t :: ts, tr, os, es⟩ = .ok (true, ⟨t :: ts, tr, os, es⟩) := by
  simp [nextIs]

theorem nextIs_of_ne {t : Token} {ts : List Token} (h : ts.head? ≠ some t) (tr : Trace)
    (os : List Operation) (es : List Expr) :
    nextIs t ⟨ts, tr, os, es⟩ = .ok (false, ⟨ts, tr, os, es⟩) := by
  simp [nextIs, h]

theorem ok_bind {α β : Type} (a : α) (f : α → Except ParseError β) :
    (Except.ok a : Except ParseError α).bind f = f a := rfl

theorem shift_cons (t : Token) (ts : List Token) (tr : Trace) (os : List Operation)
    (es : List Expr) : shift t ⟨t :: ts, tr, os, es⟩ = .ok ((), ⟨ts, tr, os, es⟩) := by
  simp [shift]

theorem identifier_cons (text : String) (ts : List Token) (tr : Trace) (os : List Operation)
    (es : List Expr) :
    identifier ⟨.identifier text :: ts, tr, os, es⟩ = .ok (text, ⟨ts, tr, os, es⟩) := rfl

theorem number_cons (text : String) (ts : List Token) (tr : Trace) (os : List Operation)
    (es : List Expr) :
    number ⟨.number text :: ts, tr, os, es⟩ = .ok (text, ⟨ts, tr, os, es⟩) := rfl

theorem opId_cons (text : String) (ts : List Token) (tr : Trace) (os : List Operation)
    (es : List Expr) : opId ⟨.opId text :: ts, tr, os, es⟩ = .ok (text, ⟨ts, tr, os, es⟩) := rfl

theorem stoi_toString (n : Nat) (s : ParserState) :
    stoi (toString n) s = if n ≤ intMax then .ok (n, s) else .error .outOfRange := by
  have h : Nat.ofDigitChars 10 (toString n).toList 0 = n := by simp
  unfold stoi
  rw [h]

theorem stoi_ok {n : Nat} (h : n ≤ intMax) (s : ParserState) :
    stoi (toString n) s = .ok (n, s) := by
  rw [stoi_toString, if_pos h]

/-- A list of the grammar whose elements `x` are read from `toks x`, as `res x` says. `Inv`
    holds of the state in front of an element, `Ok` of the token behind one. -/
theorem loop_eq {X Y : Type} {p : Parse Unit} {more : Option Token → Bool} (toks : X → List Token)
    (res : X → Except ParseError Y) (push : ParserState → Y → ParserState)
    (Inv : ParserState → Prop) (Ok : Option Token → Prop) {xs : List X}
    (hstep : ∀ x ∈ xs, ∀ s rest, Inv s → Ok rest.head? → p { s with toks := toks x ++ rest } =
      (res x).map fun y => ((), { push s y with toks := rest }))
    (hinv : ∀ s y, Inv s → Inv (push s y))
    (hhead : ∀ x ∈ xs, ∃ t ts, toks x = t :: ts ∧ more (some t) = true ∧ Ok (some t))
    (hxs : xs ≠ []) {s : ParserState} (hs : Inv s) {rest : List Token} (hrest : Ok rest.head?)
    (hmore : more rest.head? = false) {n : Nat} (hn : xs.length ≤ n) :
    loop p more n { s with toks := xs.flatMap toks ++ rest } =
      (xs.mapM res).map fun ys => ((), { ys.foldl push s with toks := rest }) := by
  induction xs generalizing s n with
  | nil => exact absurd rfl hxs
  | cons x xs ih =>
      cases n with
      | zero => simp at hn
      | succ n =>
          have hnext : Ok (xs.flatMap toks ++ rest).head? := by
            cases xs with
            | nil => exact hrest
            | cons x' xs =>
                obtain ⟨t, ts, ht, _, hok⟩ := hhead x' (by simp)
                simpa [ht] using hok
          rw [List.flatMap_cons, List.append_assoc, loop, bind_apply,
            hstep x List.mem_cons_self s _ hs hnext, List.mapM_cons]
          cases hx : res x with
          | error e => rfl
          | ok y =>
              simp only [Except.map, Except.bind, bind_apply, peek]
              cases xs with
              | nil =>
                  rw [List.flatMap_nil, List.nil_append, hmore]
                  rfl
              | cons x' xs =>
                  obtain ⟨t, ts, ht, hm, _⟩ := hhead x' (by simp)
                  have hh : ((x' :: xs).flatMap toks ++ rest).head? = some t := by simp [ht]
                  rw [hh, if_pos hm]
                  have hi := ih (fun y hy => hstep y (List.mem_cons_of_mem _ hy))
                    (fun y hy => hhead y (List.mem_cons_of_mem _ hy)) (by simp)
                    (hinv s y hs) (by simpa using hn)
                  refine hi.trans ?_
                  cases (x' :: xs).mapM res with
                  | error e => rfl
                  | ok ys => rfl

theorem list_eq {X Y : Type} {p : Parse Unit} {more : Option Token → Bool} (toks : X → List Token)
    (res : X → Except ParseError Y) (push : ParserState → Y → ParserState)
    (Inv : ParserState → Prop) (Ok : Option Token → Prop) {xs : List X}
    (hstep : ∀ x ∈ xs, ∀ s rest, Inv s → Ok rest.head? → p { s with toks := toks x ++ rest } =
      (res x).map fun y => ((), { push s y with toks := rest }))
    (hinv : ∀ s y, Inv s → Inv (push s y))
    (hhead : ∀ x ∈ xs, ∃ t ts, toks x = t :: ts ∧ more (some t) = true ∧ Ok (some t))
    (hxs : xs ≠ []) {s : ParserState} (hs : Inv s) {rest : List Token} (hrest : Ok rest.head?)
    (hmore : more rest.head? = false) :
    list p more { s with toks := xs.flatMap toks ++ rest } =
      (xs.mapM res).map fun ys => ((), { ys.foldl push s with toks := rest }) := by
  refine loop_eq toks res push Inv Ok hstep hinv hhead hxs hs hrest hmore ?_
  show xs.length ≤ (xs.flatMap toks ++ rest).length
  have hlen : xs.length ≤ (xs.flatMap toks).length := by
    clear hstep hxs
    induction xs with
    | nil => exact Nat.zero_le _
    | cons x xs ih =>
        obtain ⟨t, ts, ht, _⟩ := hhead x List.mem_cons_self
        have ih := ih fun y hy => hhead y (List.mem_cons_of_mem _ hy)
        rw [List.flatMap_cons, List.length_append, ht, List.length_cons, List.length_cons]
        omega
  rw [List.length_append]
  omega

end TraceParser

end Fsracer

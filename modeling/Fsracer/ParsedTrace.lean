/-
  File:      Fsracer/ParsedTrace.lean
  Subject:   WHAT THE PARSER BUILDS from a text that it accepts.

  Section 1 is about the lexer: an identifier or an operation id of the text is read as one again
  wherever it is printed, because no rule in front of its own matched as much. The rest is about
  the grammar: `Leads P p Q R` is a partial-correctness triple, with one lemma for each
  nonterminal, for any property of the state that the actions preserve (`Built`).
  **`parsedTrace_of_parse`**: whatever the text, the trace is a `ParsedTrace`.
-/
import Mathlib
import Fsracer.Reparse

namespace Fsracer

open Munch TraceParser

/-! ## 1. The texts of the tokens -/

/-- The text that a token keeps. -/
def Token.keptText : Token → Option String
  | .opId text | .number text | .identifier text | .error text => some text
  | _ => none

namespace TraceLexer

/-- A token with a text is made by a rule for texts, where every keyword is shorter. -/
theorem exists_textRule {t : Token} {x : String} {cs : List Char} (h : t ∈ lex cs)
    (ht : t.keptText = some x) : ∃ cs' r front back action,
      textRules = front ++ r :: back ∧ r.action = some action ∧
        t = action (cs'.take (r.scan cs')) ∧ 0 < r.scan cs' ∧
        (∀ k ∈ keywords, lit k.1.toList cs' < r.scan cs') ∧
        ∀ r' ∈ front, r'.scan cs' < r.scan cs' := by
  unfold lex at h
  obtain ⟨cs', r, action, hwin, ha, rfl⟩ := exists_of_mem_lex h
  obtain ⟨before, behind, hsplit, hpos, hbefore, _⟩ := hwin
  have hfixed : ∀ r' ∈ signRules ++ keywords.map keywordRule, r'.action = some action → False := by
    intro r' hr' ha'
    rcases List.mem_append.mp hr' with hr' | hr'
    · simp only [signRules, List.mem_cons, List.not_mem_nil, or_false] at hr'
      rcases hr' with rfl | rfl | rfl | rfl | rfl | rfl <;> cases ha' <;> cases ht
    · obtain ⟨k, hk, rfl⟩ := List.mem_map.mp hr'
      have hall : ∀ k ∈ keywords, k.2.keptText = none := by decide
      cases ha'
      exact absurd ((hall k hk).symm.trans ht) (by simp)
  rcases List.append_eq_append_iff.mp hsplit with ⟨front, hb, ht'⟩ | ⟨a, hb, ht'⟩
  · refine ⟨cs', r, front, behind, action, ht', ha, rfl, hpos, fun k hk => ?_, fun r' hr' => ?_⟩
    · exact hbefore (keywordRule k) (by
        rw [hb]
        exact List.mem_append_left _ (List.mem_append_right _ (List.mem_map_of_mem hk)))
    · exact hbefore r' (by rw [hb]; exact List.mem_append_right _ hr')
  · cases a with
    | nil =>
        rw [List.append_nil] at hb
        refine ⟨cs', r, [], behind, action, ht'.symm, ha, rfl, hpos, fun k hk => ?_, by simp⟩
        exact hbefore (keywordRule k) (by
          rw [← hb]
          exact List.mem_append_right _ (List.mem_map_of_mem hk))
    | cons r' a =>
        obtain ⟨rfl, _⟩ := List.cons.inj ht'
        exact (hfixed r (by rw [hb]; simp) ha).elim

theorem span_mono (p : Char → Bool) (w rest : List Char) : span p w ≤ span p (w ++ rest) := by
  unfold span
  induction w with
  | nil => exact Nat.zero_le _
  | cons c w ih =>
      rw [List.cons_append, List.takeWhile_cons, List.takeWhile_cons]
      split
      · rw [List.length_cons, List.length_cons]
        omega
      · exact le_rfl

theorem take_span (p : Char → Bool) (cs : List Char) : ∀ c ∈ cs.take (span p cs), p c = true := by
  unfold span
  rw [List.prefix_iff_eq_take.mp (List.takeWhile_prefix p) |>.symm]
  intro c hc
  exact List.mem_takeWhile_imp hc

theorem exists_of_scanSync {cs : List Char} (h : 0 < scanSync cs) : ∃ ds, ds ≠ [] ∧
    (∀ c ∈ ds, c.isDigit) ∧ cs.take (scanSync cs) = "sync_".toList ++ ds := by
  unfold scanSync at h ⊢
  split at h
  · rename_i hs
    obtain ⟨⟨rest, rfl⟩, hspan⟩ := hs
    have hdrop : ("sync_".toList ++ rest).drop 5 = rest := rfl
    rw [hdrop] at hspan
    refine ⟨rest.take (span Char.isDigit rest), ?_, take_span _ rest, ?_⟩
    · intro he
      have hlen := congrArg List.length he
      rw [List.length_take, Nat.min_eq_left (span_le _ rest)] at hlen
      exact hspan hlen
    · rw [if_pos ⟨List.prefix_append _ _, by rw [hdrop]; exact hspan⟩, hdrop]
      show ("sync_".toList ++ rest).take ("sync_".toList.length + span Char.isDigit rest) = _
      rw [List.take_length_add_append]
  · exact absurd h (Nat.lt_irrefl 0)

theorem scanSync_mono (w rest : List Char) : scanSync w ≤ scanSync (w ++ rest) := by
  unfold scanSync
  split
  · rename_i h
    have hdrop : (w ++ rest).drop 5 = w.drop 5 ++ rest :=
      List.drop_append_of_le_length h.1.length_le
    have hspan := span_mono Char.isDigit (w.drop 5) rest
    rw [hdrop, if_pos ⟨h.1.trans (List.prefix_append w rest), by omega⟩]
    omega
  · exact Nat.zero_le _

theorem scanOpId_mono (w rest : List Char) : scanOpId w ≤ scanOpId (w ++ rest) := by
  cases w with
  | nil => exact Nat.zero_le _
  | cons c w =>
      have h1 := scanSync_mono w rest
      have h2 := scanSync_mono (c :: w) rest
      rw [List.cons_append] at h2 ⊢
      rw [scanOpId, scanOpId]
      split
      · split
        · exact Nat.zero_le _
        · rw [if_neg (by omega)]
          omega
      · exact h2

/-- **The text of an operation id** has the form of one. -/
theorem isOpIdText_of_mem_lex {x : String} {cs : List Char} (h : .opId x ∈ lex cs) :
    IsOpIdText x := by
  obtain ⟨cs', r, front, back, action, hsplit, ha, ht, hpos, _, _⟩ := exists_textRule h rfl
  have hr : r ∈ textRules := by rw [hsplit]; simp
  simp only [textRules, List.mem_cons, List.not_mem_nil, or_false] at hr
  rcases hr with rfl | rfl | rfl | rfl
  · cases ha
    injection ht with ht
    have hx : x.toList = cs'.take (scanOpId cs') := by rw [ht, String.toList_ofList]
    have hpos : 0 < scanOpId cs' := hpos
    cases cs' with
    | nil => exact absurd hpos (Nat.lt_irrefl 0)
    | cons c cs' =>
        rw [scanOpId] at hx hpos
        split at hx
        · rename_i hc
          rw [if_pos hc] at hpos
          split at hx
          · rename_i h0
            rw [if_pos h0] at hpos
            exact absurd hpos (Nat.lt_irrefl 0)
          · rename_i h0
            obtain ⟨ds, hne, hd, htake⟩ := exists_of_scanSync (Nat.pos_of_ne_zero h0)
            refine ⟨ds, hne, hd, .inr ?_⟩
            rw [hx, Nat.add_comm, List.take_succ_cons, htake, hc]
            rfl
        · rename_i hc
          rw [if_neg hc] at hpos
          obtain ⟨ds, hne, hd, htake⟩ := exists_of_scanSync hpos
          exact ⟨ds, hne, hd, .inl (hx.trans htake)⟩
  · cases ha
    cases ht
  · cases ha
    cases ht
  · cases ha
    cases ht

theorem take_scanIdentifier {cs : List Char} (h : 0 < scanIdentifier cs) : ∃ c ds,
    cs.take (scanIdentifier cs) = c :: ds ∧ isIdentStart c = true ∧
      ∀ c ∈ ds, isIdentChar c = true := by
  cases cs with
  | nil => exact absurd h (Nat.lt_irrefl 0)
  | cons c cs =>
      rw [scanIdentifier] at h ⊢
      split at h
      · rename_i hc
        refine ⟨c, cs.take (span isIdentChar cs), ?_, hc, take_span _ cs⟩
        rw [if_pos hc, Nat.add_comm, List.take_succ_cons]
      · exact absurd h (Nat.lt_irrefl 0)

theorem isIdentChar_of_isIdentStart {c : Char} (h : isIdentStart c = true) :
    isIdentChar c = true := by
  have hne : ∀ s ∈ [' ', '\t', '\r', '\n', ':', '!'], c ≠ s := fun s hs => start_ne (.inl h) hs
  simp only [List.mem_cons, List.not_mem_nil, or_false, forall_eq_or_imp, forall_eq] at hne
  simp [isIdentChar, hne]

/-- **The text of an identifier** is read as one again. -/
theorem isIdentifier_of_mem_lex {x : String} {cs : List Char} (h : .identifier x ∈ lex cs) :
    IsIdentifier x := by
  obtain ⟨cs', r, front, back, action, hsplit, ha, ht, hpos, hkey, hfront⟩ := exists_textRule h rfl
  have hr : r ∈ textRules := by rw [hsplit]; simp
  simp only [textRules, List.mem_cons, List.not_mem_nil, or_false] at hr
  rcases hr with rfl | rfl | rfl | rfl
  · cases ha
    cases ht
  · cases ha
    cases ht
  · cases ha
    injection ht with ht
    have hx : x.toList = cs'.take (scanIdentifier cs') := by rw [ht, String.toList_ofList]
    have hlen : x.toList.length = scanIdentifier cs' := by
      rw [hx, List.length_take, Nat.min_eq_left (scanIdentifier_le cs')]
    obtain ⟨c, ds, htake, hc, hds⟩ := take_scanIdentifier hpos
    rw [htake] at hx
    have happ : cs' = x.toList ++ cs'.drop (scanIdentifier cs') := by
      rw [hx, ← htake, List.take_append_drop]
    refine ⟨fun c' hc' => ?_, ⟨c, ds, hx, hc⟩, fun k hk he => ?_, fun he => ?_⟩
    · rw [hx] at hc'
      rcases List.mem_cons.mp hc' with rfl | hc'
      · exact isIdentChar_of_isIdentStart hc
      · exact hds c' hc'
    · -- the rule of the keyword would have won
      have hlit := hkey k hk
      rw [he, happ, lit_append_self, ← happ] at hlit
      exact absurd hlit (by rw [hlen]; exact Nat.lt_irrefl _)
    · -- the rule for operation ids would have won
      have hop : scanOpId cs' < scanIdentifier cs' := by
        cases front with
        | nil =>
            have hact := congrArg Rule.action (List.cons.inj hsplit).1
            cases congrFun (Option.some.inj hact) []
        | cons r' front =>
            have hr' := hfront r' List.mem_cons_self
            rw [← (List.cons.inj hsplit).1] at hr'
            exact hr'
      have hmono := scanOpId_mono x.toList (cs'.drop (scanIdentifier cs'))
      rw [← happ, he, hlen] at hmono
      omega
  · cases ha
    cases ht

end TraceLexer

open TraceLexer

/-- A token with the text that its rule matches. -/
def Token.Lexed : Token → Prop
  | .opId text => IsOpIdText text
  | .identifier text => IsIdentifier text
  | _ => True

theorem lexed_of_mem_lex {t : Token} {cs : List Char} (h : t ∈ lex cs) : t.Lexed := by
  cases t with
  | opId text => exact isOpIdText_of_mem_lex h
  | identifier text => exact isIdentifier_of_mem_lex h
  | _ => trivial

/-! ## 2. What the actions build -/

/-- An operation that the parser builds. -/
structure ParsedOperation (op : Operation) : Prop where
  args : ReadableArgs op
  delFd : ∀ fd, op.kind = .delFd fd → fd ≤ intMax
  name : op.actualOpName ≠ "failed"
  marks : IsMetaVars op.marks

/-- An expression that the parser builds: `link` and `trigger` have no tags. -/
structure ParsedExpr (e : Expr) : Prop where
  readable : ReadableExpr e
  opId : ∀ submitOp, e = .submitOp submitOp → IsOpIdText submitOp.opId
  reparse : reparseExpr e = e

/-- The definition of an operation that the parser builds. -/
structure ParsedExecOp (execOp : ExecOp) : Prop where
  id : IsOpIdText execOp.id
  operations : ∀ op ∈ execOp.operations, ParsedOperation op

/-- A block that the parser builds. -/
structure ParsedBlock (block : Block) : Prop where
  id : block.blockId ≤ intMax
  main : block.isEmptyMain = false
  exprs : ∀ e ∈ block.exprs, ParsedExpr e

/-- **A trace that the parser builds.** -/
structure ParsedTrace (trace : Trace) : Prop where
  threadId : trace.threadId ≤ intMax
  cwd : IsIdentifier trace.cwd
  execOps : ∀ x ∈ trace.execOps, ParsedExecOp x
  blocks : ∀ b ∈ trace.blocks, ParsedBlock b

theorem identifier_failed : IsIdentifier "failed" := by decide +kernel

theorem isMetaVars_marks {op : Operation} (hne : op.actualOpName ≠ "" ∨ op.failed = true)
    (hname : op.actualOpName = "" ∨ IsIdentifier op.actualOpName ∨ op.actualOpName = "rename") :
    IsMetaVars op.marks := by
  obtain ⟨kind, failed, name⟩ := op
  unfold Operation.marks
  by_cases h : name = ""
  · subst h
    cases failed with
    | true =>
        exact ⟨.inl identifier_failed, fun t ht => absurd ht List.not_mem_nil⟩
    | false => exact absurd hne (by simp)
  · have hword : IsIdentifier name ∨ name = "rename" := hname.resolve_left h
    cases failed with
    | true =>
        simp only [ne_eq, h, not_false_eq_true, if_true, List.singleton_append]
        refine ⟨hword, fun t ht => ?_⟩
        rw [List.mem_singleton.mp ht]
        exact identifier_failed
    | false =>
        simp only [ne_eq, h, not_false_eq_true, if_true, Bool.false_eq_true, if_false,
          List.append_nil]
        exact ⟨hword, fun t ht => absurd ht List.not_mem_nil⟩

/-- What the words of `meta_vars` leave of an operation: the class stays, a mark stays, and the
    name is one of the words. -/
theorem addOperationDebugInfo_spec (op : Operation) (vars : List String) :
    (addOperationDebugInfo op vars).kind = op.kind ∧
      (op.failed = true → (addOperationDebugInfo op vars).failed = true) ∧
      ((addOperationDebugInfo op vars).actualOpName = op.actualOpName ∨
        (addOperationDebugInfo op vars).actualOpName ∈ vars ∧
          (addOperationDebugInfo op vars).actualOpName ≠ "failed") ∧
      (vars ≠ [] → (addOperationDebugInfo op vars).actualOpName ∈ vars ∨
        (addOperationDebugInfo op vars).failed = true) := by
  unfold addOperationDebugInfo
  induction vars using List.reverseRecOn with
  | nil => exact ⟨rfl, id, .inl rfl, fun h => absurd rfl h⟩
  | append_singleton vars var ih =>
      rw [List.foldl_concat]
      generalize List.foldl _ op vars = op' at ih ⊢
      obtain ⟨hkind, hfailed, hname, _⟩ := ih
      by_cases hv : var = "failed"
      · rw [if_pos hv]
        refine ⟨hkind, fun _ => rfl, hname.imp_right fun h => ?_, fun _ => .inr rfl⟩
        exact ⟨List.mem_append_left _ h.1, h.2⟩
      · rw [if_neg hv]
        have hmem : var ∈ vars ++ [var] := by simp
        exact ⟨hkind, hfailed, .inr ⟨hmem, hv⟩, fun _ => .inl hmem⟩

theorem IsMetaVars.ne_nil {vars : List String} (h : IsMetaVars vars) : vars ≠ [] := by
  intro he
  subst he
  exact h

theorem IsMetaVars.word {vars : List String} (h : IsMetaVars vars) {var : String}
    (hv : var ∈ vars) : IsIdentifier var ∨ var = "rename" := by
  cases vars with
  | nil => exact absurd hv List.not_mem_nil
  | cons v vars =>
      rcases List.mem_cons.mp hv with rfl | hv
      · exact h.1
      · exact .inl (h.2 var hv)

theorem TraceLexer.IsIdentifier.ne_empty {text : String} (h : IsIdentifier text) : text ≠ "" := by
  intro he
  subst he
  obtain ⟨c, cs, hc, _⟩ := h.start
  cases hc

/-- **The operation of an alternative of `oper`.** -/
theorem parsedOperation {op : Operation} (hname : op.actualOpName = "")
    (hargs : ∀ failed name, (op.failed = true → failed = true) →
      ReadableArgs ⟨op.kind, failed, name⟩)
    (hdel : ∀ fd, op.kind = .delFd fd → fd ≤ intMax) {vars : List String} (hv : IsMetaVars vars) :
    ParsedOperation (addOperationDebugInfo op vars) := by
  obtain ⟨hkind, hfailed, hn, hset⟩ := addOperationDebugInfo_spec op vars
  generalize addOperationDebugInfo op vars = op' at hkind hfailed hn hset
  obtain ⟨kind', failed', name'⟩ := op'
  obtain rfl : kind' = op.kind := hkind
  have hset := hset hv.ne_nil
  refine ⟨hargs failed' name' hfailed, hdel, ?_, isMetaVars_marks ?_ ?_⟩
  · rcases hn with hn | hn
    · rw [hn, hname]
      decide
    · exact hn.2
  · refine hset.imp_left fun hm => ?_
    rcases hv.word hm with h | h
    · exact h.ne_empty
    · rw [h]
      decide
  · rcases hn with hn | hn
    · exact .inl (hn.trans hname)
    · exact .inr (hv.word hn.1)

namespace TraceParser

/-! ## 3. Outcomes -/

/-- A run of `p` from a state that meets `P` ends, if it does not fail, in one that meets `Q`, and
    its result meets `R`. -/
def Leads {α : Type} (P : ParserState → Prop) (p : Parse α) (Q : ParserState → Prop)
    (R : α → Prop) : Prop := ∀ s a s', P s → p s = .ok (a, s') → Q s' ∧ R a

variable {α β : Type} {P Q K : ParserState → Prop} {R : α → Prop}

theorem Leads.bind {p : Parse α} {f : α → Parse β} {S : β → Prop} (hp : Leads P p Q R)
    (hf : ∀ a, R a → Leads Q (f a) K S) : Leads P (p >>= f) K S := by
  intro s b s'' hs h
  rw [bind_apply] at h
  cases hps : p s with
  | error e =>
      rw [hps] at h
      cases h
  | ok r =>
      obtain ⟨a, s'⟩ := r
      rw [hps, ok_bind] at h
      obtain ⟨hq, hr⟩ := hp s a s' hs hps
      exact hf a hr s' b s'' hq h

theorem leads_pure {a : α} (h : R a) : Leads P (pure a) P R := by
  intro s b s' hs hb
  cases hb
  exact ⟨hs, h⟩

theorem leads_fail : Leads P fail Q R := by
  intro s a s' _ h
  cases h

theorem Leads.mono {p : Parse α} {P' Q' : ParserState → Prop} {R' : α → Prop} (h : Leads P p Q R)
    (hP : ∀ s, P' s → P s) (hQ : ∀ s, Q s → Q' s) (hR : ∀ a, R a → R' a) : Leads P' p Q' R' := by
  intro s a s' hs hp
  obtain ⟨hq, hr⟩ := h s a s' (hP s hs) hp
  exact ⟨hQ s' hq, hR a hr⟩

/-- A run of a list: its element preserves `Q`, and the list ends in front of another token. -/
theorem leads_list {p : Parse Unit} {more : Option Token → Bool}
    (hp : Leads P p Q fun _ => True) (hQ : ∀ s, Q s → P s) :
    Leads P (list p more) (fun s => Q s ∧ more s.toks.head? = false) fun _ => True := by
  have hloop : ∀ n, Leads P (loop p more n) (fun s => Q s ∧ more s.toks.head? = false)
      fun _ => True := by
    intro n
    induction n with
    | zero => exact leads_fail
    | succ n ih =>
        refine hp.bind fun _ _ s a s' hs h => ?_
        have hm : (if more s.toks.head? = true then loop p more n else pure ()) s = .ok (a, s') := h
        by_cases hmore : more s.toks.head? = true
        · rw [if_pos hmore] at hm
          exact ih s a s' (hQ s hs) hm
        · rw [if_neg hmore] at hm
          cases hm
          exact ⟨⟨hs, by simpa using hmore⟩, trivial⟩
  exact fun s a s' hs h => hloop s.toks.length s a s' hs h

/-! ## 4. Tokens -/

/-- The tokens have the texts that their rules match, and the lists of the driver hold what the
    actions build. -/
structure Sound (s : ParserState) : Prop where
  toks : ∀ t ∈ s.toks, t.Lexed
  opers : ∀ op ∈ s.opers, ParsedOperation op
  exprs : ∀ e ∈ s.exprs, ParsedExpr e

/-- A property of the state that survives a token, other than the one that starts the header. -/
structure Steady (I : ParserState → Prop) : Prop where
  sound : ∀ {s}, I s → Sound s
  next : ∀ {s t ts}, I s → s.toks = t :: ts → t ≠ .pid → I { s with toks := ts }

section Tokens

variable {I : ParserState → Prop}

theorem leads_peek : Leads P peek P fun _ => True := by
  intro s a s' hs h
  cases h
  exact ⟨hs, trivial⟩

theorem leads_nextIs {t : Token} : Leads P (nextIs t) P fun _ => True := by
  intro s a s' hs h
  cases h
  exact ⟨hs, trivial⟩

theorem leads_stoi {text : String} : Leads P (stoi text) P (· ≤ intMax) := by
  intro s n s' hs h
  simp only [stoi] at h
  split at h
  · rename_i hn
    cases h
    exact ⟨hs, hn⟩
  · cases h

theorem leads_shift (hI : Steady I) {t : Token} (ht : t ≠ .pid) :
    Leads I (shift t) I fun _ => True := by
  intro s a s' hs h
  unfold shift at h
  split at h
  · rename_i t' ts hts
    split at h
    · rename_i he
      cases h
      exact ⟨hI.next hs hts (he ▸ ht), trivial⟩
    · cases h
  · cases h

theorem leads_number (hI : Steady I) : Leads I number I fun _ => True := by
  intro s a s' hs h
  unfold number at h
  split at h
  · rename_i hts
    cases h
    exact ⟨hI.next hs hts Token.noConfusion, trivial⟩
  · cases h

theorem leads_identifier (hI : Steady I) : Leads I identifier I IsIdentifier := by
  intro s a s' hs h
  unfold identifier at h
  split at h
  · rename_i hts
    cases h
    exact ⟨hI.next hs hts Token.noConfusion, (hI.sound hs).toks (.identifier a) (by simp [hts])⟩
  · cases h

theorem leads_opId (hI : Steady I) : Leads I opId I IsOpIdText := by
  intro s a s' hs h
  unfold opId at h
  split at h
  · rename_i hts
    cases h
    exact ⟨hI.next hs hts Token.noConfusion, (hI.sound hs).toks (.opId a) (by simp [hts])⟩
  · cases h

theorem leads_metaVarsTail (hI : Steady I) {s : ParserState} (hs : I s) :
    I { s with toks := (metaVarsTail s.toks).2 } ∧
      ∀ var ∈ (metaVarsTail s.toks).1, IsIdentifier var := by
  obtain ⟨toks, tr, os, es⟩ := s
  induction toks using metaVarsTail.induct with
  | case1 text ts vars rest hrest ih =>
      have h1 := hI.next hs rfl Token.noConfusion
      have h2 := hI.next h1 rfl Token.noConfusion
      obtain ⟨hi, hv⟩ := ih h2
      refine ⟨hi, List.forall_mem_cons.mpr ⟨?_, hv⟩⟩
      exact (hI.sound hs).toks (.identifier text) (by simp)
  | case2 ts hne =>
      rw [metaVarsTail]
      · exact ⟨hs, fun _ h => absurd h List.not_mem_nil⟩
      · exact hne

theorem leads_metaVars (hI : Steady I) : Leads I metaVars I IsMetaVars := by
  intro s a s' hs h
  obtain ⟨toks, tr, os, es⟩ := s
  unfold metaVars at h
  split at h
  · rename_i text ts hts
    obtain rfl : toks = _ := hts
    cases h
    have h1 := hI.next hs rfl Token.noConfusion
    obtain ⟨hi, hv⟩ := leads_metaVarsTail hI (hI.next h1 rfl Token.noConfusion)
    exact ⟨hi, .inl ((hI.sound hs).toks (.identifier text) (by simp)), hv⟩
  · rename_i ts hts
    obtain rfl : toks = _ := hts
    cases h
    have h1 := hI.next hs rfl Token.noConfusion
    obtain ⟨hi, hv⟩ := leads_metaVarsTail hI (hI.next h1 rfl Token.noConfusion)
    exact ⟨hi, .inr rfl, hv⟩
  · cases h

theorem leads_dirfd (hI : Steady I) : Leads I dirfd I (· ≤ intMax) := by
  refine leads_peek.bind fun t _ => ?_
  split
  · exact (leads_shift hI Token.noConfusion).bind fun _ _ => leads_pure (Nat.zero_le _)
  · exact (leads_number hI).bind fun _ _ => leads_stoi

theorem leads_effectType (hI : Steady I) : Leads I effectType I fun _ => True := by
  refine leads_peek.bind fun t _ => ?_
  split
  · exact (leads_shift hI Token.noConfusion).bind fun _ _ => leads_pure trivial
  · exact (leads_shift hI Token.noConfusion).bind fun _ _ => leads_pure trivial
  · exact (leads_shift hI Token.noConfusion).bind fun _ _ => leads_pure trivial
  · exact leads_fail

end Tokens

/-! ## 5. Operations and expressions -/

/-- A property that the actions of the grammar preserve as well. -/
structure Built (I : ParserState → Prop) : Prop extends Steady I where
  oper : ∀ {s op}, I s → ParsedOperation op → I { s with opers := s.opers ++ [op] }
  expr : ∀ {s e}, I s → ParsedExpr e → I { s with exprs := s.exprs ++ [e] }
  execOp : ∀ {s x}, I s → ParsedExecOp x → I { s with
    traceF := { s.traceF with execOps := s.traceF.execOps ++ [x] }
    opers := [] }
  block : ∀ {s b}, I s → ParsedBlock b → I { s with
    traceF := { s.traceF with blocks := s.traceF.blocks ++ [b] }
    exprs := [] }

section Actions

variable {I : ParserState → Prop} (hI : Built I)

include hI

theorem leads_pushOper {op : Operation} (h : ParsedOperation op) :
    Leads I (pushOper op) I fun _ => True := by
  intro s a s' hs hp
  cases hp
  exact ⟨hI.oper hs h, trivial⟩

/-- An expression is pushed, so that there is one. -/
theorem leads_pushExpr {e : Expr} (h : ParsedExpr e) :
    Leads I (pushExpr e) (fun s => I s ∧ s.exprs ≠ []) fun _ => True := by
  intro s a s' hs hp
  cases hp
  exact ⟨⟨hI.expr hs h, by simp⟩, trivial⟩

/-- A descriptor and the path behind it. -/
theorem leads_dirfdPath {f : Nat → String → Parse α}
    (hf : ∀ fd path, fd ≤ intMax → IsIdentifier path → Leads I (f fd path) Q R) :
    Leads I (do let fd ← dirfd; let path ← identifier; f fd path) Q R :=
  (leads_dirfd hI.toSteady).bind fun fd hfd => (leads_identifier hI.toSteady).bind
    fun path hpath => hf fd path hfd hpath

/-- The tags, and the operation that they complete. -/
theorem leads_tagged {op : Operation} (hname : op.actualOpName = "")
    (hargs : ∀ failed name, (op.failed = true → failed = true) →
      ReadableArgs ⟨op.kind, failed, name⟩) (hdel : ∀ fd, op.kind ≠ .delFd fd) :
    Leads I (do let vars ← metaVars; pushOper (addOperationDebugInfo op vars)) I
      fun _ => True :=
  (leads_metaVars hI.toSteady).bind fun _ hvars => leads_pushOper hI
    (parsedOperation hname hargs (fun fd h => absurd h (hdel fd)) hvars)

theorem leads_oper : Leads I oper I fun _ => True := by
  refine leads_peek.bind fun t _ => ?_
  have hI' := hI.toSteady
  split
  · refine (leads_shift hI' Token.noConfusion).bind fun _ _ =>
      leads_dirfdPath hI fun fd path hfd hpath => (leads_effectType hI').bind fun eff _ =>
      leads_tagged hI rfl (fun _ _ _ => ?_) fun _ => OpKind.noConfusion
    exact ⟨hfd, hpath⟩
  · refine (leads_shift hI' Token.noConfusion).bind fun _ _ =>
      leads_dirfdPath hI fun fd path hfd hpath => (leads_effectType hI').bind fun eff _ =>
      leads_tagged hI rfl (fun _ _ _ => ?_) fun _ => OpKind.noConfusion
    exact ⟨hfd, hpath⟩
  · refine (leads_shift hI' Token.noConfusion).bind fun _ _ =>
      leads_dirfdPath hI fun fd path hfd hpath => leads_peek.bind fun t _ => ?_
    split
    · refine (leads_number hI').bind fun _ _ => (leads_metaVars hI').bind fun vars hvars =>
        leads_stoi.bind fun n hn => leads_pushOper hI ?_
      refine parsedOperation rfl (fun _ _ _ => ?_) (fun _ => OpKind.noConfusion) hvars
      exact ⟨hfd, hpath, fun _ => ⟨Int.natCast_nonneg n, Int.ofNat_le.mpr hn⟩⟩
    · refine leads_tagged hI rfl (fun failed _ hf => ?_) fun _ => OpKind.noConfusion
      -- the operation is marked before the words are read
      exact ⟨hfd, hpath, fun h => absurd ((hf rfl).symm.trans h) Bool.noConfusion⟩
  · refine (leads_shift hI' Token.noConfusion).bind fun _ _ => (leads_number hI').bind fun _ _ =>
      (leads_metaVars hI').bind fun vars hvars => leads_stoi.bind fun n hn => leads_pushOper hI ?_
    refine parsedOperation rfl (fun _ _ _ => ?_) (fun fd h => ?_) hvars
    · exact trivial
    · cases h
      exact hn
  · refine (leads_shift hI' Token.noConfusion).bind fun _ _ =>
      leads_dirfdPath hI fun fd path hfd hpath => leads_dirfdPath hI fun fd' path' hfd' hpath' =>
      leads_tagged hI rfl (fun _ _ _ => ?_) fun _ => OpKind.noConfusion
    exact ⟨⟨hfd, hfd'⟩, hpath, hpath'⟩
  · refine (leads_shift hI' Token.noConfusion).bind fun _ _ =>
      leads_dirfdPath hI fun fd path hfd hpath => leads_dirfdPath hI fun fd' path' hfd' hpath' =>
      leads_tagged hI rfl (fun _ _ _ => ?_) fun _ => OpKind.noConfusion
    exact ⟨⟨hfd, hfd'⟩, hpath, hpath'⟩
  · refine (leads_shift hI' Token.noConfusion).bind fun _ _ =>
      leads_dirfdPath hI fun fd path hfd hpath => (leads_identifier hI').bind fun target ht =>
      leads_tagged hI rfl (fun _ _ _ => ?_) fun _ => OpKind.noConfusion
    exact ⟨hfd, hpath, ht⟩
  · exact leads_fail

/-- An event of `event_type`. -/
theorem leads_eventType : Leads I eventType I fun e => e.eventType ≠ .MAIN ∧
    e.eventValue ≤ intMax ∧ (e.eventType = .EXT → e.eventValue = 0) := by
  refine leads_peek.bind fun t _ => ?_
  have hI' := hI.toSteady
  split
  · exact (leads_shift hI' Token.noConfusion).bind fun _ _ => (leads_number hI').bind fun _ _ =>
      leads_stoi.bind fun n hn => leads_pure ⟨EventType.noConfusion, hn, EventType.noConfusion⟩
  · exact (leads_shift hI' Token.noConfusion).bind fun _ _ => (leads_number hI').bind fun _ _ =>
      leads_stoi.bind fun n hn => leads_pure ⟨EventType.noConfusion, hn, EventType.noConfusion⟩
  · exact (leads_shift hI' Token.noConfusion).bind fun _ _ => (leads_number hI').bind fun _ _ =>
      leads_stoi.bind fun n hn => leads_pure ⟨EventType.noConfusion, hn, EventType.noConfusion⟩
  · exact (leads_shift hI' Token.noConfusion).bind fun _ _ =>
      leads_pure ⟨EventType.noConfusion, Nat.zero_le _, fun _ => rfl⟩
  · exact leads_fail

theorem leads_expr : Leads I expr (fun s => I s ∧ s.exprs ≠ []) fun _ => True := by
  refine leads_peek.bind fun t _ => ?_
  have hI' := hI.toSteady
  split
  · refine (leads_shift hI' Token.noConfusion).bind fun _ _ => (leads_number hI').bind fun _ _ =>
      (leads_eventType hI).bind fun event hevent => leads_nextIs.bind fun b _ => ?_
    obtain ⟨hmain, hval, hext⟩ := hevent
    split
    · refine (leads_metaVars hI').bind fun vars hvars => leads_stoi.bind fun n hn =>
        leads_pushExpr hI ⟨?_, fun _ => Expr.noConfusion, rfl⟩
      exact ⟨hn, hmain, hval, hext, fun _ => hvars⟩
    · refine leads_stoi.bind fun n hn => leads_pushExpr hI ⟨?_, fun _ => Expr.noConfusion, rfl⟩
      exact ⟨hn, hmain, hval, hext, fun h => absurd rfl h⟩
  · refine (leads_shift hI' Token.noConfusion).bind fun _ _ => (leads_number hI').bind fun _ _ =>
      (leads_number hI').bind fun _ _ => leads_stoi.bind fun n hn => leads_stoi.bind fun m hm =>
      leads_pushExpr hI ⟨?_, fun _ => Expr.noConfusion, rfl⟩
    exact ⟨hn, hm⟩
  · refine (leads_shift hI' Token.noConfusion).bind fun _ _ => (leads_number hI').bind fun _ _ =>
      leads_stoi.bind fun n hn => leads_pushExpr hI ⟨?_, fun _ => Expr.noConfusion, rfl⟩
    exact hn
  · refine (leads_shift hI' Token.noConfusion).bind fun _ _ => (leads_opId hI').bind fun id hid =>
      leads_peek.bind fun t _ => ?_
    split
    · refine (leads_shift hI' Token.noConfusion).bind fun _ _ =>
        (leads_metaVars hI').bind fun vars hvars => leads_pushExpr hI ⟨?_, fun e he => ?_, rfl⟩
      · exact ⟨fun event h => (by cases h), hvars⟩
      · cases he
        exact hid
    · refine (leads_number hI').bind fun _ _ => (leads_shift hI' Token.noConfusion).bind fun _ _ =>
        (leads_metaVars hI').bind fun vars hvars => leads_stoi.bind fun n hn =>
        leads_pushExpr hI ⟨?_, fun e he => ?_, rfl⟩
      · refine ⟨fun event h => ?_, hvars⟩
        cases h
        exact hn
      · cases he
        exact hid
  · exact leads_fail

/-! ## 6. Definitions -/

theorem leads_operations : Leads I operations I fun _ => True :=
  (leads_list (leads_oper hI) fun _ h => h).mono (fun _ h => h) (fun _ h => h.1) fun _ h => h

theorem leads_addExecOp {id : String} (hid : IsOpIdText id) :
    Leads I (fun s => addExecOp ⟨id, s.opers⟩ s) I fun _ => True := by
  intro s a s' hs h
  cases h
  exact ⟨hI.execOp hs ⟨hid, (hI.sound hs).opers⟩, trivial⟩

theorem leads_opDef : Leads I opDef I fun _ => True := by
  have hI' := hI.toSteady
  refine (leads_shift hI' Token.noConfusion).bind fun _ _ => (leads_opId hI').bind fun id hid =>
    (leads_shift hI' Token.noConfusion).bind fun _ _ => leads_nextIs.bind fun b _ => ?_
  split
  · refine (leads_shift hI' Token.noConfusion).bind fun _ _ s a s' hs h => ?_
    cases h
    exact ⟨hI.execOp hs ⟨hid, fun _ h => absurd h List.not_mem_nil⟩, trivial⟩
  · exact (leads_operations hI).bind fun _ _ => (leads_shift hI' Token.noConfusion).bind fun _ _ =>
      leads_addExecOp hI hid

theorem leads_opDefs : Leads I opDefs I fun _ => True :=
  (leads_list (leads_opDef hI) fun _ h => h).mono (fun _ h => h) (fun _ h => h.1) fun _ h => h

/-- The expressions of a block: there is one. -/
theorem leads_exprs : Leads I exprs (fun s => I s ∧ s.exprs ≠ []) fun _ => True :=
  (leads_list (leads_expr hI) fun _ h => h.1).mono (fun _ h => h) (fun _ h => h.1) fun _ h => h

/-- The property of a state that has expressions. -/
theorem steady_exprs : Steady fun s => I s ∧ s.exprs ≠ [] where
  sound h := hI.sound h.1
  next h hts ht := ⟨hI.next h.1 hts ht, h.2⟩

theorem leads_addBlock {id : Nat} (hid : id ≤ intMax) (type : BlockType) :
    Leads (fun s => I s ∧ s.exprs ≠ []) (fun s => addBlock ⟨id, type, s.exprs⟩ s) I
      fun _ => True := by
  intro s a s' hs h
  cases h
  refine ⟨hI.block hs.1 ⟨hid, ?_, (hI.sound hs.1).exprs⟩, trivial⟩
  simp [Block.isEmptyMain, hs.2]

theorem leads_blockDef : Leads I blockDef I fun _ => True := by
  have hI' := hI.toSteady
  have hE := steady_exprs hI
  refine (leads_shift hI' Token.noConfusion).bind fun _ _ => leads_nextIs.bind fun b _ => ?_
  split
  · exact (leads_shift hI' Token.noConfusion).bind fun _ _ => (leads_number hI').bind fun _ _ =>
      (leads_exprs hI).bind fun _ _ => (leads_shift hE Token.noConfusion).bind fun _ _ =>
      leads_stoi.bind fun id hid => leads_addBlock hI hid .MAIN
  · refine (leads_number hI').bind fun _ _ => leads_nextIs.bind fun b _ => ?_
    split
    · refine (leads_shift hI' Token.noConfusion).bind fun _ _ => leads_stoi.bind fun id hid => ?_
      intro s a s' hs h
      cases h
      exact ⟨hI.block hs ⟨hid, rfl, fun _ h => absurd h List.not_mem_nil⟩, trivial⟩
    · exact (leads_exprs hI).bind fun _ _ => (leads_shift hE Token.noConfusion).bind fun _ _ =>
        leads_stoi.bind fun id hid => leads_addBlock hI hid .REG

/-- **The blocks**: nothing is left behind the last one. -/
theorem leads_blockDefs : Leads I blockDefs (fun s => I s ∧ s.toks = []) fun _ => True :=
  (leads_list (leads_blockDef hI) fun _ h => h).mono (fun _ h => h)
    (fun _ h => ⟨h.1, by simpa using h.2⟩) fun _ h => h

theorem leads_stats : Leads I stats I fun _ => True := by
  have hI' := hI.toSteady
  have hstat : Leads I stat I fun _ => True :=
    (leads_shift hI' Token.noConfusion).bind fun _ _ => (leads_identifier hI').bind fun _ _ =>
      (leads_shift hI' Token.noConfusion).bind fun _ _ => (leads_number hI').bind fun _ _ =>
      leads_pure trivial
  exact (leads_list hstat fun _ h => h).mono (fun _ h => h) (fun _ h => h.1) fun _ h => h

end Actions

/-! ## 7. Programs -/

theorem Sound.next {s : ParserState} (h : Sound s) {t : Token} {ts : List Token}
    (hts : s.toks = t :: ts) : Sound { s with toks := ts } :=
  ⟨fun t' ht' => h.toks t' (by rw [hts]; exact List.mem_cons_of_mem _ ht'), h.opers, h.exprs⟩

theorem Sound.pushOper {s : ParserState} (h : Sound s) {op : Operation} (hop : ParsedOperation op) :
    Sound { s with opers := s.opers ++ [op] } :=
  ⟨h.toks, List.forall_mem_append.mpr ⟨h.opers, List.forall_mem_singleton.mpr hop⟩, h.exprs⟩

theorem Sound.pushExpr {s : ParserState} (h : Sound s) {e : Expr} (he : ParsedExpr e) :
    Sound { s with exprs := s.exprs ++ [e] } :=
  ⟨h.toks, h.opers, List.forall_mem_append.mpr ⟨h.exprs, List.forall_mem_singleton.mpr he⟩⟩

/-- The trace that is built holds what the actions build. -/
structure Building (s : ParserState) : Prop extends Sound s where
  execOps : ∀ x ∈ s.traceF.execOps, ParsedExecOp x
  blocks : ∀ b ∈ s.traceF.blocks, ParsedBlock b

theorem building_next {s : ParserState} (h : Building s) {t : Token} {ts : List Token}
    (hts : s.toks = t :: ts) : Building { s with toks := ts } :=
  ⟨h.toSound.next hts, h.execOps, h.blocks⟩

theorem built_building : Built Building where
  sound h := h.toSound
  next h hts _ := building_next h hts
  oper h hop := ⟨h.toSound.pushOper hop, h.execOps, h.blocks⟩
  expr h he := ⟨h.toSound.pushExpr he, h.execOps, h.blocks⟩
  execOp h hx := ⟨⟨h.toks, fun _ h => absurd h List.not_mem_nil, h.exprs⟩,
    List.forall_mem_append.mpr ⟨h.execOps, List.forall_mem_singleton.mpr hx⟩, h.blocks⟩
  block h hb := ⟨⟨h.toks, h.opers, fun _ h => absurd h List.not_mem_nil⟩, h.execOps,
    List.forall_mem_append.mpr ⟨h.blocks, List.forall_mem_singleton.mpr hb⟩⟩

theorem leads_pid : Leads Building (shift .pid) Building fun _ => True := by
  intro s a s' hs h
  unfold shift at h
  split at h
  · rename_i t' ts hts
    split at h
    · cases h
      exact ⟨building_next hs hts, trivial⟩
    · cases h
  · cases h

theorem leads_setHeader {threadId : Nat} {cwd : String} (hid : threadId ≤ intMax)
    (hcwd : IsIdentifier cwd) :
    Leads Building (setHeader threadId cwd) (fun s => ParsedTrace s.traceF) fun _ => True := by
  intro s a s' hs h
  cases h
  exact ⟨⟨hid, hcwd, hs.execOps, hs.blocks⟩, trivial⟩

theorem leads_program : Leads Building program (fun s => ParsedTrace s.traceF) fun _ => True := by
  have hI := built_building
  have hI' := hI.toSteady
  refine (leads_stats hI).bind fun _ _ => leads_pid.bind fun _ _ =>
    (leads_shift hI' Token.noConfusion).bind fun _ _ => (leads_number hI').bind fun text _ =>
    (leads_shift hI' Token.noConfusion).bind fun _ _ =>
    (leads_shift hI' Token.noConfusion).bind fun _ _ => (leads_identifier hI').bind fun cwd hcwd =>
    leads_peek.bind fun t _ => ?_
  split
  · exact leads_stoi.bind fun n hn => leads_setHeader hn hcwd
  · refine (leads_opDefs hI).bind fun _ _ => (leads_blockDefs hI).bind fun _ _ => ?_
    exact (leads_stoi.bind fun n hn => leads_setHeader hn hcwd).mono (fun _ h => h.1)
      (fun _ h => h) fun _ h => h

theorem map_eq_ok {α β : Type} {x : Except ParseError α} {f : α → β} {b : β}
    (h : x.map f = .ok b) : ∃ a, x = .ok a ∧ f a = b := by
  cases x with
  | error e => cases h
  | ok a => exact ⟨a, rfl, Except.ok.inj h⟩

/-- Nothing is wrong with lists that are empty. -/
theorem sound_start {cs : List Char} {tr : Trace} : Sound ⟨lex cs, tr, [], []⟩ :=
  ⟨fun _ ht => lexed_of_mem_lex ht, fun _ h => absurd h List.not_mem_nil,
    fun _ h => absurd h List.not_mem_nil⟩

/-- **What the parser builds.** -/
theorem parsedTrace_of_parse {text : String} {trace : Trace} (h : parse text = .ok trace) :
    ParsedTrace trace := by
  obtain ⟨r, hr, rfl⟩ := map_eq_ok h
  have hstart : Building ⟨lex text.toList, ⟨0, "", [], []⟩, [], []⟩ :=
    ⟨sound_start, fun _ h => absurd h List.not_mem_nil, fun _ h => absurd h List.not_mem_nil⟩
  exact (leads_program _ _ _ hstart hr).1

end TraceParser

end Fsracer

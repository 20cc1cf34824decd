/-
  File:      Fsracer/TraceLexer.lean
  Subject:   THE LEXER OF TRACE FILES (tools/fsracer/TraceLexer.l): the rules of the flex
             specification, in its order, for the scanner of `Lib/Munch.lean`.

  A token keeps its text where the grammar reads it. Section 2 says what the scanner makes of
  the pieces of a trace file: white space vanishes, and a word -- a text that could be an
  identifier or a number, in front of white space or a colon -- is one token.

  A text has no NUL characters: the source keeps the text of a token only up to the first one.
-/
import Mathlib
import Fsracer.Lib.Munch
import Fsracer.Trace

namespace Fsracer

open Munch

/-! ## 1. The rules -/

/-- The tokens; the end of the list stands for `END`. -/
inductive Token where
  | pid | cwd | colon | exclamation
  | op | do_ | done | consumed | produced | expunged
  | hpath | hpathSym | newFd | delFd | rename | symlink | atFdcwd
  | beginBlock | endBlock | main | newEvent | link | trigger | submitOp | sync | async
  | S | M | W | external
  | opId (text : String)
  | number (text : String)
  | identifier (text : String)
  | error (text : String)
  deriving DecidableEq, Repr

namespace TraceLexer

/-- `[ \t\r ]`. -/
def isBlank (c : Char) : Bool := c = ' ' || c = '\t' || c = '\r'

/-- `[a-zA-Z\/._\-]`. -/
def isIdentStart (c : Char) : Bool := c.isAlpha || c = '/' || c = '.' || c = '_' || c = '-'

/-- `[^ :\n]`. -/
def isIdentChar (c : Char) : Bool := c ≠ ' ' && c ≠ ':' && c ≠ '\n'

/-- `[a-zA-Z\/._\-][^ :\n]*`. -/
def scanIdentifier : List Char → Nat
  | [] => 0
  | c :: cs => if isIdentStart c then 1 + span isIdentChar cs else 0

/-- `sync_[0-9]+`. -/
def scanSync (cs : List Char) : Nat :=
  if "sync_".toList <+: cs ∧ span Char.isDigit (cs.drop 5) ≠ 0 then
    5 + span Char.isDigit (cs.drop 5)
  else 0

/-- `[a]?sync_[0-9]+`. -/
def scanOpId : List Char → Nat
  | [] => 0
  | c :: cs =>
      if c = 'a' then
        if scanSync cs = 0 then 0 else 1 + scanSync cs
      else scanSync (c :: cs)

/-- The rule `.`. -/
def scanAny : List Char → Nat
  | [] => 0
  | c :: _ => if c = '\n' then 0 else 1

/-- The rules for fixed words, in the order of the specification. -/
def keywords : List (String × Token) := [
  ("Operation", .op), ("do", .do_), ("done", .done), ("consumed", .consumed),
  ("produced", .produced), ("expunged", .expunged), ("hpath", .hpath), ("hpathsym", .hpathSym),
  ("newFd", .newFd), ("delFd", .delFd), ("rename", .rename), ("symlink", .symlink),
  ("AT_FDCWD", .atFdcwd), ("Begin", .beginBlock), ("End", .endBlock), ("MAIN", .main),
  ("newEvent", .newEvent), ("link", .link), ("trigger", .trigger), ("submitOp", .submitOp),
  ("SYNC", .sync), ("ASYNC", .async), ("S", .S), ("M", .M), ("W", .W), ("EXTERNAL", .external)]

/-- "!PID", as a list. -/
def pidText : List Char := ['!', 'P', 'I', 'D']

/-- "!Working Directory", as a list. -/
def cwdText : List Char :=
  ['!', 'W', 'o', 'r', 'k', 'i', 'n', 'g', ' ', 'D', 'i', 'r', 'e', 'c', 't', 'o', 'r', 'y']

/-- White space, and the tokens that are not words. -/
def signRules : List (Rule Char Token) := [
  ⟨span isBlank, none⟩,
  ⟨span (· = '\n'), none⟩,
  ⟨lit pidText, some fun _ => .pid⟩,
  ⟨lit cwdText, some fun _ => .cwd⟩,
  ⟨lit [':'], some fun _ => .colon⟩,
  ⟨lit ['!'], some fun _ => .exclamation⟩]

/-- The rule of a fixed word. -/
def keywordRule (k : String × Token) : Rule Char Token := ⟨lit k.1.toList, some fun _ => k.2⟩

/-- The rules for texts that vary. -/
def textRules : List (Rule Char Token) := [
  ⟨scanOpId, some fun text => .opId (String.ofList text)⟩,
  ⟨span Char.isDigit, some fun text => .number (String.ofList text)⟩,
  ⟨scanIdentifier, some fun text => .identifier (String.ofList text)⟩,
  ⟨scanAny, some fun text => .error (String.ofList text)⟩]

/-- The specification. -/
def rules : List (Rule Char Token) := signRules ++ keywords.map keywordRule ++ textRules

/-- The tokens of a text. -/
@[irreducible] def lex (cs : List Char) : List Token := Munch.lex rules cs

/-! ## 2. White space, signs and words -/

/-- The characters that end a word. -/
def IsDelimiter (d : Char) : Prop := d = ' ' ∨ d = ':' ∨ d = '\n'

/-- A text that the rules for words match to its end. -/
structure IsWord (w : List Char) : Prop where
  chars : ∀ c ∈ w, isIdentChar c
  start : (∃ c cs, w = c :: cs ∧ isIdentStart c) ∨ (w ≠ [] ∧ ∀ c ∈ w, c.isDigit)

/-- The token of a word. -/
def wordToken (w : List Char) : Token :=
  match keywords.find? fun k => k.1.toList = w with
  | some k => k.2
  | none =>
      if scanOpId w = w.length then .opId (String.ofList w)
      else if w.all Char.isDigit then .number (String.ofList w)
      else .identifier (String.ofList w)

example : lex "!PID: 12\nhpathsym AT_FDCWD /a:b !link".toList =
    [.pid, .colon, .number "12", .hpathSym, .atFdcwd, .identifier "/a", .colon, .identifier "b",
      .exclamation, .link] := by decide +kernel

theorem isIdentChar_delimiter {d : Char} (h : IsDelimiter d) : isIdentChar d = false := by
  rcases h with rfl | rfl | rfl <;> decide

theorem isDigit_delimiter {d : Char} (h : IsDelimiter d) : d.isDigit = false := by
  rcases h with rfl | rfl | rfl <;> decide

theorem scanIdentifier_append {w rest : List Char} {d : Char} (hd : IsDelimiter d) (hw : w ≠ []) :
    scanIdentifier (w ++ d :: rest) = scanIdentifier w := by
  cases w with
  | nil => exact absurd rfl hw
  | cons c w =>
      rw [List.cons_append, scanIdentifier, scanIdentifier,
        span_append (isIdentChar_delimiter hd)]

theorem scanSync_append {w rest : List Char} {d : Char} (hd : IsDelimiter d) :
    scanSync (w ++ d :: rest) = scanSync w := by
  have hs : "sync_".toList <+: w ++ d :: rest ↔ "sync_".toList <+: w :=
    isPrefix_append_iff (by rcases hd with rfl | rfl | rfl <;> decide)
  unfold scanSync
  by_cases h : "sync_".toList <+: w
  · have hdrop : (w ++ d :: rest).drop 5 = w.drop 5 ++ d :: rest :=
      List.drop_append_of_le_length h.length_le
    rw [hdrop, span_append (isDigit_delimiter hd)]
    simp only [hs]
  · rw [if_neg fun hc => h (hs.mp hc.1), if_neg fun hc => h hc.1]

theorem scanOpId_append {w rest : List Char} {d : Char} (hd : IsDelimiter d) (hw : w ≠ []) :
    scanOpId (w ++ d :: rest) = scanOpId w := by
  cases w with
  | nil => exact absurd rfl hw
  | cons c w =>
      rw [List.cons_append, scanOpId, scanOpId, scanSync_append hd, ← List.cons_append,
        scanSync_append hd]

theorem scanSync_le (w : List Char) : scanSync w ≤ w.length := by
  unfold scanSync
  split
  · rename_i h
    have h1 := span_le Char.isDigit (w.drop 5)
    have h2 : 5 ≤ w.length := h.1.length_le
    rw [List.length_drop] at h1
    omega
  · exact Nat.zero_le _

theorem scanOpId_le (w : List Char) : scanOpId w ≤ w.length := by
  cases w with
  | nil => exact le_rfl
  | cons c w =>
      have h1 := scanSync_le w
      have h2 := scanSync_le (c :: w)
      rw [scanOpId]
      rw [List.length_cons] at h2 ⊢
      split
      · split <;> omega
      · exact h2

/-- The keywords hold no delimiter. -/
theorem delimiter_not_mem_keyword {d : Char} (hd : IsDelimiter d) {k : String × Token}
    (hk : k ∈ keywords) : d ∉ k.1.toList := by
  have h : ∀ k ∈ keywords, ' ' ∉ k.1.toList ∧ ':' ∉ k.1.toList ∧ '\n' ∉ k.1.toList := by
    decide +kernel
  obtain ⟨h1, h2, h3⟩ := h k hk
  rcases hd with rfl | rfl | rfl
  · exact h1
  · exact h2
  · exact h3

/-- The first character of a word is that of an identifier or a digit. -/
theorem IsWord.head {w : List Char} (h : IsWord w) :
    ∃ c cs, w = c :: cs ∧ (isIdentStart c = true ∨ c.isDigit = true) := by
  rcases h.start with ⟨c, cs, rfl, hc⟩ | ⟨hw, hd⟩
  · exact ⟨c, cs, rfl, .inl hc⟩
  · cases w with
    | nil => exact absurd rfl hw
    | cons c cs => exact ⟨c, cs, rfl, .inr (hd c List.mem_cons_self)⟩

theorem IsWord.ne_nil {w : List Char} (h : IsWord w) : w ≠ [] := by
  obtain ⟨c, cs, rfl, _⟩ := h.head
  exact List.cons_ne_nil c cs

/-- White space and signs do not start a word. -/
theorem start_ne {c s : Char} (h : isIdentStart c = true ∨ c.isDigit = true)
    (hs : s ∈ [' ', '\t', '\r', '\n', ':', '!']) : c ≠ s := by
  intro he
  subst he
  simp only [List.mem_cons, List.not_mem_nil, or_false] at hs
  rcases hs with rfl | rfl | rfl | rfl | rfl | rfl <;> revert h <;> decide

/-- The rules for white space and signs do not match a word. -/
theorem signRules_word {w rest : List Char} (h : IsWord w) {r : Rule Char Token}
    (hr : r ∈ signRules) : r.scan (w ++ rest) = 0 := by
  obtain ⟨c, cs, rfl, hc⟩ := h.head
  have hne : ∀ s ∈ [' ', '\t', '\r', '\n', ':', '!'], c ≠ s := fun s hs => start_ne hc hs
  simp only [List.mem_cons, List.not_mem_nil, or_false, forall_eq_or_imp, forall_eq] at hne
  obtain ⟨h1, h2, h3, h4, h5, h6⟩ := hne
  simp only [signRules, List.mem_cons, List.not_mem_nil, or_false] at hr
  rw [List.cons_append]
  rcases hr with rfl | rfl | rfl | rfl | rfl | rfl
  · exact span_cons_false (by simp [isBlank, h1, h2, h3])
  · exact span_cons_false (by simpa using h4)
  · exact lit_cons_ne h6.symm
  · exact lit_cons_ne h6.symm
  · exact lit_cons_ne h5.symm
  · exact lit_cons_ne h6.symm

theorem scanIdentifier_le (w : List Char) : scanIdentifier w ≤ w.length := by
  cases w with
  | nil => exact le_rfl
  | cons c w =>
      have h := span_le isIdentChar w
      rw [scanIdentifier, List.length_cons]
      split <;> omega

/-- An identifier is matched to its end. -/
theorem scanIdentifier_word {w : List Char} (h : IsWord w) (hn : ¬ ∀ c ∈ w, c.isDigit) :
    scanIdentifier w = w.length := by
  obtain ⟨c, cs, rfl, hc⟩ := h.start.resolve_right fun h => hn h.2
  have hs : span isIdentChar cs = cs.length :=
    span_eq_length_iff.mpr fun c' hc' => h.chars c' (List.mem_cons_of_mem _ hc')
  rw [scanIdentifier, if_pos hc, hs, List.length_cons, Nat.add_comm]

theorem scanAny_le (w : List Char) : scanAny w ≤ 1 := by
  cases w with
  | nil => exact Nat.zero_le 1
  | cons c w =>
      rw [scanAny]
      split <;> omega

/-- No rule for texts reaches over the end of a word. -/
theorem textRules_word {w rest : List Char} {d : Char} (h : IsWord w) (hd : IsDelimiter d)
    {r : Rule Char Token} (hr : r ∈ textRules) : r.scan (w ++ d :: rest) ≤ w.length := by
  simp only [textRules, List.mem_cons, List.not_mem_nil, or_false] at hr
  rcases hr with rfl | rfl | rfl | rfl
  · exact (scanOpId_append hd h.ne_nil).trans_le (scanOpId_le w)
  · exact (span_append (isDigit_delimiter hd)).trans_le (span_le _ w)
  · exact (scanIdentifier_append hd h.ne_nil).trans_le (scanIdentifier_le w)
  · exact (scanAny_le _).trans (List.length_pos_iff.mpr h.ne_nil)

/-- The rules in front of the texts match no more than a part of a word that is no keyword. -/
theorem fixedRules_word {w rest : List Char} {d : Char} (h : IsWord w) (hd : IsDelimiter d)
    {ks : List (String × Token)} (hks : ks ⊆ keywords) (hk : ∀ k ∈ ks, k.1.toList ≠ w)
    {r : Rule Char Token} (hr : r ∈ signRules ++ ks.map keywordRule) :
    r.scan (w ++ d :: rest) < w.length := by
  have hpos : 0 < w.length := List.length_pos_iff.mpr h.ne_nil
  rcases List.mem_append.mp hr with hr | hr
  · rw [signRules_word h hr]
    exact hpos
  · obtain ⟨k, hm, rfl⟩ := List.mem_map.mp hr
    exact (lit_append (delimiter_not_mem_keyword hd (hks hm))).trans_lt (lit_lt (hk k hm) h.ne_nil)

/-- A keyword in front of a delimiter. -/
theorem munch_keyword {w rest : List Char} {d : Char} (h : IsWord w) (hd : IsDelimiter d)
    {k : String × Token} {front back : List (String × Token)} (hsplit : keywords = front ++ k :: back)
    (hk : k.1.toList = w) (hfront : ∀ k' ∈ front, k'.1.toList ≠ w) :
    munch rules (w ++ d :: rest) = (w.length, some fun _ => k.2) := by
  have hrules : rules = (signRules ++ front.map keywordRule) ++
      keywordRule k :: (back.map keywordRule ++ textRules) := by
    rw [rules, hsplit, List.map_append, List.map_cons]
    simp only [List.append_assoc, List.cons_append]
  have hmem : ∀ k' ∈ k :: back, k' ∈ keywords := fun k' hk' => by
    rw [hsplit]
    exact List.mem_append_right _ hk'
  have hscan : (keywordRule k).scan (w ++ d :: rest) = w.length := by
    have hl : lit k.1.toList (w ++ d :: rest) = lit k.1.toList w :=
      lit_append (delimiter_not_mem_keyword hd (hmem k List.mem_cons_self))
    rw [hk, lit_self] at hl
    rw [← hl, ← hk]
    rfl
  rw [hrules]
  refine munch_eq hscan (fun r hr => ?_) fun r hr => ?_
  · exact fixedRules_word h hd (by rw [hsplit]; exact List.subset_append_left _ _) hfront hr
  · rcases List.mem_append.mp hr with hr | hr
    · obtain ⟨k', hk', rfl⟩ := List.mem_map.mp hr
      exact (lit_append (delimiter_not_mem_keyword hd
        (hmem k' (List.mem_cons_of_mem _ hk')))).trans_le (lit_le _ w)
    · exact textRules_word h hd hr

/-- A word that is no keyword goes to the first text rule that matches all of it. -/
theorem munch_text {w rest : List Char} {d : Char} (h : IsWord w) (hd : IsDelimiter d)
    (hk : ∀ k ∈ keywords, k.1.toList ≠ w) {r : Rule Char Token} (front : List (Rule Char Token))
    {back : List (Rule Char Token)} (hsplit : textRules = front ++ r :: back)
    (hscan : r.scan (w ++ d :: rest) = w.length)
    (hfront : ∀ r' ∈ front, r'.scan (w ++ d :: rest) < w.length) :
    munch rules (w ++ d :: rest) = (w.length, r.action) := by
  rw [rules, hsplit, ← List.append_assoc]
  refine munch_eq hscan (fun r' hr' => ?_) fun r' hr' => textRules_word h hd ?_
  · rcases List.mem_append.mp hr' with hr' | hr'
    · exact fixedRules_word h hd (List.Subset.refl keywords) hk hr'
    · exact hfront r' hr'
  · rw [hsplit]
    exact List.mem_append_right _ (List.mem_cons_of_mem _ hr')

/-- The scanner after a match that makes a token. -/
theorem lex_token {w rest : List Char} (action : List Char → Token) (hw : w ≠ [])
    (h : munch rules (w ++ rest) = (w.length, some action)) :
    lex (w ++ rest) = action w :: lex rest := by
  unfold lex
  rw [lex_append hw h]
  simp only [Option.map_some, Option.toList_some, List.singleton_append]

/-- **A word in front of a delimiter is one token.** -/
theorem lex_word {w rest : List Char} {d : Char} (h : IsWord w) (hd : IsDelimiter d) :
    lex (w ++ d :: rest) = wordToken w :: lex (d :: rest) := by
  unfold wordToken
  cases hf : keywords.find? fun k => k.1.toList = w with
  | some k =>
      obtain ⟨hk, front, back, hsplit, hfront⟩ := List.find?_eq_some_iff_append.mp hf
      exact lex_token (fun _ => k.2) h.ne_nil (munch_keyword h hd hsplit (of_decide_eq_true hk)
        fun k' hk' => by simpa using hfront k' hk')
  | none =>
      have hk : ∀ k ∈ keywords, k.1.toList ≠ w := by simpa using List.find?_eq_none.mp hf
      have hop : scanOpId (w ++ d :: rest) = scanOpId w := scanOpId_append hd h.ne_nil
      have hnum : span Char.isDigit (w ++ d :: rest) = span Char.isDigit w :=
        span_append (isDigit_delimiter hd)
      by_cases h1 : scanOpId w = w.length
      · rw [if_pos h1]
        exact lex_token _ h.ne_nil (munch_text h hd hk [] rfl (hop.trans h1) (by simp))
      · have hlt : scanOpId (w ++ d :: rest) < w.length :=
          hop.trans_lt (lt_of_le_of_ne (scanOpId_le w) h1)
        rw [if_neg h1]
        by_cases h2 : w.all Char.isDigit
        · rw [if_pos h2]
          refine lex_token _ h.ne_nil (munch_text h hd hk [_] rfl ?_ (by simpa using hlt))
          exact hnum.trans (span_eq_length_iff.mpr (List.all_eq_true.mp h2))
        · rw [if_neg h2]
          have hlt2 : span Char.isDigit (w ++ d :: rest) < w.length := hnum.trans_lt <|
            lt_of_le_of_ne (span_le _ w) fun he => h2 (List.all_eq_true.mpr (span_eq_length_iff.mp he))
          refine lex_token _ h.ne_nil (munch_text h hd hk [_, _] rfl ?_
            (by simpa using ⟨hlt, hlt2⟩))
          exact (scanIdentifier_append hd h.ne_nil).trans
            (scanIdentifier_word h fun hall => h2 (List.all_eq_true.mpr hall))

/-- The signs and white space. -/
def IsSign (c : Char) : Prop := c ∈ [' ', '\t', '\r', '\n', ':', '!']

instance : DecidablePred IsSign := fun c => inferInstanceAs (Decidable (c ∈ _))

/-- A sign starts no keyword and no text. -/
theorem wordRules_sign {c : Char} (hc : IsSign c) (cs : List Char) {r : Rule Char Token}
    (hr : r ∈ keywords.map keywordRule ++ textRules) : r.scan (c :: cs) ≤ 1 := by
  have hstart : ¬ (isIdentStart c = true ∨ c.isDigit = true) := fun h => start_ne h hc rfl
  rcases List.mem_append.mp hr with hr | hr
  · obtain ⟨k, hk, rfl⟩ := List.mem_map.mp hr
    have hall : ∀ k ∈ keywords, k.1.toList.head?.any isIdentStart = true := by decide +kernel
    have hhead := hall k hk
    have hscan : (keywordRule k).scan (c :: cs) = lit k.1.toList (c :: cs) := rfl
    cases hs : k.1.toList with
    | nil => simp [hs] at hhead
    | cons a s =>
        rw [hs] at hhead
        have hne : a ≠ c := fun he => hstart (.inl (he ▸ hhead))
        rw [hscan, hs, lit_cons_ne hne]
        exact Nat.zero_le 1
  · have hs : scanSync (c :: cs) = 0 := by
      refine if_neg fun h => hstart (.inl ?_)
      rw [← (List.cons_prefix_cons.mp h.1).1]
      decide
    have ha : c ≠ 'a' := fun he => hstart (.inl (by rw [he]; decide))
    simp only [textRules, List.mem_cons, List.not_mem_nil, or_false] at hr
    rcases hr with rfl | rfl | rfl | rfl
    · show scanOpId (c :: cs) ≤ 1
      rw [scanOpId, if_neg ha, hs]
      exact Nat.zero_le 1
    · show span Char.isDigit (c :: cs) ≤ 1
      rw [span_cons_false (Bool.eq_false_iff.mpr fun h => hstart (.inr h))]
      exact Nat.zero_le 1
    · show scanIdentifier (c :: cs) ≤ 1
      rw [scanIdentifier, if_neg fun h => hstart (.inl h)]
      exact Nat.zero_le 1
    · exact scanAny_le (c :: cs)

/-- The rule for a sign wins over the words. -/
theorem munch_sign {c : Char} (hc : IsSign c) {cs : List Char} {r : Rule Char Token} {n : Nat}
    (front : List (Rule Char Token)) {back : List (Rule Char Token)}
    (hsplit : signRules = front ++ r :: back)
    (hscan : r.scan (c :: cs) = n) (hn : 0 < n) (hfront : ∀ r' ∈ front, r'.scan (c :: cs) < n)
    (hback : ∀ r' ∈ back, r'.scan (c :: cs) ≤ n) : munch rules (c :: cs) = (n, r.action) := by
  have hrules : rules = front ++ r :: (back ++ (keywords.map keywordRule ++ textRules)) := by
    rw [rules, hsplit]
    simp only [List.append_assoc, List.cons_append]
  rw [hrules]
  refine munch_eq hscan hfront fun r' hr' => ?_
  rcases List.mem_append.mp hr' with hr' | hr'
  · exact hback r' hr'
  · exact (wordRules_sign hc cs hr').trans hn

/-- The literal rules for signs do not match white space. -/
theorem literalRules_space {c : Char} (h1 : c ≠ ':') (h2 : c ≠ '!') (cs : List Char)
    {r : Rule Char Token} (hr : r ∈ signRules.drop 2) : r.scan (c :: cs) = 0 := by
  simp only [signRules, List.drop_succ_cons, List.drop_zero, List.mem_cons, List.not_mem_nil,
    or_false] at hr
  rcases hr with rfl | rfl | rfl | rfl
  · exact lit_cons_ne h2.symm
  · exact lit_cons_ne h2.symm
  · exact lit_cons_ne h1.symm
  · exact lit_cons_ne h2.symm

theorem lex_blank (rest : List Char) : lex (' ' :: rest) = lex rest := by
  unfold lex
  refine lex_skip (p := isBlank) (fun c cs hc => ?_) rfl rest
  have hcs : c = ' ' ∨ c = '\t' ∨ c = '\r' := by
    simpa [isBlank, or_assoc] using hc
  have hpos : 0 < span isBlank (c :: cs) := by simp [span, hc]
  have hne : IsSign c ∧ c ≠ '\n' ∧ c ≠ ':' ∧ c ≠ '!' := by
    rcases hcs with rfl | rfl | rfl <;> decide
  refine munch_sign hne.1 [] rfl rfl hpos (by simp) fun r hr => ?_
  rcases List.mem_cons.mp hr with rfl | hr
  · show span (· = '\n') (c :: cs) ≤ _
    rw [span_cons_false (by simpa using hne.2.1)]
    exact Nat.zero_le _
  · rw [literalRules_space hne.2.2.1 hne.2.2.2 cs hr]
    exact Nat.zero_le _

theorem lex_newline (rest : List Char) : lex ('\n' :: rest) = lex rest := by
  unfold lex
  refine lex_skip (p := (· = '\n')) (fun c cs hc => ?_) rfl rest
  have hc : c = '\n' := by simpa using hc
  subst hc
  have hpos : 0 < span (· = '\n') ('\n' :: cs) := by simp [span]
  refine munch_sign (by decide) [_] rfl rfl hpos (fun r hr => ?_) fun r hr => ?_
  · rw [List.mem_singleton.mp hr]
    exact (span_cons_false (by decide)).trans_lt hpos
  · rw [literalRules_space (by decide) (by decide) cs hr]
    exact Nat.zero_le _

/-- The white-space rules do not match the other signs. -/
theorem spaceRules_sign {c : Char} (h1 : isBlank c = false) (h2 : c ≠ '\n') (cs : List Char)
    {r : Rule Char Token} (hr : r ∈ signRules.take 2) : r.scan (c :: cs) = 0 := by
  simp only [signRules, List.take_succ_cons, List.take_zero, List.mem_cons, List.not_mem_nil,
    or_false] at hr
  rcases hr with rfl | rfl
  · exact span_cons_false h1
  · exact span_cons_false (by simpa using h2)

theorem lex_colon (rest : List Char) : lex (':' :: rest) = .colon :: lex rest := by
  refine lex_token (w := [':']) (fun _ => .colon) (by simp) ?_
  have h1 : lit pidText (':' :: rest) = 0 := lit_cons_ne (by decide)
  have h2 : lit cwdText (':' :: rest) = 0 := lit_cons_ne (by decide)
  have h3 : lit ['!'] (':' :: rest) = 0 := lit_cons_ne (by decide)
  refine munch_sign (by decide) (signRules.take 4) rfl (lit_append_self [':'] rest)
    Nat.one_pos (fun r hr => ?_) fun r hr => ?_
  · have hr : r ∈ signRules.take 2 ++ (signRules.take 4).drop 2 := hr
    rcases List.mem_append.mp hr with hr | hr
    · rw [spaceRules_sign (by decide) (by decide) _ hr]
      exact Nat.one_pos
    · simp only [signRules, List.take_succ_cons, List.take_zero, List.drop_succ_cons,
        List.drop_zero, List.mem_cons, List.not_mem_nil, or_false] at hr
      rcases hr with rfl | rfl
      · exact h1.trans_lt Nat.one_pos
      · exact h2.trans_lt Nat.one_pos
  · rw [List.mem_singleton.mp hr]
    exact h3.trans_le (Nat.zero_le 1)

/-- A `!` that starts none of the longer signs. -/
theorem lex_exclamation {rest : List Char} (hP : ¬ pidText <+: '!' :: rest)
    (hW : ¬ cwdText <+: '!' :: rest) : lex ('!' :: rest) = .exclamation :: lex rest := by
  refine lex_token (w := ['!']) (fun _ => .exclamation) (by simp) ?_
  have h1 : lit pidText ('!' :: rest) = 0 := if_neg hP
  have h2 : lit cwdText ('!' :: rest) = 0 := if_neg hW
  have h3 : lit [':'] ('!' :: rest) = 0 := lit_cons_ne (by decide)
  refine munch_sign (by decide) (signRules.take 5) rfl (lit_append_self ['!'] rest)
    Nat.one_pos (fun r hr => ?_) fun r hr => absurd hr (List.not_mem_nil)
  have hr : r ∈ signRules.take 2 ++ (signRules.take 5).drop 2 := hr
  rcases List.mem_append.mp hr with hr | hr
  · rw [spaceRules_sign (by decide) (by decide) _ hr]
    exact Nat.one_pos
  · simp only [signRules, List.take_succ_cons, List.take_zero, List.drop_succ_cons,
      List.drop_zero, List.mem_cons, List.not_mem_nil, or_false] at hr
    rcases hr with rfl | rfl | rfl
    · exact h1.trans_lt Nat.one_pos
    · exact h2.trans_lt Nat.one_pos
    · exact h3.trans_lt Nat.one_pos

theorem lex_pid (rest : List Char) : lex (pidText ++ rest) = .pid :: lex rest := by
  refine lex_token (fun _ => .pid) (by decide) ?_
  have h1 : lit pidText (pidText ++ rest) = 4 := lit_append_self pidText rest
  have h2 : lit cwdText (pidText ++ rest) = 0 := lit_cons_cons_ne (by decide)
  have h3 : lit [':'] (pidText ++ rest) = 0 := lit_cons_ne (by decide)
  have h4 : lit ['!'] (pidText ++ rest) = 1 := lit_append_self ['!'] _
  refine munch_sign (c := '!') (by decide) (signRules.take 2) rfl h1 (by decide) (fun r hr => ?_)
    fun r hr => ?_
  · rw [spaceRules_sign (by decide) (by decide) _ hr]
    decide
  · simp only [List.mem_cons, List.not_mem_nil, or_false] at hr
    rcases hr with rfl | rfl | rfl
    · exact h2.trans_le (Nat.zero_le 4)
    · exact h3.trans_le (Nat.zero_le 4)
    · exact h4.trans_le (by decide)

theorem lex_cwd (rest : List Char) : lex (cwdText ++ rest) = .cwd :: lex rest := by
  refine lex_token (fun _ => .cwd) (by decide) ?_
  have h1 : lit cwdText (cwdText ++ rest) = 18 := lit_append_self cwdText rest
  have h2 : lit pidText (cwdText ++ rest) = 0 := lit_cons_cons_ne (by decide)
  have h3 : lit [':'] (cwdText ++ rest) = 0 := lit_cons_ne (by decide)
  have h4 : lit ['!'] (cwdText ++ rest) = 1 := lit_append_self ['!'] _
  refine munch_sign (c := '!') (by decide) (signRules.take 3) rfl h1 (by decide) (fun r hr => ?_)
    fun r hr => ?_
  · have hr : r ∈ signRules.take 2 ++ (signRules.take 3).drop 2 := hr
    rcases List.mem_append.mp hr with hr | hr
    · rw [spaceRules_sign (by decide) (by decide) _ hr]
      decide
    · rw [List.mem_singleton.mp hr]
      exact h2.trans_lt (by decide)
  · simp only [List.mem_cons, List.not_mem_nil, or_false] at hr
    rcases hr with rfl | rfl
    · exact h3.trans_le (Nat.zero_le 18)
    · exact h4.trans_le (by decide)

/-! ## 3. The tokens of words -/

/-- No digit starts an identifier. -/
theorem not_isDigit_of_isIdentStart {c : Char} (h : isIdentStart c = true) : c.isDigit = false := by
  rw [Bool.eq_false_iff]
  intro hd
  simp only [isIdentStart, Char.isAlpha, Char.isUpper, Char.isLower, Bool.or_eq_true,
    Bool.and_eq_true, decide_eq_true_eq, UInt32.le_iff_toNat_le] at h
  simp only [Char.isDigit, Bool.and_eq_true, decide_eq_true_eq, UInt32.le_iff_toNat_le] at hd
  obtain ⟨h0, h9⟩ := hd
  have h0 : 48 ≤ c.val.toNat := h0
  have h9 : c.val.toNat ≤ 57 := h9
  rcases h with ((((⟨h, _⟩ | ⟨h, _⟩) | h) | h) | h) | h
  · have h : 65 ≤ c.val.toNat := h
    omega
  · have h : 97 ≤ c.val.toNat := h
    omega
  all_goals
    rw [h] at h0 h9
    revert h0 h9
    decide

/-- No keyword starts with a digit. -/
theorem keyword_head {k : String × Token} (hk : k ∈ keywords) :
    ∃ c cs, k.1.toList = c :: cs ∧ isIdentStart c = true := by
  have hall : ∀ k ∈ keywords, k.1.toList.head?.any isIdentStart = true := by decide +kernel
  have h := hall k hk
  cases hs : k.1.toList with
  | nil => simp [hs] at h
  | cons c cs =>
      rw [hs] at h
      exact ⟨c, cs, rfl, h⟩

/-- Digits are a number. -/
theorem wordToken_digits {w : List Char} (hw : w ≠ []) (hd : ∀ c ∈ w, c.isDigit = true) :
    wordToken w = .number (String.ofList w) := by
  cases w with
  | nil => exact absurd rfl hw
  | cons c w =>
      have hc := hd c List.mem_cons_self
      have hf : keywords.find? (fun k => k.1.toList = c :: w) = none := by
        refine List.find?_eq_none.mpr fun k hk he => ?_
        obtain ⟨c', cs, hs, hc'⟩ := keyword_head hk
        rw [hs] at he
        cases of_decide_eq_true he
        rw [not_isDigit_of_isIdentStart hc'] at hc
        cases hc
      have hop : scanOpId (c :: w) = 0 := by
        have ha : c ≠ 'a' := fun he => by
          rw [he] at hc
          exact absurd hc (by decide)
        have hs : ¬ ("sync_".toList <+: c :: w) := fun h => by
          rw [← (List.cons_prefix_cons.mp h).1] at hc
          exact absurd hc (by decide)
        rw [scanOpId, if_neg ha, scanSync, if_neg fun h => hs h.1]
      unfold wordToken
      rw [hf]
      dsimp only
      rw [hop, if_neg (by simp), if_pos (List.all_eq_true.mpr hd)]

theorem toString_toList_ne_nil (n : Nat) : (toString n).toList ≠ [] := by
  intro h
  have hp := Nat.length_repr_pos (n := n)
  have hl : (toString n).length = 0 := by rw [← String.length_toList, h]; rfl
  exact absurd hl (Nat.pos_iff_ne_zero.mp hp)

/-- A printed number is a number. -/
theorem wordToken_number (n : Nat) : wordToken (toString n).toList = .number (toString n) := by
  rw [wordToken_digits (toString_toList_ne_nil n) fun _ hc => isDigit_of_mem_toString hc,
    String.ofList_toList]

theorem isIdentChar_of_isDigit {c : Char} (h : c.isDigit = true) : isIdentChar c = true := by
  have h1 : c ≠ ' ' := fun he => by rw [he] at h; exact absurd h (by decide)
  have h2 : c ≠ ':' := fun he => by rw [he] at h; exact absurd h (by decide)
  have h3 : c ≠ '\n' := fun he => by rw [he] at h; exact absurd h (by decide)
  simp [isIdentChar, h1, h2, h3]

theorem isWord_number (n : Nat) : IsWord (toString n).toList where
  chars _ hc := isIdentChar_of_isDigit (isDigit_of_mem_toString hc)
  start := .inr ⟨toString_toList_ne_nil n, fun _ hc => isDigit_of_mem_toString hc⟩

/-- An operation id: "sync_" or "async_" and a number. -/
def IsOpId (id : String) : Prop :=
  ∃ n : Nat, id = "sync_" ++ toString n ∨ id = "async_" ++ toString n

/-- A text of the rule for operation ids: zeros may stand in front of the number. -/
def IsOpIdText (id : String) : Prop :=
  ∃ ds : List Char, ds ≠ [] ∧ (∀ c ∈ ds, c.isDigit) ∧
    (id.toList = "sync_".toList ++ ds ∨ id.toList = "async_".toList ++ ds)

theorem IsOpId.text {id : String} (h : IsOpId id) : IsOpIdText id := by
  obtain ⟨n, h⟩ := h
  refine ⟨(toString n).toList, toString_toList_ne_nil n, fun _ hc => isDigit_of_mem_toString hc, ?_⟩
  rcases h with rfl | rfl
  · exact .inl String.toList_append
  · exact .inr String.toList_append

theorem scanSync_digits {ds : List Char} (hne : ds ≠ []) (hd : ∀ c ∈ ds, c.isDigit) :
    scanSync ("sync_".toList ++ ds) = ("sync_".toList ++ ds).length := by
  have hdrop : ("sync_".toList ++ ds).drop 5 = ds := rfl
  have hspan : span Char.isDigit ds = ds.length := span_eq_length_iff.mpr hd
  have hpos := List.length_pos_iff.mpr hne
  rw [scanSync, hdrop, hspan, if_pos ⟨List.prefix_append _ _, by omega⟩, List.length_append]
  rfl

/-- An operation id is matched to its end and is no keyword. -/
theorem scanOpId_opId {id : String} (h : IsOpIdText id) :
    scanOpId id.toList = id.toList.length ∧ ∀ k ∈ keywords, k.1 ≠ id := by
  have hkey : ∀ k ∈ keywords, ¬ "sync_".toList <+: k.1.toList ∧ ¬ "async_".toList <+: k.1.toList := by
    decide +kernel
  obtain ⟨ds, hne, hd, h⟩ := h
  have hscan := scanSync_digits hne hd
  rcases h with h | h
  · rw [h]
    refine ⟨?_, fun k hk he => (hkey k hk).1 ⟨ds, by rw [he, h]⟩⟩
    have hs : "sync_".toList ++ ds = 's' :: (['y', 'n', 'c', '_'] ++ ds) := rfl
    rw [hs] at hscan ⊢
    rw [scanOpId, if_neg (by decide), hscan]
  · rw [h]
    refine ⟨?_, fun k hk he => (hkey k hk).2 ⟨ds, by rw [he, h]⟩⟩
    have hs : "async_".toList ++ ds = 'a' :: ("sync_".toList ++ ds) := rfl
    have hlen : ("sync_".toList ++ ds).length ≠ 0 := by simp
    rw [hs, scanOpId, if_pos rfl, hscan, if_neg hlen, List.length_cons, Nat.add_comm]

/-- An operation id is read as one. -/
theorem wordToken_opId {id : String} (h : IsOpIdText id) : wordToken id.toList = .opId id := by
  obtain ⟨hscan, hkey⟩ := scanOpId_opId h
  have hf : keywords.find? (fun k => k.1.toList = id.toList) = none := by
    refine List.find?_eq_none.mpr fun k hk he => hkey k hk ?_
    exact String.toList_inj.mp (of_decide_eq_true he)
  unfold wordToken
  rw [hf]
  dsimp only
  rw [if_pos hscan, String.ofList_toList]

theorem isWord_opId {id : String} (h : IsOpIdText id) : IsWord id.toList := by
  obtain ⟨ds, _, hd, h⟩ := h
  have hletters : ∀ c ∈ ['a', 's', 'y', 'n', 'c', '_'], isIdentChar c = true := by simp [isIdentChar]
  have hdigits : ∀ c ∈ ds, isIdentChar c = true := fun c hc => isIdentChar_of_isDigit (hd c hc)
  have hsync : "sync_".toList = ['s', 'y', 'n', 'c', '_'] := rfl
  have hasync : "async_".toList = ['a', 's', 'y', 'n', 'c', '_'] := rfl
  rcases h with h | h
  · rw [h, hsync]
    refine ⟨fun c hc => ?_, .inl ⟨'s', _, rfl, by decide⟩⟩
    exact (List.mem_append.mp hc).elim (fun hc => hletters c (List.mem_cons_of_mem _ hc))
      (hdigits c)
  · rw [h, hasync]
    refine ⟨fun c hc => ?_, .inl ⟨'a', _, rfl, by decide⟩⟩
    exact (List.mem_append.mp hc).elim (hletters c) (hdigits c)

/-- A text that is read as an identifier: it matches the rule and is no keyword and no operation
    id. -/
structure IsIdentifier (text : String) : Prop where
  chars : ∀ c ∈ text.toList, isIdentChar c
  start : ∃ c cs, text.toList = c :: cs ∧ isIdentStart c
  notKeyword : ∀ k ∈ keywords, k.1 ≠ text
  notOpId : scanOpId text.toList ≠ text.toList.length

instance (text : String) : Decidable (IsIdentifier text) :=
  decidable_of_iff (text.toList.all isIdentChar ∧ text.toList.head?.any isIdentStart ∧
      (∀ k ∈ keywords, k.1 ≠ text) ∧ scanOpId text.toList ≠ text.toList.length) <| by
    refine ⟨fun ⟨h1, h2, h3, h4⟩ => ⟨List.all_eq_true.mp h1, ?_, h3, h4⟩,
      fun ⟨h1, ⟨c, cs, h2, h5⟩, h3, h4⟩ => ⟨List.all_eq_true.mpr h1, by rw [h2]; exact h5, h3, h4⟩⟩
    cases hs : text.toList with
    | nil => simp [hs] at h2
    | cons c cs =>
        rw [hs] at h2
        exact ⟨c, cs, rfl, h2⟩

theorem IsIdentifier.isWord {text : String} (h : IsIdentifier text) : IsWord text.toList :=
  ⟨h.chars, .inl h.start⟩

theorem wordToken_identifier {text : String} (h : IsIdentifier text) :
    wordToken text.toList = .identifier text := by
  have hf : keywords.find? (fun k => k.1.toList = text.toList) = none := by
    refine List.find?_eq_none.mpr fun k hk he => h.notKeyword k hk ?_
    exact String.toList_inj.mp (of_decide_eq_true he)
  have hnd : ¬ text.toList.all Char.isDigit := by
    obtain ⟨c, cs, hs, hc⟩ := h.start
    intro hall
    have hd := List.all_eq_true.mp hall c (by rw [hs]; exact List.mem_cons_self)
    rw [not_isDigit_of_isIdentStart hc] at hd
    cases hd
  unfold wordToken
  rw [hf]
  dsimp only
  rw [if_neg h.notOpId, if_neg hnd, String.ofList_toList]

end TraceLexer

end Fsracer

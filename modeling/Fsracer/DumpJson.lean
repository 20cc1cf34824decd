/-
  File:      Fsracer/DumpJson.lean
  Subject:   THE JSON DUMP OF THE EFFECT TABLE (`DumpJSON` of lib/FSAnalyzer.cpp) and what a
             decoder makes of it.

  The dump puts its separators right for every number of paths and accesses, and the ids of
  events never need an escape; but a path goes out as it is, and an identifier of a trace may have
  quotation marks, backslashes and tabs in it. **`dumpJSON_iff`**: the dump decodes to the table
  exactly when no path of the table has a character that a JSON string has to escape.
-/
import Mathlib
import Fsracer.Agreement
import Fsracer.ParsedTrace
import Fsracer.Lib.Json

namespace Fsracer

namespace FSAnalyzer

/-! ## 1. The dump -/

/-- The body of the inner loop of `DumpJSON`: one access; the last one has no comma behind it. -/
def dumpAccess (fsAccess : FSAccess) (last : Bool) : String :=
  "    \x7b\n" ++ "      \"block\": " ++ "\"" ++ fsAccess.eventId ++ "\",\n" ++
    "      \"effect\": " ++ "\"" ++ effToString fsAccess.effectType ++ "\"\n" ++
    (if last then "    \x7d\n" else "    \x7d,\n")

/-- The inner loop: the accesses of a path. -/
def dumpAccesses : List FSAccess → String
  | [] => ""
  | fsAccess :: rest => dumpAccess fsAccess rest.isEmpty ++ dumpAccesses rest

/-- The body of the outer loop: one path. -/
def dumpRow (entry : Path × List FSAccess) (last : Bool) : String :=
  "  \"" ++ entry.1.native ++ "\": [\n" ++ dumpAccesses entry.2 ++
    (if last then "  ]\n" else "  ],\n")

/-- The outer loop: the paths. -/
def dumpRows : List (Path × List FSAccess) → String
  | [] => ""
  | entry :: rest => dumpRow entry rest.isEmpty ++ dumpRows rest

/-- `DumpJSON`. -/
def dumpJSON (effectTable : EffectTable) : String :=
  "\x7b\n" ++ dumpRows effectTable.toList ++ "\x7d\n"

end FSAnalyzer

/-! ## 2. The table as a JSON object -/

/-- An access: its block and its effect. -/
def FSAccess.json (fsAccess : FSAccess) : Json.Value :=
  .object [("block", .string fsAccess.eventId),
    ("effect", .string (effToString fsAccess.effectType))]

/-- The member of a path: the list of its accesses. -/
def rowJson (entry : Path × List FSAccess) : String × Json.Value :=
  (entry.1.native, .array (entry.2.map FSAccess.json))

/-- The object of a table: a member for each path, in the order of the table. -/
def tableJson (effectTable : EffectTable) : Json.Value := .object (effectTable.toList.map rowJson)

/-- **The dump of a table is a JSON text of the table**, with every path once. -/
structure DecodesToTable (effectTable : EffectTable) : Prop where
  decode : Json.decode (FSAnalyzer.dumpJSON effectTable) = some (tableJson effectTable)
  once : (effectTable.toList.map (·.1.native)).Nodup

/-- Text that a JSON string shows as it is. -/
def IsPlain (s : String) : Prop := ∀ c ∈ s.toList, Json.Plain c

/-- The events of a row have plain ids. -/
def PlainIds (row : List FSAccess) : Prop := ∀ fsAccess ∈ row, IsPlain fsAccess.eventId

namespace FSAnalyzer

/-! ## 3. The loops -/

/-- The words that the dump and the ids of events have of their own. -/
theorem isPlain_words : ∀ w ∈ ["block", "effect", "consumed", "produced", "expunged", "sync_",
    "async_", "MAIN_"], IsPlain w := by
  simp [IsPlain]
  decide

theorem isPlain_effToString (effect : EffectType) : IsPlain (effToString effect) := by
  cases effect <;> exact isPlain_words _ (by simp [effToString])

/-- A new line and its indentation. -/
def newline (k : Nat) : List Char := '\n' :: List.replicate k ' '

theorem isWs_newline (k : Nat) : Json.IsWs (newline k) := by
  intro c hc
  rcases List.mem_cons.mp hc with rfl | hc
  · rfl
  · rw [List.eq_of_mem_replicate hc]
    rfl

theorem isWs_blanks (k : Nat) : Json.IsWs (List.replicate k ' ') := by
  intro c hc
  rw [List.eq_of_mem_replicate hc]
  rfl

/-- A blank and a string. -/
def stringText (s : String) : List Char := List.replicate 1 ' ' ++ ('"' :: s.toList ++ ['"'])

theorem reads_stringText {s : String} (hs : IsPlain s) : Json.Reads (stringText s) (.string s) := by
  have h := Json.reads_ws (isWs_blanks 1) (Json.reads_string hs)
  rwa [String.ofList_toList] at h

/-- The text of an access, up to its closing brace. -/
def accessText (fsAccess : FSAccess) : List Char :=
  List.replicate 4 ' ' ++ '{' ::
    (newline 6 ++ (Json.memberText "block".toList (stringText fsAccess.eventId) ++ ([] ++ ',' ::
      (newline 6 ++ (Json.memberText "effect".toList
        (stringText (effToString fsAccess.effectType)) ++ (newline 4 ++ ['}']))))))

theorem reads_accessText {fsAccess : FSAccess} (hid : IsPlain fsAccess.eventId) :
    Json.Reads (accessText fsAccess) fsAccess.json := by
  have hblock : IsPlain "block" := isPlain_words _ (by simp)
  have heffect : IsPlain "effect" := isPlain_words _ (by simp)
  have hlast := Json.readsMembers_ws (isWs_newline 6) (Json.readsMembers_one heffect
    (reads_stringText (isPlain_effToString fsAccess.effectType)) (isWs_newline 4))
  have hboth := Json.readsMembers_ws (isWs_newline 6)
    (Json.readsMembers_cons hblock (reads_stringText hid) Json.isWs_nil hlast)
  have h := Json.reads_ws (isWs_blanks 4) (Json.reads_object hboth)
  rwa [String.ofList_toList, String.ofList_toList] at h

theorem toList_dumpAccess (fsAccess : FSAccess) (last : Bool) :
    (dumpAccess fsAccess last).toList =
      accessText fsAccess ++ if last then newline 0 else ',' :: newline 0 := by
  -- `unfold` would first prove the equation of the definition, which compares the literals
  delta dumpAccess
  cases last <;> simp [accessText, stringText, newline, Json.memberText, List.replicate]

theorem dumpAccesses_cons (fsAccess : FSAccess) (rest : List FSAccess) :
    (dumpAccesses (fsAccess :: rest)).toList = accessText fsAccess ++
      ((if rest.isEmpty then newline 0 else ',' :: newline 0) ++ (dumpAccesses rest).toList) := by
  rw [dumpAccesses, String.toList_append, toList_dumpAccess, List.append_assoc]

/-- The inner loop puts its commas between the accesses. -/
theorem readsElements_dumpAccesses {fsAccess : FSAccess} {rest : List FSAccess}
    (hids : PlainIds (fsAccess :: rest)) :
    Json.ReadsElements (newline 0 ++ ((dumpAccesses (fsAccess :: rest)).toList ++ [' ', ' ', ']']))
      ((fsAccess :: rest).map FSAccess.json) := by
  induction rest generalizing fsAccess with
  | nil =>
      obtain ⟨hid, _⟩ := List.forall_mem_cons.mp hids
      have h := Json.readsElements_one (Json.reads_ws (isWs_newline 0) (reads_accessText hid))
        (isWs_newline 2)
      rw [dumpAccesses_cons]
      simpa [dumpAccesses, newline] using h
  | cons next rest ih =>
      obtain ⟨hid, hids⟩ := List.forall_mem_cons.mp hids
      have h := Json.readsElements_cons (Json.reads_ws (isWs_newline 0) (reads_accessText hid))
        Json.isWs_nil (ih hids)
      rw [dumpAccesses_cons]
      simpa [newline] using h

/-- The text of the accesses of a path, with its brackets. -/
def rowText (row : List FSAccess) : List Char :=
  List.replicate 1 ' ' ++ '[' :: (newline 0 ++ ((dumpAccesses row).toList ++ [' ', ' ', ']']))

theorem reads_rowText {row : List FSAccess} (hids : PlainIds row) :
    Json.Reads (rowText row) (.array (row.map FSAccess.json)) := by
  refine Json.reads_ws (isWs_blanks 1) ?_
  cases row with
  | nil => exact Json.reads_array_nil (isWs_newline 2)
  | cons fsAccess rest => exact Json.reads_array (readsElements_dumpAccesses hids)

theorem dumpRows_cons (entry : Path × List FSAccess) (rest : List (Path × List FSAccess)) :
    (dumpRows (entry :: rest)).toList = List.replicate 2 ' ' ++
      (Json.memberText entry.1.native.toList (rowText entry.2) ++
        ((if rest.isEmpty then newline 0 else ',' :: newline 0) ++ (dumpRows rest).toList)) := by
  cases rest <;> simp [dumpRows, dumpRow, rowText, newline, Json.memberText, List.replicate]

/-- The outer loop puts its commas between the paths; the paths themselves have to be plain. -/
theorem readsMembers_dumpRows {entry : Path × List FSAccess} {rest : List (Path × List FSAccess)}
    (hids : ∀ e ∈ entry :: rest, PlainIds e.2)
    (hplain : ∀ e ∈ entry :: rest, IsPlain e.1.native) :
    Json.ReadsMembers (newline 0 ++ ((dumpRows (entry :: rest)).toList ++ ['}']))
      ((entry :: rest).map rowJson) := by
  induction rest generalizing entry with
  | nil =>
      obtain ⟨hid, _⟩ := List.forall_mem_cons.mp hids
      obtain ⟨hkey, _⟩ := List.forall_mem_cons.mp hplain
      have h := Json.readsMembers_ws (isWs_newline 2)
        (Json.readsMembers_one hkey (reads_rowText hid) (isWs_newline 0))
      rw [dumpRows_cons]
      simpa [dumpRows, newline, rowJson] using h
  | cons next rest ih =>
      obtain ⟨hid, hids⟩ := List.forall_mem_cons.mp hids
      obtain ⟨hkey, hplain⟩ := List.forall_mem_cons.mp hplain
      have h := Json.readsMembers_ws (isWs_newline 2)
        (Json.readsMembers_cons hkey (reads_rowText hid) Json.isWs_nil (ih hids hplain))
      rw [dumpRows_cons]
      simpa [newline, rowJson] using h

/-- A path that comes back as the first key is plain: the list of its accesses starts with a new
    line, which no string goes over. -/
theorem isPlain_of_member {key : String} {row : List FSAccess} {v : Json.Value} {n : Nat}
    {ms : List (String × Json.Value)} {more cs : List Char}
    (h : Json.members n (Json.memberText key.toList (rowText row ++ more)) =
      some ((key, v) :: ms, cs)) : IsPlain key := by
  cases n with
  | zero => cases h
  | succ n =>
      obtain ⟨cs', hs⟩ := Json.string_of_members h
      have hq : '"' ∉ [':', ' ', '['] := by decide
      exact Json.plain_of_string hq (by decide : '\n'.toNat < 0x20) hs

/-- **Rows that decode to their members have plain paths.** -/
theorem isPlain_of_dumpRows {entry : Path × List FSAccess} {rest : List (Path × List FSAccess)}
    (hids : ∀ e ∈ entry :: rest, PlainIds e.2) {n : Nat} {tail cs : List Char}
    (hn : (newline 0 ++ ((dumpRows (entry :: rest)).toList ++ tail)).length < n)
    (h : Json.members n (newline 0 ++ ((dumpRows (entry :: rest)).toList ++ tail)) =
      some ((entry :: rest).map rowJson, cs)) : ∀ e ∈ entry :: rest, IsPlain e.1.native := by
  induction rest generalizing entry n with
  | nil =>
      have htext : newline 0 ++ ((dumpRows [entry]).toList ++ tail) = newline 2 ++
          Json.memberText entry.1.native.toList (rowText entry.2 ++ (newline 0 ++ tail)) := by
        rw [dumpRows_cons]
        simp [dumpRows, newline, Json.memberText]
      rw [htext, Json.members_ws (isWs_newline 2)] at h
      exact List.forall_mem_singleton.mpr (isPlain_of_member h)
  | cons next rest ih =>
      obtain ⟨hid, hids⟩ := List.forall_mem_cons.mp hids
      have htext : newline 0 ++ ((dumpRows (entry :: next :: rest)).toList ++ tail) = newline 2 ++
          Json.memberText entry.1.native.toList (rowText entry.2 ++
            ([] ++ ',' :: (newline 0 ++ ((dumpRows (next :: rest)).toList ++ tail)))) := by
        rw [dumpRows_cons]
        simp [newline, Json.memberText]
      rw [htext] at hn h
      rw [Json.members_ws (isWs_newline 2)] at h
      have hkey := isPlain_of_member h
      obtain ⟨n, rfl⟩ : ∃ m, n = m + 1 := ⟨n - 1, by omega⟩
      simp only [Json.memberText, List.length_append, List.length_cons] at hn
      rw [Json.members_sep hkey (by omega) Json.isWs_nil
        (reads_rowText hid n _ (by omega))] at h
      obtain ⟨r, hr, heq⟩ := Option.map_eq_some_iff.mp h
      simp only [List.map_cons, Prod.mk.injEq, List.cons.injEq] at heq
      obtain ⟨⟨_, hms⟩, hcs⟩ := heq
      have hmore : Json.members n (newline 0 ++ ((dumpRows (next :: rest)).toList ++ tail)) =
          some ((next :: rest).map rowJson, cs) := by
        rw [hr, List.map_cons, ← hms, ← hcs]
      have hlen : (newline 0 ++ ((dumpRows (next :: rest)).toList ++ tail)).length < n := by
        simp only [List.length_append]
        omega
      exact List.forall_mem_cons.mpr ⟨hkey, ih hids hlen hmore⟩

/-! ## 4. The table -/

/-- Every path of the table is plain. -/
def PlainPaths (effectTable : EffectTable) : Prop :=
  ∀ entry ∈ effectTable.toList, IsPlain entry.1.native

theorem toList_dumpJSON (effectTable : EffectTable) : (dumpJSON effectTable).toList =
    '{' :: (newline 0 ++ ((dumpRows effectTable.toList).toList ++ ['}', '\n'])) := by
  simp [dumpJSON, newline]

theorem head_dumpRows (entry : Path × List FSAccess) (rest : List (Path × List FSAccess))
    (tail : List Char) : (Json.skipWs (newline 0 ++
      ((dumpRows (entry :: rest)).toList ++ tail))).head? = some '"' := by
  rw [dumpRows_cons, Json.skipWs_append (isWs_newline 0), List.append_assoc,
    Json.skipWs_append (isWs_blanks 2)]
  rfl

/-- Paths that are written the same are one key of the table. -/
theorem nodup_natives (effectTable : EffectTable) :
    (effectTable.toList.map (·.1.native)).Nodup := by
  refine List.pairwise_map.mpr (Std.TreeMap.distinct_keys_toList.imp fun hne he => hne ?_)
  have hp : ∀ {p q : Path}, p.native = q.native → Path.cmp p q = .eq := by
    intro p q hpq
    cases p
    cases q
    cases hpq
    exact Std.ReflCmp.compare_self
  exact hp he

/-- **A table with plain ids is dumped well iff its paths are plain.** -/
theorem decodesToTable_iff {effectTable : EffectTable}
    (hids : ∀ entry ∈ effectTable.toList, PlainIds entry.2) :
    DecodesToTable effectTable ↔ PlainPaths effectTable := by
  have htext := toList_dumpJSON effectTable
  unfold PlainPaths
  refine ⟨fun h => ?_, fun hplain => ⟨?_, nodup_natives effectTable⟩⟩
  · obtain ⟨cs, hv, _⟩ := Json.decode_eq_some_iff.mp h.decode
    rw [htext] at hv
    unfold tableJson at hv
    cases hrows : effectTable.toList with
    | nil => exact fun _ hm => absurd hm List.not_mem_nil
    | cons entry rest =>
        rw [hrows] at hv hids
        rw [Json.value_object (by rw [head_dumpRows]; decide)] at hv
        obtain ⟨⟨ms, cs'⟩, hr, heq⟩ := Option.map_eq_some_iff.mp hv
        cases heq
        exact isPlain_of_dumpRows hids (by simp) hr
  · have hreads : Json.Reads ('{' :: (newline 0 ++
        ((dumpRows effectTable.toList).toList ++ ['}']))) (tableJson effectTable) := by
      unfold tableJson
      cases hrows : effectTable.toList with
      | nil => exact Json.reads_object_nil (isWs_newline 0)
      | cons entry rest =>
          rw [hrows] at hids hplain
          exact Json.reads_object (readsMembers_dumpRows hids hplain)
    exact Json.decode_of_reads hreads (isWs_newline 0) (by rw [htext]; simp [newline])

/-! ## 5. The ids of events -/

theorem plain_of_isDigit {c : Char} (h : c.isDigit = true) : Json.Plain c := by
  refine ⟨fun hc => absurd (hc ▸ h) (by decide), fun hc => absurd (hc ▸ h) (by decide), ?_⟩
  simp only [Char.isDigit, Bool.and_eq_true, decide_eq_true_eq] at h
  exact Nat.le_trans (by decide) (UInt32.le_iff_toNat_le.mp h.1)

theorem isPlain_number (n : Nat) : IsPlain (toString n) :=
  fun _ hc => plain_of_isDigit (isDigit_of_mem_toString hc)

theorem isPlain_mark_digits {mark id : String} {ds : List Char} (hmark : IsPlain mark)
    (hd : ∀ c ∈ ds, c.isDigit = true) (h : id.toList = mark.toList ++ ds) : IsPlain id := by
  intro c hc
  rw [h] at hc
  exact (List.mem_append.mp hc).elim (hmark c) fun hc => plain_of_isDigit (hd c hc)

theorem isPlain_opId {id : String} (h : TraceLexer.IsOpIdText id) : IsPlain id := by
  have hsync : IsPlain "sync_" := isPlain_words _ (by simp)
  have hasync : IsPlain "async_" := isPlain_words _ (by simp)
  obtain ⟨ds, _, hd, h | h⟩ := h
  · exact isPlain_mark_digits hsync hd h
  · exact isPlain_mark_digits hasync hd h

theorem isPlain_getPrettyBlockId (b : Block) : IsPlain b.getPrettyBlockId := by
  have hmain : IsPlain "MAIN_" := isPlain_words _ (by simp)
  cases hm : b.isMain with
  | false =>
      rw [getPrettyBlockId_reg hm]
      exact isPlain_number _
  | true =>
      rw [getPrettyBlockId_main hm]
      exact isPlain_mark_digits hmain (fun _ hc => isDigit_of_mem_toString hc) String.toList_append

/-- What follows the delimiter is part of the text. -/
theorem mem_getRightSubstr {str : String} {delm c : Char}
    (h : c ∈ (getRightSubstr str delm).toList) : c ∈ str.toList := by
  unfold getRightSubstr at h
  split at h
  · exact h
  · rename_i rest hrest
    rw [String.toList_ofList] at h
    exact (List.dropWhile_suffix _).subset (hrest ▸ List.mem_cons_of_mem _ h)

theorem isPlain_submitBlockId {b : Block} {submitOp : SubmitOp}
    (h : TraceLexer.IsOpIdText submitOp.opId) : IsPlain (submitBlockId b submitOp) := by
  unfold submitBlockId
  cases submitOp.getType with
  | sync => exact isPlain_getPrettyBlockId b
  | async => exact fun c hc => isPlain_opId h c (mem_getRightSubstr hc)

/-- The effects of a trace that the parser builds are charged to plain ids. -/
theorem isPlain_charge {trace : Trace} (ht : ParsedTrace trace) {st : FsState}
    {log : List Charge} (h : interpret trace = .ok (st, log)) :
    ∀ c ∈ log, IsPlain c.eventId := by
  intro c hc
  rw [interpret_eq_walk] at h
  obtain ⟨us, b, submitOp, st₁, log₁, st₂, log₂, hp, _, hs, hc⟩ := (mem_interpretWalk h).mp hc
  have hw : (b, Expr.submitOp submitOp) ∈ trace.walk :=
    hp.subset (List.mem_append_right _ (List.mem_singleton_self _))
  obtain ⟨_, hb, hw⟩ := List.mem_flatMap.mp hw
  obtain ⟨e, he, heq⟩ := List.mem_map.mp hw
  cases heq
  rw [((interpretSubmitOp_spec hs).2 c hc).1]
  exact isPlain_submitBlockId (((ht.blocks b hb).exprs _ he).opId submitOp rfl)

/-- What is recorded for an event was charged to it. -/
theorem exists_charge {log : List Charge} {k : Path × String} {x : FSAccess}
    (h : recorded log k = some x) : ∃ c ∈ log, c.eventId = k.2 := by
  unfold recorded at h
  cases hf : log.filter fun c => SameKey (c.path, c.eventId) k with
  | nil =>
      rw [hf] at h
      cases h
  | cons c cs =>
      have hc : c ∈ log.filter fun c => SameKey (c.path, c.eventId) k := by simp [hf]
      obtain ⟨hm, hk⟩ := List.mem_filter.mp hc
      exact ⟨c, hm, (of_decide_eq_true hk).2⟩

/-- **The events of the effect table have plain ids.** -/
theorem plainIds_analyze {trace : Trace} (ht : ParsedTrace trace) {st : FsState}
    (h : analyze trace = .ok st) : ∀ entry ∈ st.effectTable.toList, PlainIds entry.2 := by
  obtain ⟨st₁, log, hi, _, rfl⟩ := analyze_eq_ok_iff.mp h
  intro entry hm x hx
  obtain ⟨q, hq⟩ := hasAccess_groupAccesses.mp ⟨entry.1.native, entry.2, hm, hx⟩
  obtain ⟨c, hc, he⟩ := exists_charge hq
  have hid := isPlain_charge ht hi c hc
  rwa [he] at hid

end FSAnalyzer

/-! ## 6. Traces -/

/-- **The JSON dump decodes to the table iff no path has a character to escape.** -/
theorem dumpJSON_iff {text : String} {trace : Trace} {st : FsState}
    (hparse : TraceParser.parse text = .ok trace) (hrun : FSAnalyzer.analyze trace = .ok st) :
    DecodesToTable st.effectTable ↔ FSAnalyzer.PlainPaths st.effectTable :=
  FSAnalyzer.decodesToTable_iff
    (FSAnalyzer.plainIds_analyze (TraceParser.parsedTrace_of_parse hparse) hrun)

/-- A trace file with one operation that a main block submits. -/
def openText (path : String) : String :=
  "!Blocks: 1\n!PID: 1\n!Working Directory: /\nOperation sync_1 do\nhpath AT_FDCWD " ++ path ++
    " produced !open\ndone\nBegin MAIN 1\nsubmitOp sync_1 SYNC !open\nEnd\n"

/-- The trace of such a file. -/
def openTrace (path : String) : Trace :=
  ⟨1, "/", [⟨"sync_1", [⟨.hpath atFdcwd path .produced, false, "open"⟩]⟩],
    [⟨1, .MAIN, [.submitOp ⟨"sync_1", none, ["open"]⟩]⟩]⟩

/-- The access that the operation leaves. -/
def openAccess : FSAccess := ⟨"MAIN_1", .produced, ["main"], "open"⟩

/-- The dump of a table with one plain path decodes to it. -/
theorem dumpJSON_iff_open : ∃ st, FSAnalyzer.analyze (openTrace "/a.txt") = .ok st ∧
    st.effectTable.toList = [(⟨"/a.txt"⟩, [openAccess])] ∧ DecodesToTable st.effectTable := by
  have hparse : TraceParser.parse (openText "/a.txt") = .ok (openTrace "/a.txt") := by
    decide +kernel
  obtain ⟨st, hst, hr⟩ : ∃ st, FSAnalyzer.analyze (openTrace "/a.txt") = .ok st ∧
      st.effectTable.toList = [(⟨"/a.txt"⟩, [openAccess])] :=
    FSAnalyzer.exists_analyze_eq_ok (by decide +kernel)
  refine ⟨st, hst, hr, (dumpJSON_iff hparse hst).mpr ?_⟩
  unfold FSAnalyzer.PlainPaths
  rw [hr]
  simp [IsPlain]
  decide

/-- A quotation mark in a path ends its key. -/
theorem dumpJSON_fails : ¬ ∀ (text : String) (trace : Trace) (st : FsState),
    TraceParser.parse text = .ok trace → FSAnalyzer.analyze trace = .ok st →
      DecodesToTable st.effectTable := by
  intro h
  have hparse : TraceParser.parse (openText "/a\"b") = .ok (openTrace "/a\"b") := by
    decide +kernel
  obtain ⟨st, hst, hr⟩ : ∃ st, FSAnalyzer.analyze (openTrace "/a\"b") = .ok st ∧
      st.effectTable.toList = [(⟨"/a\"b"⟩, [openAccess])] :=
    FSAnalyzer.exists_analyze_eq_ok (by decide +kernel)
  have hids : ∀ entry ∈ st.effectTable.toList, PlainIds entry.2 :=
    FSAnalyzer.plainIds_analyze (TraceParser.parsedTrace_of_parse hparse) hst
  have hplain := (FSAnalyzer.decodesToTable_iff hids).mp (h _ _ _ hparse hst)
  have hkey : IsPlain "/a\"b" := hplain (⟨"/a\"b"⟩, [openAccess]) (by rw [hr]; exact .head _)
  exact (hkey '"' (by simp)).1 rfl

end Fsracer

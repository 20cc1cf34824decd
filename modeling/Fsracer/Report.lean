/-
  File:      Fsracer/Report.lean
  Subject:   THE REPORT (lib/RaceDetector.cpp): `Detect`, `DumpFaults` and
             `FaultDesc::ToString`.

  The report shows the races of `GetFaults` with the tags that `event_info` holds at the end.
  `notes` are the entries that the loops make there, in their order.
  **`detect_exact`** -- the report of an analysed trace shows every race once and nothing else,
  in order; the branch that prints `!main` for an unknown event is never taken, and the tags of
  an event are those of its access to the last of its paths.
-/
import Mathlib
import Fsracer.RaceDetector

namespace Fsracer

/-! ## 1. The report -/

/-- `FaultDesc::ToString`. -/
def FaultDesc.toStr (d : FaultDesc) : String :=
  "Path " ++ d.p ++ ":\n" ++
    "    " ++ effToString d.fsAccess1.effectType ++ " by the first event " ++
    "(operation: " ++ d.fsAccess1.operationName ++ ")\n" ++
    "    " ++ effToString d.fsAccess2.effectType ++ " by the second event (operation: " ++
    d.fsAccess2.operationName ++ ")"

namespace Detector

/-- The tags that `DumpFaults` prints for an event. -/
def tagStr (d : Detector) (event : String) : String :=
  match d.eventInfo.getValue event with
  | some debugInfo =>
      let debugStr := debugInfoStr debugInfo
      if debugStr ≠ "" then debugStr else "empty"
  | none => " !main"

/-- `DumpFaults`: the messages, one for each `debug::msg()`. -/
def dumpFaults (d : Detector) (faults : Faults) : List String :=
  if faults.isEmpty then []
  else
    ["Detected Data Races", "-------------------",
      "Number of data races: " ++ toString faults.size] ++
    faults.toList.flatMap fun faultEntry =>
      let blockPair := faultEntry.1
      ("* Event: " ++ blockPair.1 ++ " (tags:" ++ d.tagStr blockPair.1 ++ ") and Event: " ++
        blockPair.2 ++ " (tags:" ++ d.tagStr blockPair.2 ++ "):") ::
      faultEntry.2.toList.map fun faultDesc => "  - " ++ faultDesc.toStr

/-- `Detect`: the messages, and the detector after it. -/
def detect (g : DepGraph) (fsAccesses : EffectTable) (d : Detector) :
    Option (List String × Detector) :=
  (getFaults g fsAccesses d).map fun (faults, d') => (d'.dumpFaults faults, d')

/-! ## 2. What a report should be -/

/-- Two events and their races. -/
structure RaceEntry where
  first : String
  second : String
  descs : List FaultDesc
  deriving DecidableEq, Repr

/-- The lines of an entry, for given tags. -/
def RaceEntry.lines (tags : String → String) (e : RaceEntry) : List String :=
  ("* Event: " ++ e.first ++ " (tags:" ++ tags e.first ++ ") and Event: " ++
    e.second ++ " (tags:" ++ tags e.second ++ "):") ::
  e.descs.map fun d => "  - " ++ d.toStr

/-- The lines of a report: none, if there is no entry. -/
def reportLines (tags : String → String) : List RaceEntry → List String
  | [] => []
  | e :: es =>
      ["Detected Data Races", "-------------------",
        "Number of data races: " ++ toString (es.length + 1)] ++
      (e :: es).flatMap (RaceEntry.lines tags)

/-- The tags of an event are those of its access to the last of its paths. -/
def TagsOf (fsAccesses : EffectTable) (event tags : String) : Prop :=
  ∃ p x, HasAccess fsAccesses p x ∧ x.eventId = event ∧
    (∀ q y, HasAccess fsAccesses q y → y.eventId = event → Path.cmp ⟨q⟩ ⟨p⟩ ≠ .gt) ∧
    tags = if x.debugInfo = [] then "empty" else debugInfoStr x.debugInfo

/-- The entries show every race once, in order, and the tags are known. -/
structure ExactReport (g : DepGraph) (fsAccesses : EffectTable) (tags : String → String)
    (entries : List RaceEntry) : Prop where
  sorted : entries.Pairwise fun e e' =>
    e.first < e'.first ∨ e.first = e'.first ∧ e.second < e'.second
  descs : ∀ e ∈ entries, e.descs ≠ [] ∧ e.descs.Pairwise fun d d' => d.p < d'.p
  races : ∀ p x y, (∃ e ∈ entries, e.first = x.eventId ∧ e.second = y.eventId ∧
      (⟨p, x, y⟩ : FaultDesc) ∈ e.descs) ↔
    x.eventId < y.eventId ∧ HasAccess fsAccesses p x ∧ HasAccess fsAccesses p y ∧
      (x.effectType ≠ .consumed ∨ y.effectType ≠ .consumed) ∧
      ¬ (IsMainNode g x.eventId ∧ IsMainNode g y.eventId) ∧
      ¬ g.Path x.eventId y.eventId ∧ ¬ g.Path y.eventId x.eventId
  own : ∀ e ∈ entries, ∀ d ∈ e.descs,
    d.fsAccess1.eventId = e.first ∧ d.fsAccess2.eventId = e.second
  tags : ∀ e ∈ entries, TagsOf fsAccesses e.first (tags e.first) ∧
    TagsOf fsAccesses e.second (tags e.second)

/-! ## 3. The tags -/

/-- One entry of `event_info`. -/
def note (eventInfo : Table String DebugInfo compare) (x : FSAccess) :
    Table String DebugInfo compare :=
  eventInfo.addEntry x.eventId x.debugInfo

/-- The entries that the loops make for some rows. -/
def notes (rows : List (Path × List FSAccess)) : List FSAccess :=
  rows.flatMap fun row => (get2Combinations row.2).flatMap fun c => [c.1, c.2]

theorem happensBefore_eventInfo {g : DepGraph} {d d' : Detector} {x y : String} {r : Bool}
    (h : happensBefore g d x y = some (r, d')) : d'.eventInfo = d.eventInfo := by
  unfold happensBefore at h
  split at h
  · split at h
    · cases h
      rfl
    · split at h
      · split at h
        · cases h
          rfl
        · cases h
      · cases h
        rfl
  · cases h
    rfl

theorem hasDep_eventInfo {g : DepGraph} {d d' : Detector} {x y : String} {r : Bool}
    (h : hasDep g d x y = some (r, d')) : d'.eventInfo = d.eventInfo := by
  unfold hasDep at h
  obtain ⟨⟨r₁, d₁⟩, h1, h⟩ := Option.bind_eq_some_iff.mp h
  dsimp only at h
  split at h
  · cases h
    exact happensBefore_eventInfo h1
  · rw [happensBefore_eventInfo h, happensBefore_eventInfo h1]

/-- The body of the inner loop notes both accesses, whatever comes of them. -/
theorem checkPair_eventInfo {g : DepGraph} {p : Path} {faults faults' : Faults} {d d' : Detector}
    {c : FSAccess × FSAccess} (h : checkPair g p (faults, d) c = some (faults', d')) :
    d'.eventInfo = [c.1, c.2].foldl note d.eventInfo := by
  unfold checkPair at h
  dsimp only at h
  split at h
  · cases h
    rfl
  · split at h
    · cases h
      rfl
    · split at h
      · cases h
      · rename_i hdep
        cases h
        exact hasDep_eventInfo hdep
      · rename_i hdep
        cases h
        exact hasDep_eventInfo hdep

theorem checkPath_eventInfo {g : DepGraph} {p : Path} {combs : List (FSAccess × FSAccess)}
    {faults faults' : Faults} {d d' : Detector} (hd : CacheOk g d)
    (h : combs.foldlM (checkPair g p) (faults, d) = some (faults', d')) :
    CacheOk g d' ∧
      d'.eventInfo = (combs.flatMap fun c => [c.1, c.2]).foldl note d.eventInfo := by
  induction combs generalizing faults d with
  | nil =>
      cases h
      exact ⟨hd, rfl⟩
  | cons c combs ih =>
      rw [List.foldlM_cons] at h
      obtain ⟨⟨faults₁, d₁⟩, h1, h⟩ := Option.bind_eq_some_iff.mp h
      obtain ⟨hd', he⟩ := ih (checkPair_spec hd h1).2 h
      refine ⟨hd', ?_⟩
      rw [he, checkPair_eventInfo h1, List.flatMap_cons, List.foldl_append]

/-- **What `GetFaults` leaves in the tables.** -/
theorem getFaults_eventInfo {g : DepGraph} {fsAccesses : EffectTable} {faults : Faults}
    {d d' : Detector} (hd : CacheOk g d) (h : getFaults g fsAccesses d = some (faults, d')) :
    CacheOk g d' ∧ d'.eventInfo = (notes fsAccesses.toList).foldl note d.eventInfo := by
  unfold getFaults at h
  generalize fsAccesses.toList = rows at h ⊢
  generalize (∅ : Faults) = faults₀ at h
  induction rows generalizing faults₀ d with
  | nil =>
      cases h
      exact ⟨hd, rfl⟩
  | cons row rows ih =>
      rw [List.foldlM_cons] at h
      obtain ⟨⟨faults₁, d₁⟩, h1, h⟩ := Option.bind_eq_some_iff.mp h
      obtain ⟨hd₁, he₁⟩ := checkPath_eventInfo hd h1
      obtain ⟨hd', he⟩ := ih hd₁ _ h
      refine ⟨hd', ?_⟩
      unfold notes at he ⊢
      rw [he, he₁, List.flatMap_cons, List.foldl_append]

/-- The last note of an event counts. -/
theorem getValue_notes (xs : List FSAccess) (t : Table String DebugInfo compare) (event : String) :
    (xs.foldl note t).getValue event =
      ((xs.filter (·.eventId = event)).getLast?.map (·.debugInfo)).or (t.getValue event) := by
  induction xs using List.reverseRecOn with
  | nil => rfl
  | append_singleton xs x ih =>
      rw [List.foldl_concat, note, Table.getValue_addEntry, ih, List.filter_append]
      by_cases he : x.eventId = event <;> simp [he]

theorem of_mem_get2Combinations {α : Type} {l : List α} {x y : α}
    (h : (x, y) ∈ get2Combinations l) : x ∈ l ∧ y ∈ l := by
  induction l with
  | nil => cases h
  | cons z l ih =>
      rcases List.mem_append.mp h with h | h
      · obtain ⟨w, hw, he⟩ := List.mem_map.mp h
        cases he
        exact ⟨List.mem_cons_self, hw⟩
      · exact ⟨List.mem_cons_of_mem _ (ih h).1, List.mem_cons_of_mem _ (ih h).2⟩

theorem self_mem_get2Combinations {α : Type} {l : List α} {x : α} (h : x ∈ l) :
    (x, x) ∈ get2Combinations l := by
  induction l with
  | nil => cases h
  | cons z l ih =>
      rw [get2Combinations, List.mem_append]
      rcases List.mem_cons.mp h with rfl | h
      · exact .inl (List.mem_map_of_mem List.mem_cons_self)
      · exact .inr (ih h)

/-- A row notes its accesses. -/
theorem mem_notes_singleton {row : Path × List FSAccess} {x : FSAccess} :
    x ∈ notes [row] ↔ x ∈ row.2 := by
  unfold notes
  rw [List.flatMap_singleton, List.mem_flatMap]
  constructor
  · intro h
    obtain ⟨⟨y, z⟩, hc, hx⟩ := h
    obtain ⟨hy, hz⟩ := of_mem_get2Combinations hc
    simp only [List.mem_cons, List.not_mem_nil, or_false] at hx
    rcases hx with rfl | rfl
    · exact hy
    · exact hz
  · exact fun h => ⟨(x, x), self_mem_get2Combinations h, List.mem_cons_self⟩

/-- **The last note of an event** is its access to the last of its paths. -/
theorem lastNote {rows : List (Path × List FSAccess)}
    (hs : rows.Pairwise fun r r' => Path.cmp r.1 r'.1 = .lt) {event : String}
    (he : ∃ r ∈ rows, ∃ x ∈ r.2, x.eventId = event) :
    ∃ r ∈ rows, ∃ x ∈ r.2, x.eventId = event ∧
      ((notes rows).filter (·.eventId = event)).getLast? = some x ∧
      ∀ r' ∈ rows, ∀ y ∈ r'.2, y.eventId = event → Path.cmp r'.1 r.1 ≠ .gt := by
  induction rows using List.reverseRecOn with
  | nil =>
      obtain ⟨r, hr, -⟩ := he
      cases hr
  | append_singleton rows row ih =>
      have hnotes : notes (rows ++ [row]) = notes rows ++ notes [row] := by
        unfold notes
        rw [List.flatMap_append]
      obtain ⟨hrows, -, hlt⟩ := List.pairwise_append.mp hs
      rw [hnotes, List.filter_append, List.getLast?_append]
      cases hlast : ((notes [row]).filter (·.eventId = event)).getLast? with
      | some x =>
          obtain ⟨hx, hxe⟩ := List.mem_filter.mp (List.mem_of_getLast? hlast)
          refine ⟨row, by simp, x, mem_notes_singleton.mp hx, of_decide_eq_true hxe, rfl, ?_⟩
          intro r' hr' y _ _
          rcases List.mem_append.mp hr' with hr' | hr'
          · rw [hlt r' hr' row (by simp)]
            decide
          · cases List.mem_singleton.mp hr'
            have hself : Path.cmp row.1 row.1 = .eq := Std.ReflCmp.compare_self
            rw [hself]
            decide
      | none =>
          have hno : ∀ x ∈ row.2, x.eventId ≠ event := by
            intro x hx hxe
            have hmem : x ∈ (notes [row]).filter (·.eventId = event) :=
              List.mem_filter.mpr ⟨mem_notes_singleton.mpr hx, decide_eq_true hxe⟩
            rw [List.getLast?_eq_none_iff.mp hlast] at hmem
            cases hmem
          have hold : ∀ r ∈ rows ++ [row], ∀ x ∈ r.2, x.eventId = event → r ∈ rows := by
            intro r hr x hx hxe
            rcases List.mem_append.mp hr with hr | hr
            · exact hr
            · cases List.mem_singleton.mp hr
              exact absurd hxe (hno x hx)
          obtain ⟨r, hr, x, hx, hxe⟩ := he
          obtain ⟨r₁, hr₁, x₁, hx₁, hxe₁, hlast₁, hmax⟩ :=
            ih hrows ⟨r, hold r hr x hx hxe, x, hx, hxe⟩
          refine ⟨r₁, List.mem_append_left _ hr₁, x₁, hx₁, hxe₁, ?_, ?_⟩
          · rw [hlast₁]
            rfl
          · exact fun r' hr' y hy hye => hmax r' (hold r' hr' y hy hye) y hy hye

theorem debugInfoStr_eq_empty {tags : DebugInfo} : debugInfoStr tags = "" ↔ tags = [] := by
  cases tags with
  | nil => simp [debugInfoStr]
  | cons tag tags =>
      have hne : (debugInfoStr (tag :: tags)).toList ≠ "".toList := by simp [debugInfoStr]
      exact ⟨fun h => absurd (congrArg String.toList h) hne, fun h => by cases h⟩

/-- The access whose tags are shown. -/
theorem exists_lastNote {fsAccesses : EffectTable} {p event : String} {x : FSAccess}
    (hx : HasAccess fsAccesses p x) (he : x.eventId = event) : ∃ q y, HasAccess fsAccesses q y ∧
      y.eventId = event ∧
      (∀ r z, HasAccess fsAccesses r z → z.eventId = event → Path.cmp ⟨r⟩ ⟨q⟩ ≠ .gt) ∧
      ∀ t, ((notes fsAccesses.toList).foldl note t).getValue event = some y.debugInfo := by
  obtain ⟨row, hr, hx⟩ := hx
  obtain ⟨⟨⟨q⟩, as⟩, hr, y, hy, hye, hlast, hmax⟩ :=
    lastNote Std.TreeMap.ordered_keys_toList ⟨_, hr, x, hx, he⟩
  refine ⟨q, y, ⟨as, hr, hy⟩, hye, fun r z hz hze => ?_, fun t => ?_⟩
  · obtain ⟨row', hr', hz⟩ := hz
    exact hmax (⟨r⟩, row') hr' z hz hze
  · rw [getValue_notes, hlast]
    rfl

theorem tagStr_of_value {d : Detector} {event : String} {tags : DebugInfo}
    (h : d.eventInfo.getValue event = some tags) :
    d.tagStr event = if tags = [] then "empty" else debugInfoStr tags := by
  unfold tagStr
  rw [h]
  dsimp only
  by_cases hn : tags = []
  · rw [if_pos hn, if_neg (not_not.mpr (debugInfoStr_eq_empty.mpr hn))]
  · rw [if_neg hn, if_pos (mt debugInfoStr_eq_empty.mp hn)]

/-- **The tags of an event with an access**, whatever the table held before. -/
theorem tagsOf_tagStr {fsAccesses : EffectTable} {d : Detector}
    {t : Table String DebugInfo compare}
    (hd : d.eventInfo = (notes fsAccesses.toList).foldl note t) {p event : String} {x : FSAccess}
    (hx : HasAccess fsAccesses p x) (he : x.eventId = event) :
    TagsOf fsAccesses event (d.tagStr event) := by
  obtain ⟨q, y, hy, hye, hmax, hvalue⟩ := exists_lastNote hx he
  exact ⟨q, y, hy, hye, hmax, tagStr_of_value (hd ▸ hvalue t)⟩

theorem tagStr_eq {fsAccesses : EffectTable} {d d' : Detector}
    {t t' : Table String DebugInfo compare}
    (hd : d.eventInfo = (notes fsAccesses.toList).foldl note t)
    (hd' : d'.eventInfo = (notes fsAccesses.toList).foldl note t') {p event : String}
    {x : FSAccess} (hx : HasAccess fsAccesses p x) (he : x.eventId = event) :
    d.tagStr event = d'.tagStr event := by
  obtain ⟨q, y, -, -, -, hvalue⟩ := exists_lastNote hx he
  rw [tagStr_of_value (hd ▸ hvalue t), tagStr_of_value (hd' ▸ hvalue t')]

/-! ## 4. The races -/

/-- What is entered under a pair of events: a race of accesses of the two. -/
structure Describes (g : DepGraph) (fsAccesses : EffectTable) (k : String × String)
    (d : FaultDesc) : Prop where
  first : d.fsAccess1.eventId = k.1
  second : d.fsAccess2.eventId = k.2
  access1 : HasAccess fsAccesses d.p d.fsAccess1
  access2 : HasAccess fsAccesses d.p d.fsAccess2
  races : Races g d.fsAccess1 d.fsAccess2

/-- Every description in the result is one of those. -/
def Described (g : DepGraph) (fsAccesses : EffectTable) (faults : Faults) : Prop :=
  ∀ k ds d, faults[k]? = some ds → d ∈ ds.toList → Describes g fsAccesses k d

theorem described_report {g : DepGraph} {fsAccesses : EffectTable} {faults : Faults}
    (h : Described g fsAccesses faults) {p : Path} {x y : FSAccess}
    (hx : HasAccess fsAccesses p.native x) (hy : HasAccess fsAccesses p.native y)
    (hR : Races g x y) : Described g fsAccesses (report faults p (x, y)) := by
  intro k ds d hk hd
  rw [report_eq, Std.TreeMap.getElem?_insert] at hk
  split at hk
  · rename_i he
    cases Std.LawfulEqCmp.eq_of_compare he
    cases hk
    rcases Ordered.mem_toList_insert hd with rfl | hd
    · exact ⟨rfl, rfl, hx, hy, hR⟩
    · cases hf : faults[(x.eventId, y.eventId)]? with
      | none =>
          rw [hf] at hd
          exact absurd (Std.TreeSet.mem_of_mem_toList hd) Std.TreeSet.not_mem_emptyc
      | some ds =>
          rw [hf] at hd
          exact h _ ds d hf hd
  · exact h k ds d hk hd

/-- **`GetFaults` describes races only.** -/
theorem described_faultsOf (g : DepGraph) (fsAccesses : EffectTable) :
    Described g fsAccesses (faultsOf g fsAccesses) := by
  unfold faultsOf
  refine List.foldlRecOn _ _ (fun k ds d hk _ => by simp at hk) fun faults hf row hrow => ?_
  refine List.foldlRecOn _ _ hf fun faults hf c hc => ?_
  unfold addFault
  split
  · rename_i hR
    obtain ⟨hx, hy⟩ := of_mem_get2Combinations hc
    exact described_report hf ⟨_, hrow, hx⟩ ⟨_, hrow, hy⟩ hR
  · exact hf

/-- An entry of the result. -/
def raceEntry (faultEntry : (String × String) × Std.TreeSet FaultDesc faultCmp) : RaceEntry :=
  ⟨faultEntry.1.1, faultEntry.1.2, faultEntry.2.toList⟩

/-- The entries of the result. -/
def entriesOf (faults : Faults) : List RaceEntry := faults.toList.map raceEntry

theorem mem_of_faultDescs {faults : Faults} {k : String × String}
    {ds : Std.TreeSet FaultDesc faultCmp} (h : faults[k]? = some ds) : k ∈ faults :=
  Std.TreeMap.mem_iff_isSome_getElem?.mpr (Option.isSome_of_eq_some h)

theorem mem_entriesOf {faults : Faults} {e : RaceEntry} : e ∈ entriesOf faults ↔
    ∃ ds, faults[(e.first, e.second)]? = some ds ∧ ds.toList = e.descs := by
  obtain ⟨a, b, descs⟩ := e
  unfold entriesOf
  rw [List.mem_map]
  constructor
  · intro h
    obtain ⟨⟨k, ds⟩, hm, he⟩ := h
    cases he
    exact ⟨ds, (Std.TreeMap.mem_toList_iff_getElem?_eq_some.mp hm), rfl⟩
  · intro h
    obtain ⟨ds, hk, rfl⟩ := h
    exact ⟨((a, b), ds), Std.TreeMap.mem_toList_iff_getElem?_eq_some.mpr hk, rfl⟩

theorem dumpFaults_eq (d : Detector) (faults : Faults) :
    d.dumpFaults faults = reportLines d.tagStr (entriesOf faults) := by
  unfold dumpFaults entriesOf
  have hsize : faults.toList.length = faults.size := Std.TreeMap.length_toList
  cases hl : faults.toList with
  | nil =>
      rw [hl] at hsize
      have hempty : faults.isEmpty = true := by
        rw [Std.TreeMap.isEmpty_eq_size_eq_zero, ← hsize]
        rfl
      rw [if_pos hempty]
      rfl
  | cons entry entries =>
      rw [hl] at hsize
      have hempty : ¬ faults.isEmpty = true := by
        rw [Std.TreeMap.isEmpty_eq_size_eq_zero, ← hsize]
        simp
      rw [if_neg hempty, ← hsize, List.map_cons, reportLines, List.length_map]
      congr 1
      rw [← List.map_cons, List.flatMap_map]
      rfl

theorem pairwise_entriesOf (faults : Faults) : (entriesOf faults).Pairwise fun e e' =>
    e.first < e'.first ∨ e.first = e'.first ∧ e.second < e'.second := by
  unfold entriesOf
  rw [List.pairwise_map]
  refine Std.TreeMap.ordered_keys_toList.imp fun {a b} h => ?_
  rcases Ordering.then_eq_lt.mp h with h | ⟨h, h'⟩
  · exact .inl (compare_lt_iff_lt.mp h)
  · exact .inr ⟨Std.LawfulEqCmp.eq_of_compare h, compare_lt_iff_lt.mp h'⟩

/-- **The descriptions of an entry**: `Listed` finds them by their path, `Describes` says what
    they are. -/
theorem mem_descs {g : DepGraph} {fsAccesses : EffectTable} (ho : RowsOrdered fsAccesses)
    {e : RaceEntry} (he : e ∈ entriesOf (faultsOf g fsAccesses)) {d : FaultDesc} :
    d ∈ e.descs ↔ Describes g fsAccesses (e.first, e.second) d := by
  obtain ⟨ds, hk, hds⟩ := mem_entriesOf.mp he
  rw [← hds]
  refine ⟨described_faultsOf g fsAccesses _ ds d hk, fun h => ?_⟩
  have hab : e.first < e.second :=
    lt_of_mem_faultsOf ho (mem_of_faultDescs hk)
  obtain ⟨ds', d₁, hk', hd₁, hp⟩ := (listed_faultsOf ho).mpr
    ⟨hab, d.fsAccess1, d.fsAccess2, h.access1, h.access2, h.first, h.second, h.races⟩
  cases hk.symm.trans hk'
  obtain ⟨d₂, hd₂, hcmp⟩ := Ordered.exists_mem_toList hd₁
  have h₂ := described_faultsOf g fsAccesses _ ds d₂ hk hd₂
  have hp₂ : d₂.p = d.p := (faultCmp_eq_iff.mp hcmp).trans hp
  have h1 : d₂.fsAccess1 = d.fsAccess1 :=
    hasAccess_unique ho (hp₂ ▸ h₂.access1) h.access1 (h₂.first.trans h.first.symm)
  have h2 : d₂.fsAccess2 = d.fsAccess2 :=
    hasAccess_unique ho (hp₂ ▸ h₂.access2) h.access2 (h₂.second.trans h.second.symm)
  obtain ⟨p, x, y⟩ := d
  obtain ⟨p₂, x₂, y₂⟩ := d₂
  cases hp₂
  cases h1
  cases h2
  exact hd₂

theorem exactReport_faultsOf {g : DepGraph} (hg : g.Closed) {fsAccesses : EffectTable}
    (ho : RowsOrdered fsAccesses) {d : Detector} {t : Table String DebugInfo compare}
    (hd : d.eventInfo = (notes fsAccesses.toList).foldl note t) :
    ExactReport g fsAccesses d.tagStr (entriesOf (faultsOf g fsAccesses)) where
  sorted := pairwise_entriesOf _
  descs e he := by
    obtain ⟨ds, hk, hds⟩ := mem_entriesOf.mp he
    constructor
    · obtain ⟨p, ds', d₁, hk', hd₁, -⟩ := noEmptyKey_faultsOf g fsAccesses e.first e.second
        (mem_of_faultDescs hk)
      cases hk.symm.trans hk'
      obtain ⟨d₂, hd₂, -⟩ := Ordered.exists_mem_toList hd₁
      exact List.ne_nil_of_mem (hds ▸ hd₂)
    · rw [← hds]
      exact ds.ordered_toList.imp fun h => compare_lt_iff_lt.mp h
  races p x y := by
    constructor
    · intro h
      obtain ⟨e, he, h1, h2, hm⟩ := h
      have hdesc := (mem_descs ho he).mp hm
      have hlisted := ((exactFaults_faultsOf hg ho).listed x.eventId y.eventId p).mp ?_
      · obtain ⟨hab, x', y', hx', hy', hx, hy, heff, hrest⟩ := hlisted
        cases hasAccess_unique ho hx' hdesc.access1 hx
        cases hasAccess_unique ho hy' hdesc.access2 hy
        exact ⟨hab, hx', hy', heff, hrest⟩
      · obtain ⟨ds, hk, hds⟩ := mem_entriesOf.mp he
        rw [h1, h2] at hk
        exact ⟨ds, _, hk, Std.TreeSet.mem_of_mem_toList (hds ▸ hm), rfl⟩
    · intro h
      obtain ⟨hab, hx, hy, heff, hrest⟩ := h
      have hlisted := ((exactFaults_faultsOf hg ho).listed x.eventId y.eventId p).mpr
        ⟨hab, x, y, hx, hy, rfl, rfl, heff, hrest⟩
      obtain ⟨-, x', y', hx', hy', hx'e, hy'e, hR⟩ := (listed_faultsOf ho).mp hlisted
      cases hasAccess_unique ho hx' hx hx'e
      cases hasAccess_unique ho hy' hy hy'e
      obtain ⟨ds, d₁, hk, -⟩ := hlisted
      have he : (⟨x.eventId, y.eventId, ds.toList⟩ : RaceEntry) ∈
          entriesOf (faultsOf g fsAccesses) := mem_entriesOf.mpr ⟨ds, hk, rfl⟩
      exact ⟨_, he, rfl, rfl, (mem_descs ho he).mpr ⟨rfl, rfl, hx, hy, hR⟩⟩
  own e he d₁ hd₁ := by
    have h := (mem_descs ho he).mp hd₁
    exact ⟨h.first, h.second⟩
  tags e he := by
    obtain ⟨ds, hk, -⟩ := mem_entriesOf.mp he
    obtain ⟨p, hp⟩ := noEmptyKey_faultsOf g fsAccesses e.first e.second
      (mem_of_faultDescs hk)
    obtain ⟨-, x, y, hx, hy, hxe, hye, -⟩ := (listed_faultsOf ho).mp hp
    exact ⟨tagsOf_tagStr hd hx hxe, tagsOf_tagStr hd hy hye⟩

/-! ## 5. `Detect` is exact -/

theorem reportLines_congr {tags tags' : String → String} {entries : List RaceEntry}
    (h : ∀ e ∈ entries, tags e.first = tags' e.first ∧ tags e.second = tags' e.second) :
    reportLines tags entries = reportLines tags' entries := by
  have hlines : entries.flatMap (RaceEntry.lines tags) =
      entries.flatMap (RaceEntry.lines tags') := by
    refine List.flatMap_congr fun e he => ?_
    unfold RaceEntry.lines
    rw [(h e he).1, (h e he).2]
  cases entries with
  | nil => rfl
  | cons e es =>
      rw [reportLines, reportLines, hlines]

/-- A report of an analysed trace on a closed graph. -/
theorem exactReport_analyze {trace : Trace} {st : FsState} {g : DepGraph}
    (ht : FSAnalyzer.analyze trace = .ok st) (hg : g.Closed) :
    ∃ tags entries, ExactReport g st.effectTable tags entries ∧
      ∀ d, CacheOk g d → ∃ d', detect g st.effectTable d = some (reportLines tags entries, d') ∧
        CacheOk g d' := by
  have ho := rowsOrdered_analyze ht
  let d₀ : Detector := ⟨(notes st.effectTable.toList).foldl note ∅, ∅⟩
  refine ⟨d₀.tagStr, entriesOf (faultsOf g st.effectTable), exactReport_faultsOf hg ho rfl,
    fun d hd => ?_⟩
  obtain ⟨faults, d', h⟩ := getFaults_returns hg st.effectTable d
  obtain ⟨hd', he⟩ := getFaults_eventInfo hd h
  refine ⟨d', ?_, hd'⟩
  cases getFaults_eq hd h
  have hlines : reportLines d'.tagStr (entriesOf (faultsOf g st.effectTable)) =
      reportLines d₀.tagStr (entriesOf (faultsOf g st.effectTable)) := by
    refine reportLines_congr fun e hm => ?_
    obtain ⟨ds, hk, -⟩ := mem_entriesOf.mp hm
    obtain ⟨p, hp⟩ := noEmptyKey_faultsOf g _ e.first e.second (mem_of_faultDescs hk)
    obtain ⟨-, x, y, hx, hy, hxe, hye, -⟩ := (listed_faultsOf ho).mp hp
    exact ⟨tagStr_eq he rfl hx hxe, tagStr_eq he rfl hy hye⟩
  unfold detect
  rw [h, ← hlines, ← dumpFaults_eq]
  rfl

/-- **`Detect` is exact.** For an analysed trace and a closed graph the report shows the races,
    whatever was queried before, and it shows them again when it is asked for again. -/
theorem detect_exact {trace : Trace} {st : FsState} {g : DepGraph}
    (ht : FSAnalyzer.analyze trace = .ok st) (hg : g.Closed) :
    ∃ tags entries, ExactReport g st.effectTable tags entries ∧
      ∀ queries, ∃ d d' d'', afterQueries g .init queries = some d ∧
        detect g st.effectTable d = some (reportLines tags entries, d') ∧
        detect g st.effectTable d' = some (reportLines tags entries, d'') := by
  obtain ⟨tags, entries, hexact, hdetect⟩ := exactReport_analyze ht hg
  refine ⟨tags, entries, hexact, fun queries => ?_⟩
  obtain ⟨d, hd, hc⟩ := afterQueries_spec hg (cacheOk_init g) queries
  obtain ⟨d', hd', hc'⟩ := hdetect d hc
  obtain ⟨d'', hd'', -⟩ := hdetect d' hc'
  exact ⟨d, d', d'', hd, hd', hd''⟩

/-- The report about the two writers. -/
theorem detect_exact_twoWriters : ∃ st tags entries,
    FSAnalyzer.analyze twoWriters = .ok st ∧
      ExactReport (dependencyGraph twoWriters) st.effectTable tags entries ∧
      ∀ queries, ∃ d d' d'', afterQueries (dependencyGraph twoWriters) .init queries = some d ∧
        detect (dependencyGraph twoWriters) st.effectTable d =
          some (reportLines tags entries, d') ∧
        detect (dependencyGraph twoWriters) st.effectTable d' =
          some (reportLines tags entries, d'') := by
  obtain ⟨st, hst, -⟩ : ∃ st, FSAnalyzer.analyze twoWriters = .ok st ∧
      st.effectTable.toList = [(⟨"/log"⟩, [⟨"4", .produced, [], ""⟩, ⟨"5", .produced, [], ""⟩])] :=
    FSAnalyzer.exists_analyze_eq_ok (by decide +kernel)
  have hclosed : (dependencyGraph twoWriters).Closed :=
    closed_of_no_link fun e => by simp [twoWriters, Trace.actions, Block.actions]
  obtain ⟨tags, entries, h⟩ := detect_exact hst hclosed
  exact ⟨st, tags, entries, hst, h⟩

end Detector

end Fsracer

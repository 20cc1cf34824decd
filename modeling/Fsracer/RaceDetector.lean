/-
  File:      Fsracer/RaceDetector.lean
  Subject:   THE RACE DETECTOR (lib/RaceDetector.h, lib/RaceDetector.cpp): `GetFaults` and the
             memoised `HappensBefore`.

  `Detector` has the two mutable tables of the class. `getFaults` is `none` where the assertion
  of `DFS` fails. Section 2 says that a cache filled by earlier queries changes no answer;
  **`getFaults_exact`** says what the result lists.

  `DumpFaults` is in `Report`.
-/
import Mathlib
import Fsracer.Links
import Fsracer.Accesses

namespace Fsracer

open Relation

/-! ## 1. The detector -/

/-- `FaultDesc`. -/
structure FaultDesc where
  p : String
  fsAccess1 : FSAccess
  fsAccess2 : FSAccess
  deriving DecidableEq, Repr

/-- `operator<` of `FaultDesc` looks at the path only. -/
def faultCmp : FaultDesc → FaultDesc → Ordering := compareOn (·.p)

instance : Std.TransCmp faultCmp := inferInstanceAs (Std.TransCmp (compareOn _))

/-- `faults_t`. -/
abbrev Faults :=
  Std.TreeMap (String × String) (Std.TreeSet FaultDesc faultCmp) (Ordered.pairCmp String String)

/-- The mutable fields of `RaceDetector`. -/
structure Detector where
  eventInfo : Table String DebugInfo compare
  cacheDfs : Std.TreeMap String (Std.TreeSet String)

namespace Detector

/-- The detector before its first query. -/
def init : Detector := ⟨∅, ∅⟩

/-- `HasConflict`. -/
def hasConflict (acc1 acc2 : FSAccess) : Bool :=
  match acc1.effectType with
  | .consumed => !consumes acc2.effectType
  | .produced | .expunged => true

/-- `HappensBefore`. -/
def happensBefore (g : DepGraph) (d : Detector) (source target : String) :
    Option (Bool × Detector) :=
  match g.getNodeInfo source, g.getNodeInfo target with
  | some sourceInfo, some targetInfo =>
      if sourceInfo.nodeObj.eventType = .MAIN ∧ targetInfo.nodeObj.eventType = .MAIN then
        some (true, d)
      else
        match d.cacheDfs[source]? with
        | none =>
            match g.dfs source with
            | .done visited =>
                some (visited.contains target,
                  { d with cacheDfs := d.cacheDfs.insert source visited })
            | _ => none
        | some visited => some (visited.contains target, d)
  | _, _ => some (false, d)

/-- `utils::Get2Combinations`: every element with itself and with all behind it. -/
def get2Combinations {α : Type} : List α → List (α × α)
  | [] => []
  | x :: xs => (x :: xs).map (fun y => (x, y)) ++ get2Combinations xs

/-- A found fault is entered under its pair of events. -/
def report (faults : Faults) (p : Path) (access : FSAccess × FSAccess) : Faults :=
  let pairElement := (access.1.eventId, access.2.eventId)
  let faultDesc : FaultDesc := ⟨p.native, access.1, access.2⟩
  match faults[pairElement]? with
  | none => faults.insert pairElement (Std.TreeSet.empty.insert faultDesc)
  | some faultDescs => faults.insert pairElement (faultDescs.insert faultDesc)

/-- `HappensBefore(first, second) || HappensBefore(second, first)`. -/
def hasDep (g : DepGraph) (d : Detector) (first second : String) : Option (Bool × Detector) := do
  let (r, d) ← happensBefore g d first second
  if r then return (true, d) else happensBefore g d second first

/-- The body of the inner loop of `GetFaults`. -/
def checkPair (g : DepGraph) (p : Path) (s : Faults × Detector) (access : FSAccess × FSAccess) :
    Option (Faults × Detector) :=
  let (faults, d) := s
  let d := { d with
    eventInfo := (d.eventInfo.addEntry access.1.eventId access.1.debugInfo).addEntry
      access.2.eventId access.2.debugInfo }
  if access.1.eventId = access.2.eventId then some (faults, d)
  else if hasConflict access.1 access.2 = false then some (faults, d)
  else
    match hasDep g d access.1.eventId access.2.eventId with
    | none => none
    | some (true, d) => some (faults, d)
    | some (false, d) => some (report faults p access, d)

/-- The body of the outer loop of `GetFaults`. -/
def checkPath (g : DepGraph) (s : Faults × Detector) (fsAccess : Path × List FSAccess) :
    Option (Faults × Detector) :=
  (get2Combinations fsAccess.2).foldlM (checkPair g fsAccess.1) s

/-- `GetFaults`, in the detector that earlier queries left. -/
def getFaults (g : DepGraph) (fsAccesses : EffectTable) (d : Detector) :
    Option (Faults × Detector) :=
  fsAccesses.toList.foldlM (checkPath g) (∅, d)

/-- The detector after some queries of `HappensBefore`. -/
def afterQueries (g : DepGraph) (d : Detector) (queries : List (String × String)) :
    Option Detector :=
  queries.foldlM (fun d q => (happensBefore g d q.1 q.2).map (·.2)) d

/-! ## 2. The cache -/

/-- `x` is a main block of the graph. -/
def IsMainNode (g : DepGraph) (x : String) : Prop :=
  ∃ e, g.objOf x = some e ∧ e.eventType = .MAIN

instance (g : DepGraph) (x : String) : Decidable (IsMainNode g x) :=
  decidable_of_iff ((g.objOf x).any (·.eventType = .MAIN)) (by simp [IsMainNode, Option.any_eq_true])

/-- What `HappensBefore` answers. -/
def Precedes (g : DepGraph) (x y : String) : Prop :=
  g.HasNode x ∧ g.HasNode y ∧ ((IsMainNode g x ∧ IsMainNode g y) ∨ ReflTransGen g.Edge x y)

/-- Every cached set is the set of nodes that its source reaches. -/
def CacheOk (g : DepGraph) (d : Detector) : Prop :=
  ∀ s visited, d.cacheDfs[s]? = some visited → ∀ y, y ∈ visited ↔ ReflTransGen g.Edge s y

theorem cacheOk_init (g : DepGraph) : CacheOk g .init := by
  intro s visited h
  simp [init] at h

theorem cacheOk_insert {g : DepGraph} {d : Detector} (h : CacheOk g d) {s : String}
    {visited : Std.TreeSet String} (hs : g.dfs s = .done visited) :
    CacheOk g { d with cacheDfs := d.cacheDfs.insert s visited } := by
  intro s' visited' h' y
  rw [Std.TreeMap.getElem?_insert] at h'
  split at h'
  · rename_i he
    cases h'
    rw [← Std.compare_eq_iff_eq.mp he]
    exact Graph.mem_of_dfs hs y
  · exact h s' visited' h' y

theorem isMainNode_iff {g : DepGraph} {x : String} {n : EventInfo} (h : g.getNodeInfo x = some n) :
    IsMainNode g x ↔ n.nodeObj.eventType = .MAIN := by
  simp [IsMainNode, Graph.objOf, h]

/-- **The cache changes no answer**: `HappensBefore` answers what the graph says and leaves a
    correct cache. -/
theorem happensBefore_spec {g : DepGraph} {d d' : Detector} (hd : CacheOk g d) {x y : String}
    {r : Bool} (h : happensBefore g d x y = some (r, d')) :
    (r = true ↔ Precedes g x y) ∧ CacheOk g d' := by
  unfold happensBefore at h
  unfold Precedes
  cases hx : g.getNodeInfo x with
  | none =>
      simp only [hx, Option.some.injEq, Prod.mk.injEq] at h
      obtain ⟨rfl, rfl⟩ := h
      exact ⟨by simp [Graph.HasNode, hx], hd⟩
  | some nx =>
      cases hy : g.getNodeInfo y with
      | none =>
          simp only [hx, hy, Option.some.injEq, Prod.mk.injEq] at h
          obtain ⟨rfl, rfl⟩ := h
          exact ⟨by simp [Graph.HasNode, hy], hd⟩
      | some ny =>
          have hnx : g.HasNode x := Graph.hasNode_of_some hx
          have hny : g.HasNode y := Graph.hasNode_of_some hy
          rw [isMainNode_iff hx, isMainNode_iff hy]
          simp only [hx, hy] at h
          by_cases hm : nx.nodeObj.eventType = .MAIN ∧ ny.nodeObj.eventType = .MAIN
          · rw [if_pos hm] at h
            cases h
            exact ⟨by simp [hnx, hny, hm], hd⟩
          · rw [if_neg hm] at h
            cases hc : d.cacheDfs[x]? with
            | some visited =>
                rw [hc] at h
                cases h
                rw [← Std.TreeSet.mem_iff_contains, hd x visited hc y]
                exact ⟨by simp [hnx, hny, hm], hd⟩
            | none =>
                rw [hc] at h
                cases hv : g.dfs x with
                | done visited =>
                    rw [hv] at h
                    cases h
                    rw [← Std.TreeSet.mem_iff_contains, Graph.mem_of_dfs hv y]
                    exact ⟨by simp [hnx, hny, hm], cacheOk_insert hd hv⟩
                | failed z => simp [hv] at h
                | outOfFuel => simp [hv] at h

/-- In a closed graph `HappensBefore` returns. -/
theorem happensBefore_returns {g : DepGraph} (hg : g.Closed) (d : Detector) (x y : String) :
    ∃ r d', happensBefore g d x y = some (r, d') := by
  unfold happensBefore
  cases hx : g.getNodeInfo x with
  | none => exact ⟨_, _, rfl⟩
  | some nx =>
      cases g.getNodeInfo y with
      | none => exact ⟨_, _, rfl⟩
      | some ny =>
          dsimp only
          split
          · exact ⟨_, _, rfl⟩
          · cases d.cacheDfs[x]? with
            | some visited => exact ⟨_, _, rfl⟩
            | none =>
                obtain ⟨visited, hv⟩ := hg.dfs_done (Graph.hasNode_of_some hx)
                rw [hv]
                exact ⟨_, _, rfl⟩

theorem hasDep_spec {g : DepGraph} {d d' : Detector} (hd : CacheOk g d) {x y : String} {r : Bool}
    (h : hasDep g d x y = some (r, d')) :
    (r = true ↔ Precedes g x y ∨ Precedes g y x) ∧ CacheOk g d' := by
  unfold hasDep at h
  obtain ⟨⟨r1, d1⟩, h1, h⟩ := Option.bind_eq_some_iff.mp h
  obtain ⟨hr1, hd1⟩ := happensBefore_spec hd h1
  cases r1 with
  | true =>
      cases h
      exact ⟨by simp [← hr1], hd1⟩
  | false =>
      obtain ⟨hr, hd'⟩ := happensBefore_spec hd1 h
      refine ⟨?_, hd'⟩
      rw [hr, ← hr1]
      simp

theorem hasDep_returns {g : DepGraph} (hg : g.Closed) (d : Detector) (x y : String) :
    ∃ r d', hasDep g d x y = some (r, d') := by
  obtain ⟨r, d', h⟩ := happensBefore_returns hg d x y
  unfold hasDep
  rw [h]
  cases r with
  | true => exact ⟨true, d', rfl⟩
  | false => exact happensBefore_returns hg d' y x

/-- Queries of a closed graph return and leave a correct cache. -/
theorem afterQueries_spec {g : DepGraph} (hg : g.Closed) {d : Detector} (hd : CacheOk g d)
    (queries : List (String × String)) : ∃ d', afterQueries g d queries = some d' ∧ CacheOk g d' := by
  unfold afterQueries
  induction queries generalizing d with
  | nil => exact ⟨d, rfl, hd⟩
  | cons q queries ih =>
      obtain ⟨r, d', h⟩ := happensBefore_returns hg d q.1 q.2
      rw [List.foldlM_cons, h]
      exact ih (happensBefore_spec hd h).2

/-! ## 3. The verdict on two accesses -/

/-- Two accesses race: they are by different events, one of them changes the path, and neither
    event precedes the other. -/
structure Races (g : DepGraph) (x y : FSAccess) : Prop where
  ne : x.eventId ≠ y.eventId
  effect : x.effectType ≠ .consumed ∨ y.effectType ≠ .consumed
  left : ¬ Precedes g x.eventId y.eventId
  right : ¬ Precedes g y.eventId x.eventId

theorem Races.symm {g : DepGraph} {x y : FSAccess} (h : Races g x y) : Races g y x :=
  ⟨h.ne.symm, h.effect.symm, h.right, h.left⟩

theorem hasConflict_iff {x y : FSAccess} : hasConflict x y = true ↔
    x.effectType ≠ .consumed ∨ y.effectType ≠ .consumed := by
  unfold hasConflict
  cases x.effectType <;> cases y.effectType <;> simp [consumes]

theorem isMainNode_hasNode {g : DepGraph} {x : String} (h : IsMainNode g x) : g.HasNode x := by
  obtain ⟨e, he, _⟩ := h
  unfold Graph.objOf at he
  obtain ⟨n, hn, _⟩ := Option.map_eq_some_iff.mp he
  exact Graph.hasNode_of_some hn

/-- An event precedes another one as a main block or by a path. -/
theorem Precedes.main_or_path {g : DepGraph} {x y : String} (h : Precedes g x y) (hne : x ≠ y) :
    (IsMainNode g x ∧ IsMainNode g y) ∨ g.Path x y :=
  h.2.2.imp_right fun h => (reflTransGen_iff_eq_or_transGen.mp h).resolve_left hne.symm

/-- In a closed graph the ends of a path are nodes. -/
theorem precedes_iff {g : DepGraph} (hg : g.Closed) {x y : String} (hne : x ≠ y) :
    Precedes g x y ↔ (IsMainNode g x ∧ IsMainNode g y) ∨ g.Path x y := by
  refine ⟨fun h => h.main_or_path hne, fun h => ?_⟩
  rcases h with h | h
  · exact ⟨isMainNode_hasNode h.1, isMainNode_hasNode h.2, .inl h⟩
  · obtain ⟨z, _, hz⟩ := TransGen.tail'_iff.mp h
    exact ⟨Graph.path_hasNode h, hg z y hz, .inr h.to_reflTransGen⟩

open Classical in
/-- The body of the inner loop without the tables of the detector. -/
noncomputable def addFault (g : DepGraph) (p : Path) (faults : Faults)
    (access : FSAccess × FSAccess) : Faults :=
  if Races g access.1 access.2 then report faults p access else faults

/-- The loops of `GetFaults` without the tables of the detector. -/
noncomputable def faultsOf (g : DepGraph) (fsAccesses : EffectTable) : Faults :=
  fsAccesses.toList.foldl
    (fun faults fsAccess => (get2Combinations fsAccess.2).foldl (addFault g fsAccess.1) faults) ∅

/-- One pair: the tables of the detector do not show in the faults. -/
theorem checkPair_spec {g : DepGraph} {p : Path} {faults faults' : Faults} {d d' : Detector}
    (hd : CacheOk g d) {access : FSAccess × FSAccess}
    (h : checkPair g p (faults, d) access = some (faults', d')) :
    faults' = addFault g p faults access ∧ CacheOk g d' := by
  obtain ⟨x, y⟩ := access
  unfold checkPair at h
  unfold addFault
  dsimp only at h ⊢
  have hd₁ : CacheOk g { d with eventInfo :=
      (d.eventInfo.addEntry x.eventId x.debugInfo).addEntry y.eventId y.debugInfo } := hd
  generalize ({ d with eventInfo :=
      (d.eventInfo.addEntry x.eventId x.debugInfo).addEntry y.eventId y.debugInfo } : Detector) =
    d₁ at h hd₁
  by_cases hne : x.eventId = y.eventId
  · rw [if_pos hne] at h
    cases h
    exact ⟨(if_neg fun h => h.ne hne).symm, hd₁⟩
  · rw [if_neg hne] at h
    cases hc : hasConflict x y with
    | false =>
        rw [if_pos hc] at h
        cases h
        refine ⟨(if_neg fun h => ?_).symm, hd₁⟩
        rw [hasConflict_iff.mpr h.effect] at hc
        cases hc
    | true =>
        rw [if_neg (by rw [hc]; decide)] at h
        cases hdep : hasDep g d₁ x.eventId y.eventId with
        | none => simp [hdep] at h
        | some rd =>
            obtain ⟨r, d₂⟩ := rd
            obtain ⟨hr, hd₂⟩ := hasDep_spec hd₁ hdep
            rw [hdep] at h
            cases r with
            | true =>
                cases h
                exact ⟨(if_neg fun h => (hr.mp rfl).elim h.left h.right).symm, hd₂⟩
            | false =>
                cases h
                have hn : ¬ _ := fun h => Bool.false_ne_true (hr.mpr h)
                exact ⟨(if_pos ⟨hne, hasConflict_iff.mp hc, fun h => hn (.inl h),
                  fun h => hn (.inr h)⟩).symm, hd₂⟩

theorem checkPair_returns {g : DepGraph} (hg : g.Closed) (p : Path) (s : Faults × Detector)
    (access : FSAccess × FSAccess) : ∃ s', checkPair g p s access = some s' := by
  unfold checkPair
  dsimp only
  split
  · exact ⟨_, rfl⟩
  · split
    · exact ⟨_, rfl⟩
    · obtain ⟨r, d', h⟩ := hasDep_returns hg { s.2 with
        eventInfo := (s.2.eventInfo.addEntry access.1.eventId access.1.debugInfo).addEntry
          access.2.eventId access.2.debugInfo } access.1.eventId access.2.eventId
      rw [h]
      cases r <;> exact ⟨_, rfl⟩

theorem checkPath_spec {g : DepGraph} {p : Path} {faults faults' : Faults} {d d' : Detector}
    (hd : CacheOk g d) {combs : List (FSAccess × FSAccess)}
    (h : combs.foldlM (checkPair g p) (faults, d) = some (faults', d')) :
    faults' = combs.foldl (addFault g p) faults ∧ CacheOk g d' := by
  induction combs generalizing faults d with
  | nil =>
      cases h
      exact ⟨rfl, hd⟩
  | cons c combs ih =>
      rw [List.foldlM_cons] at h
      obtain ⟨⟨faults₁, d₁⟩, h1, h⟩ := Option.bind_eq_some_iff.mp h
      obtain ⟨rfl, hd₁⟩ := checkPair_spec hd h1
      exact ih hd₁ h

/-- A loop whose body returns returns. -/
theorem foldlM_returns {α β : Type} {f : β → α → Option β} (hf : ∀ b a, ∃ b', f b a = some b')
    (as : List α) (b : β) : ∃ b', as.foldlM f b = some b' := by
  induction as generalizing b with
  | nil => exact ⟨b, rfl⟩
  | cons a as ih =>
      obtain ⟨b', h⟩ := hf b a
      rw [List.foldlM_cons, h]
      exact ih b'

/-- **Where `GetFaults` returns, no cache changes its result.** -/
theorem getFaults_eq {g : DepGraph} {d d' : Detector} (hd : CacheOk g d)
    {fsAccesses : EffectTable} {faults : Faults}
    (h : getFaults g fsAccesses d = some (faults, d')) : faults = faultsOf g fsAccesses := by
  unfold getFaults at h
  unfold faultsOf
  generalize fsAccesses.toList = rows at h ⊢
  generalize (∅ : Faults) = faults₀ at h ⊢
  induction rows generalizing faults₀ d with
  | nil =>
      cases h
      rfl
  | cons row rows ih =>
      rw [List.foldlM_cons] at h
      obtain ⟨⟨faults₁, d₁⟩, h1, h⟩ := Option.bind_eq_some_iff.mp h
      obtain ⟨rfl, hd₁⟩ := checkPath_spec hd h1
      exact ih hd₁ _ h

/-- In a closed graph `GetFaults` returns. -/
theorem getFaults_returns {g : DepGraph} (hg : g.Closed) (fsAccesses : EffectTable)
    (d : Detector) : ∃ faults d', getFaults g fsAccesses d = some (faults, d') := by
  obtain ⟨⟨faults, d'⟩, h⟩ := foldlM_returns (f := checkPath g)
    (fun s row => foldlM_returns (checkPair_returns hg row.1) (get2Combinations row.2) s)
    fsAccesses.toList (∅, d)
  exact ⟨faults, d', h⟩

/-! ## 4. What the result lists -/

/-- Path `p` is listed under the key `(a, b)`. -/
def Listed (faults : Faults) (a b p : String) : Prop :=
  ∃ faultDescs d, faults[(a, b)]? = some faultDescs ∧ d ∈ faultDescs ∧ d.p = p

theorem faultCmp_eq_iff {d d' : FaultDesc} : faultCmp d d' = .eq ↔ d.p = d'.p := by
  unfold faultCmp compareOn
  exact Std.compare_eq_iff_eq

/-- A report is one insertion. -/
theorem report_eq (faults : Faults) (p : Path) (x y : FSAccess) : report faults p (x, y) =
    faults.insert (x.eventId, y.eventId)
      ((faults[(x.eventId, y.eventId)]?.getD .empty).insert ⟨p.native, x, y⟩) := by
  unfold report
  dsimp only
  cases faults[(x.eventId, y.eventId)]? <;> rfl

theorem mem_report {faults : Faults} {p : Path} {x y : FSAccess} {k : String × String} :
    k ∈ report faults p (x, y) ↔ (x.eventId, y.eventId) = k ∨ k ∈ faults := by
  rw [report_eq, Std.TreeMap.mem_insert, Std.LawfulEqCmp.compare_eq_iff_eq]

theorem listed_report {faults : Faults} {p : Path} {x y : FSAccess} {a b q : String} :
    Listed (report faults p (x, y)) a b q ↔
      Listed faults a b q ∨ (x.eventId = a ∧ y.eventId = b ∧ p.native = q) := by
  unfold Listed
  rw [report_eq, Std.TreeMap.getElem?_insert]
  simp only [Std.LawfulEqCmp.compare_eq_iff_eq, Prod.mk.injEq]
  by_cases hk : x.eventId = a ∧ y.eventId = b
  · obtain ⟨rfl, rfl⟩ := hk
    rw [if_pos ⟨rfl, rfl⟩]
    constructor
    · intro hc
      obtain ⟨ds, d, hs, hd, hp⟩ := hc
      cases hs
      rcases Std.TreeSet.mem_insert.mp hd with hd | hd
      · exact .inr ⟨rfl, rfl, (faultCmp_eq_iff.mp hd).trans hp⟩
      · cases hf : faults[(x.eventId, y.eventId)]? with
        | none => simp [hf] at hd
        | some ds =>
            rw [hf] at hd
            exact .inl ⟨ds, d, rfl, hd, hp⟩
    · intro h
      rcases h with ⟨ds, d, hs, hd, hp⟩ | ⟨_, _, hp⟩
      · refine ⟨_, d, rfl, Std.TreeSet.mem_insert.mpr (.inr ?_), hp⟩
        rw [hs]
        exact hd
      · exact ⟨_, ⟨p.native, x, y⟩, rfl, Std.TreeSet.mem_insert_self, hp⟩
  · rw [if_neg hk]
    exact ⟨.inl, fun h => h.resolve_right fun ⟨h1, h2, _⟩ => hk ⟨h1, h2⟩⟩

/-- The pairs of a list: an element with itself, or two elements in their order. -/
theorem mem_get2Combinations {α : Type} {R : α → α → Prop} {l : List α} (h : l.Pairwise R)
    (hasymm : ∀ x y, R x y → ¬ R y x) {x y : α} (hne : x ≠ y) :
    (x, y) ∈ get2Combinations l ↔ x ∈ l ∧ y ∈ l ∧ R x y := by
  induction l with
  | nil => simp [get2Combinations]
  | cons z l ih =>
      obtain ⟨hz, hl⟩ := List.pairwise_cons.mp h
      rw [get2Combinations, List.mem_append, ih hl, List.mem_map]
      constructor
      · intro hm
        rcases hm with ⟨w, hw, he⟩ | ⟨hx, hy, hR⟩
        · cases he
          have hw := (List.mem_cons.mp hw).resolve_left hne.symm
          exact ⟨List.mem_cons_self, List.mem_cons_of_mem _ hw, hz y hw⟩
        · exact ⟨List.mem_cons_of_mem _ hx, List.mem_cons_of_mem _ hy, hR⟩
      · intro hc
        obtain ⟨hx, hy, hR⟩ := hc
        rcases List.mem_cons.mp hx with hxz | hx
        · exact .inl ⟨y, hy, by rw [hxz]⟩
        · rcases List.mem_cons.mp hy with hyz | hy
          · exact absurd hR (hasymm _ _ (hyz ▸ hz x hx))
          · exact .inr ⟨hx, hy, hR⟩

theorem listed_foldl_addFault {g : DepGraph} {p : Path} {combs : List (FSAccess × FSAccess)}
    {faults : Faults} {a b q : String} :
    Listed (combs.foldl (addFault g p) faults) a b q ↔
      Listed faults a b q ∨ (p.native = q ∧
        ∃ x y, (x, y) ∈ combs ∧ x.eventId = a ∧ y.eventId = b ∧ Races g x y) := by
  refine (Ordered.foldl_iff (Q := fun faults => Listed faults a b q)
    (P := fun c => (c.1.eventId = a ∧ c.2.eventId = b ∧ p.native = q) ∧ Races g c.1 c.2)
    (fun faults c => ?_) _ _).trans (or_congr_right ?_)
  · unfold addFault
    split
    · rename_i hR
      rw [listed_report, and_iff_left hR]
    · rename_i hR
      rw [or_iff_left fun h => hR h.2]
  · constructor
    · intro h
      obtain ⟨c, hc, ⟨ha, hb, hp⟩, hR⟩ := h
      exact ⟨hp, c.1, c.2, hc, ha, hb, hR⟩
    · intro h
      obtain ⟨hp, x, y, hc, ha, hb, hR⟩ := h
      exact ⟨(x, y), hc, ⟨ha, hb, hp⟩, hR⟩

/-- An access that the table records for path `p`. -/
def HasAccess (fsAccesses : EffectTable) (p : String) (x : FSAccess) : Prop :=
  ∃ row, (⟨p⟩, row) ∈ fsAccesses.toList ∧ x ∈ row

/-- Every row is ordered by events. -/
def RowsOrdered (fsAccesses : EffectTable) : Prop :=
  ∀ p row, (p, row) ∈ fsAccesses.toList → row.Pairwise fun x y => x.eventId < y.eventId

theorem listed_foldl_rows {g : DepGraph} {rows : List (Path × List FSAccess)} {faults : Faults}
    {a b p : String} :
    Listed (rows.foldl (fun faults fsAccess =>
        (get2Combinations fsAccess.2).foldl (addFault g fsAccess.1) faults) faults) a b p ↔
      Listed faults a b p ∨ ∃ row, (⟨p⟩, row) ∈ rows ∧
        ∃ x y, (x, y) ∈ get2Combinations row ∧ x.eventId = a ∧ y.eventId = b ∧ Races g x y := by
  refine (Ordered.foldl_iff (Q := fun faults => Listed faults a b p)
    (P := fun r => r.1.native = p ∧ ∃ x y, (x, y) ∈ get2Combinations r.2 ∧
      x.eventId = a ∧ y.eventId = b ∧ Races g x y)
    (fun _ _ => listed_foldl_addFault) _ _).trans (or_congr_right ?_)
  constructor
  · intro h
    obtain ⟨r, hr, hp, hrow⟩ := h
    exact ⟨r.2, by rw [← hp]; exact hr, hrow⟩
  · intro h
    obtain ⟨row, hr, hrow⟩ := h
    exact ⟨_, hr, rfl, hrow⟩

theorem not_listed_empty {a b p : String} : ¬ Listed ∅ a b p := by
  intro ⟨ds, d, h, _⟩
  simp at h

/-- The row of a path is unique. -/
theorem row_unique {fsAccesses : EffectTable} {p : Path} {row row' : List FSAccess}
    (h : (p, row) ∈ fsAccesses.toList) (h' : (p, row') ∈ fsAccesses.toList) : row = row' := by
  have h := (Std.TreeMap.mem_toList_iff_getKey?_eq_some_and_getElem?_eq_some.mp h).2
  have h' := (Std.TreeMap.mem_toList_iff_getKey?_eq_some_and_getElem?_eq_some.mp h').2
  exact Option.some.inj (h.symm.trans h')

theorem listed_faultsOf {g : DepGraph} {fsAccesses : EffectTable} (ho : RowsOrdered fsAccesses)
    {a b p : String} : Listed (faultsOf g fsAccesses) a b p ↔
      a < b ∧ ∃ x y, HasAccess fsAccesses p x ∧ HasAccess fsAccesses p y ∧
        x.eventId = a ∧ y.eventId = b ∧ Races g x y := by
  have hasymm : ∀ x y : FSAccess, x.eventId < y.eventId → ¬ y.eventId < x.eventId :=
    fun _ _ h => lt_asymm h
  unfold faultsOf
  rw [listed_foldl_rows]
  constructor
  · intro h
    obtain ⟨row, hr, x, y, hm, ha, hb, hR⟩ := h.resolve_left not_listed_empty
    have hne : x ≠ y := fun h => hR.ne (h ▸ rfl)
    obtain ⟨hx, hy, hlt⟩ := (mem_get2Combinations (ho _ row hr) hasymm hne).mp hm
    exact ⟨ha ▸ hb ▸ hlt, x, y, ⟨row, hr, hx⟩, ⟨row, hr, hy⟩, ha, hb, hR⟩
  · intro hc
    obtain ⟨hab, x, y, ⟨row, hr, hx⟩, ⟨row', hr', hy⟩, ha, hb, hR⟩ := hc
    have hne : x ≠ y := fun h => hR.ne (h ▸ rfl)
    rw [row_unique hr' hr] at hy
    have hlt : x.eventId < y.eventId := by rw [ha, hb]; exact hab
    exact .inr ⟨row, hr, x, y,
      (mem_get2Combinations (ho _ row hr) hasymm hne).mpr ⟨hx, hy, hlt⟩, ha, hb, hR⟩

/-- The access of an event to a path is unique. -/
theorem hasAccess_unique {fsAccesses : EffectTable} (ho : RowsOrdered fsAccesses) {p : String}
    {x y : FSAccess} (hx : HasAccess fsAccesses p x) (hy : HasAccess fsAccesses p y)
    (he : x.eventId = y.eventId) : x = y := by
  obtain ⟨row, hr, hx⟩ := hx
  obtain ⟨row', hr', hy⟩ := hy
  rw [row_unique hr' hr] at hy
  have hnd : (row.map (·.eventId)).Nodup :=
    List.pairwise_map.mpr ((ho _ row hr).imp fun h => ne_of_lt h)
  exact List.inj_on_of_nodup_map hnd hx hy he

/-- Every key lists a path. -/
def NoEmptyKey (faults : Faults) : Prop := ∀ a b, (a, b) ∈ faults → ∃ p, Listed faults a b p

theorem noEmptyKey_addFault {g : DepGraph} {p : Path} {faults : Faults} (h : NoEmptyKey faults)
    (access : FSAccess × FSAccess) : NoEmptyKey (addFault g p faults access) := by
  unfold addFault
  split
  · intro a b hm
    rcases mem_report.mp hm with he | hm
    · cases he
      exact ⟨p.native, listed_report.mpr (.inr ⟨rfl, rfl, rfl⟩)⟩
    · obtain ⟨q, hq⟩ := h a b hm
      exact ⟨q, listed_report.mpr (.inl hq)⟩
  · exact h

theorem noEmptyKey_faultsOf (g : DepGraph) (fsAccesses : EffectTable) :
    NoEmptyKey (faultsOf g fsAccesses) := by
  unfold faultsOf
  refine List.foldlRecOn _ _ (fun a b h => by simp at h) fun faults hf row _ => ?_
  exact List.foldlRecOn _ _ hf fun faults hf access _ => noEmptyKey_addFault hf access

/-- The keys of the result are ordered pairs of events. -/
theorem lt_of_mem_faultsOf {g : DepGraph} {fsAccesses : EffectTable}
    (ho : RowsOrdered fsAccesses) {a b : String} (h : (a, b) ∈ faultsOf g fsAccesses) : a < b := by
  obtain ⟨p, hp⟩ := noEmptyKey_faultsOf g fsAccesses a b h
  exact ((listed_faultsOf ho).mp hp).1

/-! ## 5. `GetFaults` is exact -/

/-- `Analyze` orders every row by events. -/
theorem rowsOrdered_analyze {trace : Trace} {st : FsState}
    (h : FSAnalyzer.analyze trace = .ok st) : RowsOrdered st.effectTable := by
  obtain ⟨st₁, log, _, _, rfl⟩ := FSAnalyzer.analyze_eq_ok_iff.mp h
  intro p row hr
  have hv : (FSAnalyzer.groupAccesses ∅ (summarise log)).getValue p = some row :=
    (Std.TreeMap.mem_toList_iff_getKey?_eq_some_and_getElem?_eq_some.mp hr).2
  rw [FSAnalyzer.getValue_groupAccesses] at hv
  split at hv
  · cases hv
  · cases hv
    exact FSAnalyzer.accessesOf_pairwise (ownEvent_summarise log) p

/-- The verdict on a table: path `p` is listed under `(a, b)` iff `a < b` and the two events have
    conflicting accesses to `p`, are not both main blocks and are not ordered by a path; no pair
    of events has two keys. -/
structure ExactFaults (g : DepGraph) (fsAccesses : EffectTable) (faults : Faults) : Prop where
  listed : ∀ a b p, Listed faults a b p ↔
    a < b ∧ ∃ x y, HasAccess fsAccesses p x ∧ HasAccess fsAccesses p y ∧
      x.eventId = a ∧ y.eventId = b ∧
      (x.effectType ≠ .consumed ∨ y.effectType ≠ .consumed) ∧
      ¬ (IsMainNode g a ∧ IsMainNode g b) ∧ ¬ g.Path a b ∧ ¬ g.Path b a
  oneKey : ∀ a b, (a, b) ∈ faults → (b, a) ∉ faults

theorem exactFaults_faultsOf {g : DepGraph} (hg : g.Closed) {fsAccesses : EffectTable}
    (ho : RowsOrdered fsAccesses) : ExactFaults g fsAccesses (faultsOf g fsAccesses) where
  listed a b p := by
    rw [listed_faultsOf ho]
    refine and_congr_right fun hab => exists_congr fun x => exists_congr fun y =>
      and_congr_right fun _ => and_congr_right fun _ => ⟨fun ⟨ha, hb, hR⟩ => ?_, ?_⟩
    · subst ha hb
      exact ⟨rfl, rfl, hR.effect, fun h => hR.left ((precedes_iff hg hR.ne).mpr (.inl h)),
        fun h => hR.left ((precedes_iff hg hR.ne).mpr (.inr h)),
        fun h => hR.right ((precedes_iff hg hR.ne.symm).mpr (.inr h))⟩
    · intro ⟨ha, hb, he, hm, hl, hr⟩
      subst ha hb
      have hne := ne_of_lt hab
      exact ⟨rfl, rfl, hne, he, fun h => (h.main_or_path hne).elim hm hl,
        fun h => (h.main_or_path hne.symm).elim (fun h => hm h.symm) hr⟩
  oneKey a b h h' := lt_asymm (lt_of_mem_faultsOf ho h) (lt_of_mem_faultsOf ho h')

/-- **`GetFaults` is exact.** On the effect table of an analysed trace and a closed graph it
    returns one result, whatever was queried before. -/
theorem getFaults_exact {trace : Trace} {st : FsState} {g : DepGraph}
    (ht : FSAnalyzer.analyze trace = .ok st) (hg : g.Closed) :
    ∃ faults, ExactFaults g st.effectTable faults ∧
      ∀ queries, ∃ d d', afterQueries g .init queries = some d ∧
        getFaults g st.effectTable d = some (faults, d') := by
  refine ⟨_, exactFaults_faultsOf hg (rowsOrdered_analyze ht), fun queries => ?_⟩
  obtain ⟨d, hd, hc⟩ := afterQueries_spec hg (cacheOk_init g) queries
  obtain ⟨faults, d', h⟩ := getFaults_returns hg st.effectTable d
  cases getFaults_eq hc h
  exact ⟨d, d', hd, h⟩

/-- Two unordered events write one file. -/
def twoWriters : Trace where
  threadId := 1
  cwd := "/"
  execOps := [⟨"sync_1", [{ kind := .hpath atFdcwd "/log" .produced }]⟩]
  blocks := [
    ⟨1, .MAIN, [.newEvent ⟨4, ⟨.EXT, 0⟩, []⟩, .newEvent ⟨5, ⟨.EXT, 0⟩, []⟩]⟩,
    ⟨4, .REG, [.submitOp ⟨"sync_1", none, []⟩]⟩,
    ⟨5, .REG, [.submitOp ⟨"sync_1", none, []⟩]⟩]

theorem getFaults_exact_twoWriters : ∃ st faults d,
    FSAnalyzer.analyze twoWriters = .ok st ∧
      getFaults (dependencyGraph twoWriters) st.effectTable .init = some (faults, d) ∧
      Listed faults "4" "5" "/log" := by
  obtain ⟨st, hst, hr⟩ : ∃ st, FSAnalyzer.analyze twoWriters = .ok st ∧
      st.effectTable.toList = [(⟨"/log"⟩, [⟨"4", .produced, [], ""⟩, ⟨"5", .produced, [], ""⟩])] :=
    FSAnalyzer.exists_analyze_eq_ok (by decide +kernel)
  have hclosed : (dependencyGraph twoWriters).Closed :=
    closed_of_no_link fun e => by simp [twoWriters, Trace.actions, Block.actions]
  obtain ⟨faults, hexact, hq⟩ := getFaults_exact hst hclosed
  obtain ⟨d, d', hd, hf⟩ := hq []
  cases hd
  refine ⟨st, faults, d', hst, hf, (hexact.listed _ _ _).mpr ⟨by decide, _, _,
    ⟨_, hr ▸ List.mem_singleton_self _, List.mem_cons_self⟩,
    ⟨_, hr ▸ List.mem_singleton_self _, List.mem_cons_of_mem _ List.mem_cons_self⟩, rfl, rfl,
    .inl (by decide), ?_, ?_, ?_⟩⟩
  · decide +kernel
  · exact Graph.not_path_of_hasPath (by decide +kernel)
  · exact Graph.not_path_of_hasPath (by decide +kernel)

end Detector

end Fsracer

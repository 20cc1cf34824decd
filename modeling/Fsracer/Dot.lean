/-
  File:      Fsracer/Dot.lean
  Subject:   THE GRAPH IN DOT FORMAT: `PrintDot` (lib/Graph.h) with the printer of the
             dependency graph (lib/DependencyInferenceAnalyzer.h).

  `PrintDot` writes while it iterates over an unordered map, so its lines come in any order.
  **`printDot_rows`** -- whatever that order is, the lines are one for each executed node and one
  for each row of the CSV dump, and both ends of every edge are declared.
-/
import Mathlib
import Fsracer.EdgeList

namespace Fsracer

/-! ## 1. The printer -/

/-- `PrintNodeDot`; the empty string stands for a node that is not printed. -/
def printNodeDot (nodeId : String) (nodeInfo : EventInfo) : String :=
  if isExecuted nodeInfo = false then ""
  else if nodeInfo.nodeObj.eventType = .MAIN then nodeId ++ "[label=\"" ++ nodeId ++ "\"]"
  else nodeId ++ "[label=\"" ++ nodeId ++ "[" ++ nodeInfo.nodeObj.toStr ++ "]\"]"

/-- `PrintEdgeDot`. -/
def printEdgeDot (source target : EventInfo) : String :=
  if ignoreEdge source target then "" else source.nodeId ++ "->" ++ target.nodeId

/-- The inner loop of `PrintDot`: the edges of a node. -/
def dotEdges (g : DepGraph) (nodeInfo : EventInfo) (os : String) : String :=
  nodeInfo.dependents.foldl (fun os dependent =>
    match g.getNodeInfo dependent.1 with
    | none => os
    | some targetInfo =>
        let edgeStr := printEdgeDot nodeInfo targetInfo
        if edgeStr = "" then os
        else os ++ edgeStr ++ "[label=\"" ++ printEdgeLabel dependent.2 ++ "\"];" ++ "\n") os

/-- `PrintDot`; `entries` is the map of nodes in the order of its iterator. -/
def printDot (g : DepGraph) (entries : List (String × EventInfo)) : String :=
  entries.foldl (fun os entry =>
    let nodeInfo := entry.2
    let nodeStr := printNodeDot nodeInfo.nodeId nodeInfo
    let os := if nodeStr ≠ "" then os ++ nodeStr ++ ";" ++ "\n" else os
    dotEdges g nodeInfo os) "digraph \x7b\n" ++ "\x7d\n"

/-! ## 2. The lines -/

/-- The line of a node. -/
def nodeLine (nodeInfo : EventInfo) : String :=
  printNodeDot nodeInfo.nodeId nodeInfo ++ ";" ++ "\n"

/-- The line of an edge. -/
def dotLine (edge : String × String × EdgeLabel) : String :=
  edge.1 ++ "->" ++ edge.2.1 ++ "[label=\"" ++ printEdgeLabel edge.2.2 ++ "\"];" ++ "\n"

/-- The nodes that are printed. -/
def shownNodes (entries : List (String × EventInfo)) : List EventInfo :=
  (entries.map Prod.snd).filter isExecuted

/-- Whether the edge to a dependent is printed. -/
def isShown (g : DepGraph) (nodeInfo : EventInfo) (dependent : String × EdgeLabel) : Bool :=
  isExecuted nodeInfo && (g.getNodeInfo dependent.1).any isExecuted

/-- The edges of a node that are printed. -/
def shownEdges (g : DepGraph) (nodeInfo : EventInfo) : List (String × String × EdgeLabel) :=
  (nodeInfo.dependents.toList.filter (isShown g nodeInfo)).map fun dependent =>
    (nodeInfo.nodeId, dependent.1, dependent.2)

theorem printNodeDot_ne {nodeInfo : EventInfo} (h : isExecuted nodeInfo = true) (id : String) :
    printNodeDot id nodeInfo ≠ "" := by
  intro he
  have hl := congrArg String.length he
  unfold printNodeDot at hl
  rw [h] at hl
  split at hl
  · rename_i hf
    cases hf
  · split at hl <;> simp at hl

theorem printEdgeDot_eq {source target : EventInfo} (hs : isExecuted source = true)
    (ht : isExecuted target = true) :
    printEdgeDot source target = source.nodeId ++ "->" ++ target.nodeId := by
  unfold printEdgeDot ignoreEdge
  rw [hs, ht]
  rfl

theorem printEdgeDot_empty {source target : EventInfo}
    (h : (isExecuted source && isExecuted target) = false) : printEdgeDot source target = "" := by
  unfold printEdgeDot ignoreEdge
  rw [← Bool.not_and, h]
  rfl

theorem dotEdges_eq (g : DepGraph) (nodeInfo : EventInfo) (os : String) :
    dotEdges g nodeInfo os = os ++ String.join ((shownEdges g nodeInfo).map dotLine) := by
  have hline : ∀ os, ∀ d ∈ nodeInfo.dependents.toList,
      (match g.getNodeInfo d.1 with
        | none => os
        | some targetInfo =>
            let edgeStr := printEdgeDot nodeInfo targetInfo
            if edgeStr = "" then os
            else os ++ edgeStr ++ "[label=\"" ++ printEdgeLabel d.2 ++ "\"];" ++ "\n") =
      if isShown g nodeInfo d = true then os ++ dotLine (nodeInfo.nodeId, d.1, d.2) else os := by
    intro os d _
    unfold isShown
    cases hd : g.getNodeInfo d.1 with
    | none => simp
    | some targetInfo =>
        rw [Option.any_some]
        cases hb : isExecuted nodeInfo && isExecuted targetInfo with
        | false =>
            dsimp only
            rw [printEdgeDot_empty hb, if_pos rfl, if_neg (by decide)]
        | true =>
            obtain ⟨hs, ht⟩ := (Bool.and_eq_true _ _).mp hb
            have hne : nodeInfo.nodeId ++ "->" ++ targetInfo.nodeId ≠ "" := by
              intro he
              have hl := congrArg String.length he
              simp at hl
            dsimp only
            rw [printEdgeDot_eq hs ht, if_neg hne, if_pos rfl, dotLine,
              Graph.nodeId_of_getNodeInfo hd]
            simp only [String.append_assoc]
  unfold dotEdges shownEdges
  rw [Std.TreeSet.foldl_eq_foldl_toList, List.foldl_ext _ _ _ hline, List.map_map]
  refine (foldl_lines (fun d : String × EdgeLabel => dotLine (nodeInfo.nodeId, d.1, d.2))
    (fun d => isShown g nodeInfo d = true) _ os).trans ?_
  simp only [Bool.decide_eq_true]
  rfl

/-- The lines that are written for one node. -/
def entryLines (g : DepGraph) (nodeInfo : EventInfo) : List String :=
  ([nodeInfo].filter isExecuted).map nodeLine ++ (shownEdges g nodeInfo).map dotLine

/-- **The text**, line by line. -/
theorem printDot_eq (g : DepGraph) (entries : List (String × EventInfo)) :
    printDot g entries = "digraph \x7b\n" ++
      String.join (entries.flatMap fun entry => entryLines g entry.2) ++ "\x7d\n" := by
  unfold printDot
  congr 1
  generalize "digraph \x7b\n" = os
  induction entries generalizing os with
  | nil => simp
  | cons entry entries ih =>
      rw [List.foldl_cons, ih, dotEdges_eq, List.flatMap_cons, String.join_append, entryLines,
        String.join_append]
      cases hb : isExecuted entry.2 with
      | false =>
          have hempty : printNodeDot entry.2.nodeId entry.2 = "" := by
            unfold printNodeDot
            rw [if_pos hb]
          simp [hb, hempty, String.append_assoc]
      | true =>
          simp [hb, printNodeDot_ne hb, nodeLine, String.append_assoc]

/-! ## 3. The same graph in both formats -/

section Rows

variable {g : DepGraph} {entries : List (String × EventInfo)}

/-- The edges that are printed, in the order of the iteration. -/
def dotRows (g : DepGraph) (entries : List (String × EventInfo)) :
    List (String × String × EdgeLabel) :=
  entries.flatMap fun entry => shownEdges g entry.2

theorem lines_perm (g : DepGraph) (entries : List (String × EventInfo)) :
    (entries.flatMap fun entry => entryLines g entry.2).Perm
      ((shownNodes entries).map nodeLine ++ (dotRows g entries).map dotLine) := by
  have hnodes : (entries.flatMap fun entry => ([entry.2].filter isExecuted).map nodeLine) =
      (shownNodes entries).map nodeLine := by
    unfold shownNodes
    induction entries with
    | nil => rfl
    | cons entry entries ih =>
        rw [List.flatMap_cons, ih, List.map_cons, List.filter_cons]
        cases hb : isExecuted entry.2 <;> simp [hb]
  have hedges : (entries.flatMap fun entry => (shownEdges g entry.2).map dotLine) =
      (dotRows g entries).map dotLine := (List.map_flatMap ..).symm
  rw [← hnodes, ← hedges]
  exact (List.flatMap_append_perm entries _ _).symm

theorem isShown_iff {n : EventInfo} (hn : g.getNodeInfo n.nodeId = some n)
    {d : String × EdgeLabel} : isShown g n d = true ↔
      g.HasAttr n.nodeId executedAttr ∧ g.HasAttr d.1 executedAttr := by
  unfold isShown
  rw [Bool.and_eq_true, isExecuted_iff hn]
  refine and_congr_right fun _ => ?_
  cases hd : g.getNodeInfo d.1 with
  | none => simp [Graph.HasAttr, hd]
  | some m => rw [Option.any_some, isExecuted_iff hd]

theorem node_of_entry (hentries : IterationOrder g entries) {entry : String × EventInfo}
    (he : entry ∈ entries) : g.getNodeInfo entry.2.nodeId = some entry.2 ∧
      entry.2.nodeId = entry.1 := by
  have hget := Std.TreeMap.mem_toList_iff_getElem?_eq_some.mp (hentries.mem_iff.mp he)
  have hid := g.idOk hget
  exact ⟨hid ▸ hget, hid⟩

/-- The printed edges are those of the rows. -/
theorem mem_dotRows (hentries : IterationOrder g entries) {row : String × String × EdgeLabel} :
    row ∈ dotRows g entries ↔ row ∈ csvRows g := by
  obtain ⟨s, t, l⟩ := row
  rw [mem_csvRows, dotRows, List.mem_flatMap]
  constructor
  · intro h
    obtain ⟨entry, he, h⟩ := h
    obtain ⟨hn, -⟩ := node_of_entry hentries he
    obtain ⟨d, hd, heq⟩ := List.mem_map.mp h
    obtain ⟨hmem, hshown⟩ := List.mem_filter.mp hd
    cases heq
    exact ⟨⟨entry.2, hn, Std.TreeSet.mem_toList.mp hmem⟩, (isShown_iff hn).mp hshown⟩
  · intro h
    obtain ⟨⟨n, hn, hd⟩, hexec⟩ := h
    have he : (s, n) ∈ entries :=
      hentries.mem_iff.mpr (Std.TreeMap.mem_toList_iff_getElem?_eq_some.mpr hn)
    obtain ⟨hn', hid⟩ := node_of_entry hentries he
    refine ⟨(s, n), he, List.mem_map.mpr ⟨(t, l), List.mem_filter.mpr
      ⟨Std.TreeSet.mem_toList.mpr hd, (isShown_iff hn').mpr (hid ▸ hexec)⟩, ?_⟩⟩
    exact Prod.ext hid rfl

theorem nodup_of_ordered {α : Type} {cmp : α → α → Ordering} [Std.ReflCmp cmp] {xs : List α}
    (h : xs.Pairwise (cmp · · = .lt)) : xs.Nodup := by
  refine h.imp fun {a b} hlt he => ?_
  have hself : cmp b b = .eq := Std.ReflCmp.compare_self
  rw [he, hself] at hlt
  cases hlt

theorem nodup_ids (g : DepGraph) : (g.nodes.toList.map Prod.fst).Nodup := by
  rw [Std.TreeMap.map_fst_toList_eq_keys]
  exact Std.TreeMap.nodup_keys

theorem nodup_dotRows (hentries : IterationOrder g entries) : (dotRows g entries).Nodup := by
  have hkeys : entries.Pairwise fun a b => a.1 ≠ b.1 :=
    List.pairwise_map.mp ((hentries.map Prod.fst).nodup_iff.mpr (nodup_ids g))
  refine List.nodup_flatMap.mpr ⟨fun entry _ => ?_, ?_⟩
  · refine (List.Nodup.filter _ ?_).map_on fun d _ d' _ h => ?_
    · exact nodup_of_ordered entry.2.dependents.ordered_toList
    · exact (Prod.mk.inj h).2
  · refine hkeys.imp_of_mem fun {a b} ha hb hne => ?_
    intro row hrow hrow'
    obtain ⟨d, -, rfl⟩ := List.mem_map.mp hrow
    obtain ⟨d', -, heq⟩ := List.mem_map.mp hrow'
    have hid : b.2.nodeId = a.2.nodeId := (Prod.mk.inj heq).1
    rw [(node_of_entry hentries ha).2, (node_of_entry hentries hb).2] at hid
    exact hne hid.symm

/-- **Both formats show the same graph.** The lines of the DOT text are one for each executed
    node and one for each row of the CSV text, and every row is between two of these nodes. -/
theorem printDot_rows (g : DepGraph) : ∃ nodes : List EventInfo,
    (nodes.map (·.nodeId)).Nodup ∧
    (∀ n, n ∈ nodes ↔ g.getNodeInfo n.nodeId = some n ∧ g.HasAttr n.nodeId executedAttr) ∧
    (∀ row ∈ csvRows g, ∃ n ∈ nodes, ∃ m ∈ nodes, n.nodeId = row.1 ∧ m.nodeId = row.2.1) ∧
    ∀ entries, IterationOrder g entries → ∃ lines : List String,
      printDot g entries = "digraph \x7b\n" ++ String.join lines ++ "\x7d\n" ∧
      lines.Perm (nodes.map nodeLine ++ (csvRows g).map dotLine) ∧
      printGraphCSV g entries = String.join ((csvRows g).map csvLine) := by
  have horder : IterationOrder g g.nodes.toList := List.Perm.refl _
  have hmem : ∀ n, n ∈ shownNodes g.nodes.toList ↔
      g.getNodeInfo n.nodeId = some n ∧ g.HasAttr n.nodeId executedAttr := by
    intro n
    unfold shownNodes
    rw [List.mem_filter]
    constructor
    · intro h
      obtain ⟨hn, hexec⟩ := h
      obtain ⟨entry, he, rfl⟩ := List.mem_map.mp hn
      have hnode := (node_of_entry horder he).1
      exact ⟨hnode, (isExecuted_iff hnode).mp hexec⟩
    · intro h
      have he : (n.nodeId, n) ∈ g.nodes.toList :=
        Std.TreeMap.mem_toList_iff_getElem?_eq_some.mpr h.1
      exact ⟨List.mem_map_of_mem (f := Prod.snd) he, (isExecuted_iff h.1).mpr h.2⟩
  refine ⟨shownNodes g.nodes.toList, ?_, hmem, fun row hrow => ?_, fun entries hentries => ?_⟩
  · have hids : (g.nodes.toList.map Prod.snd).map (·.nodeId) = g.nodes.toList.map Prod.fst := by
      rw [List.map_map]
      exact List.map_congr_left fun entry he => (node_of_entry horder he).2
    exact (hids ▸ nodup_ids g).sublist (List.filter_sublist.map _)
  · obtain ⟨-, ⟨n, hn, ha⟩, ⟨m, hm, ha'⟩⟩ := mem_csvRows.mp hrow
    have hnid := Graph.nodeId_of_getNodeInfo hn
    have hmid := Graph.nodeId_of_getNodeInfo hm
    refine ⟨n, (hmem n).mpr ?_, m, (hmem m).mpr ?_, hnid, hmid⟩
    · rw [hnid]
      exact ⟨hn, n, hn, ha⟩
    · rw [hmid]
      exact ⟨hm, m, hm, ha'⟩
  · refine ⟨_, printDot_eq g entries, ?_, printGraphCSV_eq hentries⟩
    have hrows : (dotRows g g.nodes.toList).Perm (csvRows g) := by
      refine (List.perm_ext_iff_of_nodup (nodup_dotRows horder) ?_).mpr fun row =>
        mem_dotRows horder
      exact nodup_of_ordered ((csvEdges g).ordered_toList.filter _)
    calc (entries.flatMap fun entry => entryLines g entry.2).Perm
          (g.nodes.toList.flatMap fun entry => entryLines g entry.2) := hentries.flatMap_right _
      List.Perm _ _ := lines_perm g _
      List.Perm _ _ := (hrows.map dotLine).append_left _

end Rows

end Fsracer

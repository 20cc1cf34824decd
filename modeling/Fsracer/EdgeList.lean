/-
  File:      Fsracer/EdgeList.lean
  Subject:   THE EDGE LIST: `PrintCSV` as it runs, over an unordered map of nodes.

  `PrintCSV` visits the nodes in the order in which the unordered map happens to hold them and
  collects tuples of whole nodes in a set that compares nodes by their ids. `Print.lean` reads
  the same loop over ids and in the order of the ids; here the two are shown to write the same
  text, whatever the order of the map.
-/
import Mathlib
import Fsracer.Print

namespace Fsracer

/-! ## 1. The loop of the source -/

/-- `tuple<NodeInfo, NodeInfo, L>`. -/
abbrev EdgeTuple := EventInfo × EventInfo × EdgeLabel

/-- The ids and the label of a tuple. -/
def EdgeTuple.ids (edge : EdgeTuple) : String × String × EdgeLabel :=
  (edge.1.nodeId, edge.2.1.nodeId, edge.2.2)

/-- `operator<` of tuples, with `operator<` of `Node`. -/
def tupleCmp : EdgeTuple → EdgeTuple → Ordering :=
  compareLex (compareOn (·.1.nodeId)) (compareLex (compareOn (·.2.1.nodeId)) (compareOn (·.2.2)))

instance : Std.TransCmp tupleCmp :=
  inferInstanceAs (Std.TransCmp (compareLex _ (compareLex _ _)))

/-- The set `edges` of `PrintCSV`; `entries` is the map of nodes in the order of its iterator. -/
def collectEdges (g : DepGraph) (entries : List (String × EventInfo)) :
    Std.TreeSet EdgeTuple tupleCmp :=
  entries.foldl (fun edges entry =>
    entry.2.dependents.foldl (fun edges dependent =>
      match g.getNodeInfo dependent.1 with
      | none => edges
      | some targetInfo => edges.insert (entry.2, targetInfo, dependent.2)) edges) ∅

/-- `PrintGraph` in CSV format. -/
def printGraphCSV (g : DepGraph) (entries : List (String × EventInfo)) : String :=
  (collectEdges g entries).toList.foldl (fun os edge =>
    let edgeStr := printEdgeCSV edge.1 edge.2.1
    if edgeStr ≠ "" then os ++ edgeStr ++ "," ++ printEdgeLabel edge.2.2 ++ "\n" else os) ""

/-- The order of an iteration over the map of nodes. -/
def IterationOrder (g : DepGraph) (entries : List (String × EventInfo)) : Prop :=
  entries.Perm g.nodes.toList

/-- The line of an edge. -/
def csvLine (edge : String × String × EdgeLabel) : String :=
  edge.1 ++ "," ++ edge.2.1 ++ "," ++ printEdgeLabel edge.2.2 ++ "\n"

/-! ## 2. The collected tuples -/

section Collected

variable {g : DepGraph} {entries : List (String × EventInfo)}

theorem tupleCmp_eq (a b : EdgeTuple) : tupleCmp a b = csvCmp a.ids b.ids := rfl

theorem mem_insert_ids {edges : Std.TreeSet EdgeTuple tupleCmp} {a b : EdgeTuple} :
    b ∈ edges.insert a ↔ b ∈ edges ∨ a.ids = b.ids := by
  rw [Std.TreeSet.mem_insert, tupleCmp_eq, Std.LawfulEqCmp.compare_eq_iff_eq, or_comm]

/-- The tuples of a set have nodes of the graph in them, not only their ids. -/
def WholeNodes (g : DepGraph) (edges : Std.TreeSet EdgeTuple tupleCmp) : Prop :=
  ∀ e ∈ edges.toList,
    g.getNodeInfo e.1.nodeId = some e.1 ∧ g.getNodeInfo e.2.1.nodeId = some e.2.1

theorem wholeNodes_collectEdges (hentries : IterationOrder g entries) :
    WholeNodes g (collectEdges g entries) := by
  have hnode : ∀ entry ∈ entries, g.getNodeInfo entry.2.nodeId = some entry.2 := by
    intro entry he
    have hget := Std.TreeMap.mem_toList_iff_getElem?_eq_some.mp (hentries.mem_iff.mp he)
    rw [g.idOk hget]
    exact hget
  have hempty : WholeNodes g ∅ := by
    intro e he
    cases he
  unfold collectEdges
  refine List.foldlRecOn (motive := WholeNodes g) entries _ hempty
    fun edges hedges entry hentry => ?_
  rw [Std.TreeSet.foldl_eq_foldl_toList]
  refine List.foldlRecOn (motive := WholeNodes g) _ _ hedges fun edges hedges dependent _ => ?_
  cases hd : g.getNodeInfo dependent.1 with
  | none => exact hedges
  | some targetInfo =>
      intro e he
      rcases Ordered.mem_toList_insert he with rfl | he
      · refine ⟨hnode entry hentry, ?_⟩
        rw [Graph.nodeId_of_getNodeInfo hd]
        exact hd
      · exact hedges e he

/-- A tuple enters the set for a dependent of a visited node that is a node itself. -/
theorem mem_collectEdges_iff {e : EdgeTuple} : e ∈ collectEdges g entries ↔
    ∃ entry ∈ entries, ∃ d ∈ entry.2.dependents.toList,
      (entry.2.nodeId, d.1, d.2) = e.ids ∧ g.HasNode d.1 := by
  unfold collectEdges
  refine (Ordered.foldl_iff (Q := fun edges => e ∈ edges)
    (P := fun entry => ∃ d ∈ entry.2.dependents.toList,
      (entry.2.nodeId, d.1, d.2) = e.ids ∧ g.HasNode d.1)
    (fun edges entry => ?_) _ _).trans (or_iff_right (by simp))
  rw [Std.TreeSet.foldl_eq_foldl_toList]
  refine Ordered.foldl_iff (Q := fun edges => e ∈ edges)
    (P := fun d : String × EdgeLabel => (entry.2.nodeId, d.1, d.2) = e.ids ∧ g.HasNode d.1)
    (fun edges d => ?_) _ _
  cases hd : g.getNodeInfo d.1 with
  | none => simp [Graph.HasNode, hd]
  | some targetInfo =>
      have hnode : g.HasNode d.1 := Graph.hasNode_of_some hd
      dsimp only
      rw [mem_insert_ids, EdgeTuple.ids, Graph.nodeId_of_getNodeInfo hd, and_iff_left hnode]

theorem mem_collectEdges (hentries : IterationOrder g entries) {e : EdgeTuple} :
    e ∈ collectEdges g entries ↔ e.ids ∈ csvEdges g := by
  rw [mem_collectEdges_iff, EdgeTuple.ids, mem_csvEdges]
  constructor
  · intro h
    obtain ⟨entry, hentry, d, hd, he, hnode⟩ := h
    have hget := Std.TreeMap.mem_toList_iff_getElem?_eq_some.mp (hentries.mem_iff.mp hentry)
    have hid := g.idOk hget
    obtain ⟨hs, hdep⟩ := Prod.mk.inj he
    obtain ⟨ht, hl⟩ := Prod.mk.inj hdep
    rw [← hs, ← ht, ← hl]
    exact ⟨⟨entry.2, by rw [hid]; exact hget, Std.TreeSet.mem_toList.mp hd⟩, hnode⟩
  · intro h
    obtain ⟨⟨n, hn, hd⟩, hnode⟩ := h
    have hmem : (e.1.nodeId, n) ∈ entries :=
      hentries.mem_iff.mpr (Std.TreeMap.mem_toList_iff_getElem?_eq_some.mpr hn)
    exact ⟨_, hmem, _, Std.TreeSet.mem_toList.mpr hd,
      by rw [Graph.nodeId_of_getNodeInfo hn], hnode⟩

/-- The set of tuples, read as ids, is the set of `Print.lean`. -/
theorem ids_collectEdges (hentries : IterationOrder g entries) :
    (collectEdges g entries).toList.map EdgeTuple.ids = (csvEdges g).toList := by
  refine Ordered.map_toList tupleCmp_eq (fun e he => (mem_collectEdges hentries).mp he) ?_
  intro edge hedge
  obtain ⟨⟨n, hn, hd⟩, hnode⟩ := mem_csvEdges.mp hedge
  obtain ⟨m, hm⟩ := Option.isSome_iff_exists.mp hnode
  have hids : EdgeTuple.ids (n, m, edge.2.2) = edge := by
    rw [EdgeTuple.ids, Graph.nodeId_of_getNodeInfo hn, Graph.nodeId_of_getNodeInfo hm]
  exact ⟨(n, m, edge.2.2), (mem_collectEdges hentries).mpr (hids ▸ hedge), hids⟩

/-- Every tuple of the set is printed as its ids are. -/
theorem edgeStr_ids (hentries : IterationOrder g entries) {e : EdgeTuple}
    (he : e ∈ (collectEdges g entries).toList) : edgeStr g e.ids = printEdgeCSV e.1 e.2.1 := by
  obtain ⟨hs, ht⟩ := wholeNodes_collectEdges hentries e he
  rw [edgeStr, EdgeTuple.ids, hs, ht]

end Collected

/-! ## 3. The written text -/

/-- A loop that writes one line for some elements of a list. -/
theorem foldl_lines {ι : Type} (f : ι → String) (p : ι → Prop) [DecidablePred p] (xs : List ι)
    (os : String) : xs.foldl (fun os x => if p x then os ++ f x else os) os =
      os ++ String.join ((xs.filter fun x => p x).map f) := by
  induction xs generalizing os with
  | nil => simp
  | cons x xs ih =>
      rw [List.foldl_cons, ih, List.filter_cons]
      by_cases hx : p x <;> simp [hx, String.append_assoc]

/-- What is printed of an edge is its ids. -/
theorem edgeStr_eq {g : DepGraph} {edge : String × String × EdgeLabel}
    (h : edgeStr g edge ≠ "") : edgeStr g edge = edge.1 ++ "," ++ edge.2.1 := by
  unfold edgeStr at h ⊢
  split at h
  · rename_i source target hs ht
    unfold printEdgeCSV at h ⊢
    split at h
    · exact absurd rfl h
    · rename_i hexec
      rw [if_neg hexec, Graph.nodeId_of_getNodeInfo hs, Graph.nodeId_of_getNodeInfo ht]
  · exact absurd rfl h

/-- The text is the lines of the rows of `Print.lean`. -/
theorem printGraphCSV_eq {g : DepGraph} {entries : List (String × EventInfo)}
    (hentries : IterationOrder g entries) :
    printGraphCSV g entries = String.join ((csvRows g).map csvLine) := by
  have hline : ∀ os, ∀ e ∈ (collectEdges g entries).toList,
      (if printEdgeCSV e.1 e.2.1 ≠ "" then
        os ++ printEdgeCSV e.1 e.2.1 ++ "," ++ printEdgeLabel e.2.2 ++ "\n" else os) =
      if edgeStr g e.ids ≠ "" then os ++ csvLine e.ids else os := by
    intro os e he
    rw [← edgeStr_ids hentries he]
    split
    · rename_i hne
      rw [edgeStr_eq hne, csvLine, EdgeTuple.ids]
      simp only [String.append_assoc]
    · rfl
  calc printGraphCSV g entries
      = (collectEdges g entries).toList.foldl
          (fun os e => if edgeStr g e.ids ≠ "" then os ++ csvLine e.ids else os) "" :=
        List.foldl_ext _ _ _ hline
    _ = "" ++ String.join (((collectEdges g entries).toList.filter
          fun e => edgeStr g e.ids ≠ "").map fun e => csvLine e.ids) :=
        foldl_lines (fun e : EdgeTuple => csvLine e.ids) (fun e => edgeStr g e.ids ≠ "") _ _
    _ = String.join ((csvRows g).map csvLine) := by
        rw [String.empty_append, csvRows, ← ids_collectEdges hentries, List.filter_map,
          List.map_map]
        rfl

/-- **The CSV dump is a canonical, complete list of edges.** Whatever the order of the map, the
    text is the lines of the edges between executed nodes, each once and in ascending order. -/
theorem printGraphCSV_canonical (g : DepGraph) : ∃ rows : List (String × String × EdgeLabel),
    (∀ entries, IterationOrder g entries →
      printGraphCSV g entries = String.join (rows.map csvLine)) ∧
    rows.Pairwise (csvCmp · · = .lt) ∧
    ∀ s t l, (s, t, l) ∈ rows ↔
      g.EdgeL s t l ∧ g.HasAttr s executedAttr ∧ g.HasAttr t executedAttr := by
  refine ⟨csvRows g, fun entries hentries => printGraphCSV_eq hentries, ?_,
    fun s t l => mem_csvRows⟩
  exact (csvEdges g).ordered_toList.filter _

end Fsracer

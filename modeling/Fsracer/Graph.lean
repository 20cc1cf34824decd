/-
  File:      Fsracer/Graph.lean
  Subject:   THE LABELLED GRAPH (lib/Graph.h): nodes, `AddNode`, `AddEdge`, `RemoveEdge`,
             `GetSinks`, `DFS`.

  `Graph T L` is the class template: a map from node ids to `Node T L`. The invariant that every
  node is stored under its own id is a field. The map is a `std::unordered_map` in the source;
  nothing below depends on its iteration order.

  Section 2 reads a graph as relations (`HasNode`, `EdgeL`, `Edge`, `Before`, `After`,
  `HasAttr`) and says for every operation what it does to each of them; all later modules argue
  about these relations only. Section 4 instantiates the work-list search of `Lib/Search.lean`
  with the loop of `DFS`.
-/
import Mathlib
import Fsracer.Lib.Ordered
import Fsracer.Lib.Search

namespace Fsracer

open Relation

/-! ## 1. Nodes and graphs -/

/-- The comparison of `pair<string, L>`. -/
abbrev depCmp (L : Type) [Ord L] : String × L → String × L → Ordering :=
  Ordered.pairCmp String L

/-- `Node`: `before` holds the nodes this one comes before (targets of its edges), `after` the
    nodes this one comes after (sources of edges into it). -/
structure Node (T L : Type) [Ord L] where
  nodeId : String
  nodeObj : T
  dependents : Std.TreeSet (String × L) (depCmp L) := ∅
  before : Std.TreeSet String := ∅
  after : Std.TreeSet String := ∅
  attributes : Std.TreeSet String := ∅

/-- `Graph`: the map of nodes, each under its own id. -/
structure Graph (T L : Type) [Ord L] where
  nodes : Std.TreeMap String (Node T L)
  idOk : ∀ {id : String} {n : Node T L}, nodes[id]? = some n → n.nodeId = id

namespace Graph

variable {T L : Type} [Ord L]

/-- The graph without nodes. -/
def empty : Graph T L := ⟨∅, by simp⟩

/-- `GetNodeInfo`. -/
def getNodeInfo (g : Graph T L) (id : String) : Option (Node T L) := g.nodes[id]?

/-- `AddNode`: `emplace` keeps a node that exists. -/
def addNode (g : Graph T L) (id : String) (obj : T) : Graph T L where
  nodes := g.nodes.insertIfNew id { nodeId := id, nodeObj := obj }
  idOk {k n} h := by
    rw [Std.TreeMap.getElem?_insertIfNew] at h
    split at h
    · rename_i hk
      cases h
      exact Std.compare_eq_iff_eq.mp hk.1
    · exact g.idOk h

/-- The write through an iterator: the node `id`, if there is one, is replaced by `f` of it. -/
def modifyNode (g : Graph T L) (id : String) (f : Node T L → Node T L)
    (hf : ∀ n, (f n).nodeId = n.nodeId) : Graph T L where
  nodes := g.nodes.modify id f
  idOk {k n} h := by
    rw [Std.TreeMap.getElem?_modify] at h
    split at h
    · rename_i hk
      obtain ⟨m, hm, rfl⟩ := Option.map_eq_some_iff.mp h
      rw [hf, g.idOk hm]
      exact Std.compare_eq_iff_eq.mp hk
    · exact g.idOk h

/-- `AddNodeAttr`. -/
def addNodeAttr (g : Graph T L) (id attr : String) : Graph T L :=
  g.modifyNode id (fun n => { n with attributes := n.attributes.insert attr }) fun _ => rfl

/-- `AddEdge`: the edge enters `dependents` before the target is looked up. -/
def addEdge (g : Graph T L) (source target : String) (label : L) : Graph T L :=
  if source = target then g
  else
    match g.getNodeInfo source with
    | none => g
    | some _ =>
        let g := g.modifyNode source
          (fun n => { n with dependents := n.dependents.insert (target, label) }) fun _ => rfl
        match g.getNodeInfo target with
        | none => g
        | some _ =>
            (g.modifyNode source (fun n => { n with before := n.before.insert target })
                fun _ => rfl).modifyNode target
              (fun n => { n with after := n.after.insert source }) fun _ => rfl

/-- `RemoveEdge`: `before` and `after` keep the edge. -/
def removeEdge (g : Graph T L) (source target : String) (label : L) : Graph T L :=
  g.modifyNode source
    (fun n => { n with dependents := n.dependents.erase (target, label) }) fun _ => rfl

/-- `GetSinks`: the nodes without dependents. -/
def getSinks (g : Graph T L) : Std.TreeSet String :=
  g.nodes.foldl (fun sinks id n => if n.dependents.isEmpty then sinks.insert id else sinks) ∅

/-! ## 2. A graph as relations -/

/-- `id` is a node. -/
def HasNode (g : Graph T L) (id : String) : Prop := (g.getNodeInfo id).isSome

/-- The object stored at a node. -/
def objOf (g : Graph T L) (id : String) : Option T := (g.getNodeInfo id).map (·.nodeObj)

/-- `(t, l)` is a dependent of `s`. -/
def EdgeL (g : Graph T L) (s t : String) (l : L) : Prop :=
  ∃ n, g.getNodeInfo s = some n ∧ (t, l) ∈ n.dependents

/-- There is an edge from `s` to `t`, of any label. -/
def Edge (g : Graph T L) (s t : String) : Prop := ∃ l, g.EdgeL s t l

/-- `t` is in the `before` set of `s`. -/
def Before (g : Graph T L) (s t : String) : Prop :=
  ∃ n, g.getNodeInfo s = some n ∧ t ∈ n.before

/-- `s` is in the `after` set of `t`. -/
def After (g : Graph T L) (t s : String) : Prop :=
  ∃ n, g.getNodeInfo t = some n ∧ s ∈ n.after

/-- The node `id` carries the attribute. -/
def HasAttr (g : Graph T L) (id attr : String) : Prop :=
  ∃ n, g.getNodeInfo id = some n ∧ attr ∈ n.attributes

/-- A path of one edge or more. -/
abbrev Path (g : Graph T L) : String → String → Prop := TransGen g.Edge

/-- Every edge ends in a node. -/
def Closed (g : Graph T L) : Prop := ∀ s t, g.Edge s t → g.HasNode t

instance (g : Graph T L) (id : String) : Decidable (g.HasNode id) :=
  inferInstanceAs (Decidable (_ = true))

theorem nodeId_of_getNodeInfo {g : Graph T L} {id : String} {n : Node T L}
    (h : g.getNodeInfo id = some n) : n.nodeId = id := g.idOk h

theorem hasNode_of_some {g : Graph T L} {id : String} {n : Node T L}
    (h : g.getNodeInfo id = some n) : g.HasNode id := by simp [HasNode, h]

theorem Edge.hasNode {g : Graph T L} {s t : String} (h : g.Edge s t) : g.HasNode s := by
  obtain ⟨l, n, hn, _⟩ := h
  exact hasNode_of_some hn

theorem path_hasNode {g : Graph T L} {s t : String} (h : g.Path s t) : g.HasNode s := by
  induction h with
  | single e => exact e.hasNode
  | tail _ _ ih => exact ih

@[simp] theorem getNodeInfo_empty (id : String) :
    (empty : Graph T L).getNodeInfo id = none := by simp [getNodeInfo, empty]

@[simp] theorem not_hasNode_empty (id : String) : ¬ (empty : Graph T L).HasNode id := by
  simp [HasNode]

@[simp] theorem not_edge_empty (s t : String) : ¬ (empty : Graph T L).Edge s t :=
  fun h => not_hasNode_empty s h.hasNode

theorem getNodeInfo_modifyNode (g : Graph T L) (id : String) (f : Node T L → Node T L)
    (hf : ∀ n, (f n).nodeId = n.nodeId) (k : String) :
    (g.modifyNode id f hf).getNodeInfo k =
      if id = k then (g.getNodeInfo k).map f else g.getNodeInfo k := by
  unfold getNodeInfo modifyNode
  rw [Std.TreeMap.getElem?_modify]
  by_cases h : id = k
  · subst h
    simp
  · simp [h]

theorem getNodeInfo_addNode (g : Graph T L) (id : String) (obj : T) (k : String) :
    (g.addNode id obj).getNodeInfo k =
      if id = k ∧ ¬ g.HasNode id then some { nodeId := id, nodeObj := obj }
      else g.getNodeInfo k := by
  unfold getNodeInfo addNode
  rw [Std.TreeMap.getElem?_insertIfNew]
  have hmem : id ∉ g.nodes ↔ ¬ g.HasNode id := by
    unfold HasNode getNodeInfo
    rw [Std.TreeMap.mem_iff_isSome_getElem?]
  simp only [Std.compare_eq_iff_eq, hmem]

/-! ### What each operation does to the relations -/

section Spec

variable {g : Graph T L} {s t id k attr : String} {l : L} {obj : T}

/-- A new node has nothing but its object. -/
theorem addNode_cases (g : Graph T L) (id : String) (obj : T) (k : String) :
    (k = id ∧ ¬ g.HasNode k ∧
      (g.addNode id obj).getNodeInfo k = some { nodeId := id, nodeObj := obj }) ∨
    ((g.HasNode k ∨ k ≠ id) ∧ (g.addNode id obj).getNodeInfo k = g.getNodeInfo k) := by
  rw [getNodeInfo_addNode]
  by_cases h : id = k
  · subst h
    by_cases hn : g.HasNode id
    · exact .inr ⟨.inl hn, by simp [hn]⟩
    · exact .inl ⟨rfl, hn, by simp [hn]⟩
  · exact .inr ⟨.inr fun e => h e.symm, by simp [h]⟩

@[simp] theorem hasNode_addNode : (g.addNode id obj).HasNode k ↔ k = id ∨ g.HasNode k := by
  rcases addNode_cases g id obj k with ⟨rfl, hn, h⟩ | ⟨hk, h⟩
  · simp [HasNode, h]
  · unfold HasNode at hk ⊢
    rw [h]
    constructor
    · exact .inr
    · intro hc
      rcases hc with rfl | h'
      · exact hk.resolve_right fun hne => hne rfl
      · exact h'

@[simp] theorem edgeL_addNode : (g.addNode id obj).EdgeL s t l ↔ g.EdgeL s t l := by
  rcases addNode_cases g id obj s with ⟨rfl, hn, h⟩ | ⟨_, h⟩
  · have : ¬ g.EdgeL s t l := fun ⟨n, e, _⟩ => hn (hasNode_of_some e)
    simp [EdgeL, h] at this ⊢
    exact this
  · simp [EdgeL, h]

@[simp] theorem edge_addNode : (g.addNode id obj).Edge s t ↔ g.Edge s t := by simp [Edge]

@[simp] theorem before_addNode : (g.addNode id obj).Before s t ↔ g.Before s t := by
  rcases addNode_cases g id obj s with ⟨rfl, hn, h⟩ | ⟨_, h⟩
  · have : ¬ g.Before s t := fun ⟨n, e, _⟩ => hn (hasNode_of_some e)
    simp [Before, h] at this ⊢
    exact this
  · simp [Before, h]

@[simp] theorem after_addNode : (g.addNode id obj).After t s ↔ g.After t s := by
  rcases addNode_cases g id obj t with ⟨rfl, hn, h⟩ | ⟨_, h⟩
  · have : ¬ g.After t s := fun ⟨n, e, _⟩ => hn (hasNode_of_some e)
    simp [After, h] at this ⊢
    exact this
  · simp [After, h]

@[simp] theorem hasAttr_addNode : (g.addNode id obj).HasAttr k attr ↔ g.HasAttr k attr := by
  rcases addNode_cases g id obj k with ⟨rfl, hn, h⟩ | ⟨_, h⟩
  · have : ¬ g.HasAttr k attr := fun ⟨n, e, _⟩ => hn (hasNode_of_some e)
    simp [HasAttr, h] at this ⊢
    exact this
  · simp [HasAttr, h]

theorem objOf_addNode (hn : ¬ g.HasNode id) :
    (g.addNode id obj).objOf k = if k = id then some obj else g.objOf k := by
  rcases addNode_cases g id obj k with ⟨rfl, _, h⟩ | ⟨hk, h⟩
  · simp [objOf, h]
  · have : k ≠ id := hk.elim (fun h e => hn (e ▸ h)) fun h => h
    simp [objOf, h, this]

section Modify

variable {f : Node T L → Node T L} {hf : ∀ n, (f n).nodeId = n.nodeId}

/-- A node of the modified graph is a node of the old one, through `f` at `id`. -/
theorem exists_modifyNode {P : Node T L → Prop} :
    (∃ m, (g.modifyNode id f hf).getNodeInfo k = some m ∧ P m) ↔
      ∃ n, g.getNodeInfo k = some n ∧ if id = k then P (f n) else P n := by
  rw [getNodeInfo_modifyNode]
  split <;> simp [Option.map_eq_some_iff]

@[simp] theorem hasNode_modifyNode : (g.modifyNode id f hf).HasNode k ↔ g.HasNode k := by
  unfold HasNode
  rw [getNodeInfo_modifyNode]
  split <;> simp

theorem objOf_modifyNode (h : ∀ n, (f n).nodeObj = n.nodeObj) :
    (g.modifyNode id f hf).objOf k = g.objOf k := by
  unfold objOf
  rw [getNodeInfo_modifyNode]
  split
  · cases g.getNodeInfo k <;> simp [h]
  · rfl

theorem edgeL_modifyNode (h : ∀ n, (f n).dependents = n.dependents) :
    (g.modifyNode id f hf).EdgeL s t l ↔ g.EdgeL s t l := by
  simp [EdgeL, exists_modifyNode, h]

theorem before_modifyNode (h : ∀ n, (f n).before = n.before) :
    (g.modifyNode id f hf).Before s t ↔ g.Before s t := by
  simp [Before, exists_modifyNode, h]

theorem after_modifyNode (h : ∀ n, (f n).after = n.after) :
    (g.modifyNode id f hf).After t s ↔ g.After t s := by
  simp [After, exists_modifyNode, h]

theorem hasAttr_modifyNode (h : ∀ n, (f n).attributes = n.attributes) :
    (g.modifyNode id f hf).HasAttr k attr ↔ g.HasAttr k attr := by
  simp [HasAttr, exists_modifyNode, h]

end Modify

/-! #### `AddNodeAttr` -/

@[simp] theorem hasNode_addNodeAttr : (g.addNodeAttr id attr).HasNode k ↔ g.HasNode k :=
  hasNode_modifyNode

@[simp] theorem objOf_addNodeAttr : (g.addNodeAttr id attr).objOf k = g.objOf k :=
  objOf_modifyNode fun _ => rfl

@[simp] theorem edgeL_addNodeAttr : (g.addNodeAttr id attr).EdgeL s t l ↔ g.EdgeL s t l :=
  edgeL_modifyNode fun _ => rfl

@[simp] theorem edge_addNodeAttr : (g.addNodeAttr id attr).Edge s t ↔ g.Edge s t := by
  simp [Edge]

@[simp] theorem before_addNodeAttr : (g.addNodeAttr id attr).Before s t ↔ g.Before s t :=
  before_modifyNode fun _ => rfl

@[simp] theorem after_addNodeAttr : (g.addNodeAttr id attr).After t s ↔ g.After t s :=
  after_modifyNode fun _ => rfl

@[simp] theorem hasAttr_addNodeAttr {a : String} :
    (g.addNodeAttr id attr).HasAttr k a ↔ g.HasAttr k a ∨ (k = id ∧ a = attr ∧ g.HasNode k) := by
  unfold addNodeAttr HasAttr
  rw [exists_modifyNode]
  constructor
  · intro hc
    obtain ⟨n, hn, h⟩ := hc
    split at h
    · rename_i hk
      rcases Ordered.mem_insert_iff.mp h with h | h
      · exact .inr ⟨hk.symm, h.symm, hasNode_of_some hn⟩
      · exact .inl ⟨n, hn, h⟩
    · exact .inl ⟨n, hn, h⟩
  · intro hc
    rcases hc with ⟨n, hn, h⟩ | ⟨rfl, rfl, hn⟩
    · refine ⟨n, hn, ?_⟩
      split
      · exact Ordered.mem_insert_iff.mpr (.inr h)
      · exact h
    · obtain ⟨n, hn⟩ := Option.isSome_iff_exists.mp hn
      exact ⟨n, hn, by rw [if_pos rfl]; exact Ordered.mem_insert_iff.mpr (.inl rfl)⟩

/-! #### `AddEdge` -/

/-- The three ways through `AddEdge`: nothing happens, or the edge is recorded without its
    target, or with it. -/
theorem addEdge_cases (g : Graph T L) (s t : String) (l : L) :
    ((s = t ∨ ¬ g.HasNode s) ∧ g.addEdge s t l = g) ∨
    (s ≠ t ∧ g.HasNode s ∧ ¬ g.HasNode t ∧ g.addEdge s t l = g.modifyNode s
      (fun n => { n with dependents := n.dependents.insert (t, l) }) fun _ => rfl) ∨
    (s ≠ t ∧ g.HasNode s ∧ g.HasNode t ∧ g.addEdge s t l = ((g.modifyNode s
      (fun n => { n with dependents := n.dependents.insert (t, l) }) fun _ => rfl).modifyNode s
      (fun n => { n with before := n.before.insert t }) fun _ => rfl).modifyNode t
      (fun n => { n with after := n.after.insert s }) fun _ => rfl) := by
  by_cases hst : s = t
  · exact .inl ⟨.inl hst, by simp [addEdge, hst]⟩
  · cases hs : g.getNodeInfo s with
    | none => exact .inl ⟨.inr (by simp [HasNode, hs]), by simp [addEdge, hst, hs]⟩
    | some n =>
        have hn : g.HasNode s := hasNode_of_some hs
        refine .inr ?_
        cases ht : g.getNodeInfo t with
        | none =>
            refine .inl ⟨hst, hn, by simp [HasNode, ht], ?_⟩
            simp [addEdge, hst, hs, getNodeInfo_modifyNode, ht]
        | some m =>
            refine .inr ⟨hst, hn, hasNode_of_some ht, ?_⟩
            simp [addEdge, hst, hs, getNodeInfo_modifyNode, ht]

@[simp] theorem hasNode_addEdge : (g.addEdge s t l).HasNode k ↔ g.HasNode k := by
  rcases addEdge_cases g s t l with ⟨_, h⟩ | ⟨_, _, _, h⟩ | ⟨_, _, _, h⟩ <;> simp [h]

@[simp] theorem objOf_addEdge : (g.addEdge s t l).objOf k = g.objOf k := by
  rcases addEdge_cases g s t l with ⟨_, h⟩ | ⟨_, _, _, h⟩ | ⟨_, _, _, h⟩ <;>
    simp [h, objOf_modifyNode]

@[simp] theorem hasAttr_addEdge : (g.addEdge s t l).HasAttr k attr ↔ g.HasAttr k attr := by
  rcases addEdge_cases g s t l with ⟨_, h⟩ | ⟨_, _, _, h⟩ | ⟨_, _, _, h⟩ <;>
    simp [h, hasAttr_modifyNode]

theorem before_addEdge {a b : String} : (g.addEdge s t l).Before a b ↔
    g.Before a b ∨ (s ≠ t ∧ g.HasNode s ∧ g.HasNode t ∧ a = s ∧ b = t) := by
  rcases addEdge_cases g s t l with ⟨hno, h⟩ | ⟨hne, hs, ht, h⟩ | ⟨hne, hs, ht, h⟩
  · rw [h]
    refine ⟨.inl, ?_⟩
    intro hc
    rcases hc with h | ⟨hne, hs, _⟩
    · exact h
    · exact absurd hs (hno.resolve_left hne)
  · simp [h, before_modifyNode, ht]
  · have hb : (g.addEdge s t l).Before a b ↔ ((g.modifyNode s
        (fun n => { n with dependents := n.dependents.insert (t, l) }) fun _ => rfl).modifyNode s
        (fun n => { n with before := n.before.insert t }) fun _ => rfl).Before a b := by
      rw [h]
      exact before_modifyNode fun _ => rfl
    rw [hb]
    unfold Before
    simp only [exists_modifyNode]
    constructor
    · intro hc
      obtain ⟨n, hn, h⟩ := hc
      split at h
      · rename_i hk
        rcases Ordered.mem_insert_iff.mp h with h | h
        · exact .inr ⟨hne, hs, ht, hk.symm, h.symm⟩
        · exact .inl ⟨n, hn, by simpa [hk] using h⟩
      · rename_i hk
        exact .inl ⟨n, hn, by simpa [hk] using h⟩
    · intro hc
      rcases hc with ⟨n, hn, h⟩ | ⟨_, _, _, rfl, rfl⟩
      · refine ⟨n, hn, ?_⟩
        by_cases hk : s = a
        · simp only [hk, if_true]
          exact Ordered.mem_insert_iff.mpr (.inr h)
        · simpa [hk] using h
      · obtain ⟨n, hn⟩ := Option.isSome_iff_exists.mp hs
        refine ⟨n, hn, ?_⟩
        simp only [if_true]
        exact Ordered.mem_insert_iff.mpr (.inl rfl)

theorem after_addEdge {a b : String} : (g.addEdge s t l).After b a ↔
    g.After b a ∨ (s ≠ t ∧ g.HasNode s ∧ g.HasNode t ∧ a = s ∧ b = t) := by
  rcases addEdge_cases g s t l with ⟨hno, h⟩ | ⟨hne, hs, ht, h⟩ | ⟨hne, hs, ht, h⟩
  · rw [h]
    refine ⟨.inl, ?_⟩
    intro hc
    rcases hc with h | ⟨hne, hs, _⟩
    · exact h
    · exact absurd hs (hno.resolve_left hne)
  · simp [h, after_modifyNode, ht]
  · rw [h]
    unfold After
    simp only [exists_modifyNode]
    constructor
    · intro hc
      obtain ⟨n, hn, h⟩ := hc
      by_cases htb : t = b
      · subst htb
        simp only [hne, if_true, if_false] at h
        rcases Ordered.mem_insert_iff.mp h with h | h
        · exact .inr ⟨hne, hs, ht, h.symm, rfl⟩
        · exact .inl ⟨n, hn, h⟩
      · refine .inl ⟨n, hn, ?_⟩
        by_cases hsb : s = b <;> simpa [hsb, htb] using h
    · intro hc
      rcases hc with ⟨n, hn, h⟩ | ⟨_, _, _, rfl, rfl⟩
      · refine ⟨n, hn, ?_⟩
        by_cases hsb : s = b <;> by_cases htb : t = b <;> simp only [hsb, htb, if_true, if_false]
        · exact absurd (hsb.trans htb.symm) hne
        · exact h
        · exact Ordered.mem_insert_iff.mpr (.inr h)
        · exact h
      · obtain ⟨n, hn⟩ := Option.isSome_iff_exists.mp ht
        refine ⟨n, hn, ?_⟩
        simp only [hne, if_true, if_false]
        exact Ordered.mem_insert_iff.mpr (.inl rfl)

/-! #### `RemoveEdge` -/

@[simp] theorem hasNode_removeEdge : (g.removeEdge s t l).HasNode k ↔ g.HasNode k :=
  hasNode_modifyNode

@[simp] theorem objOf_removeEdge : (g.removeEdge s t l).objOf k = g.objOf k :=
  objOf_modifyNode fun _ => rfl

@[simp] theorem hasAttr_removeEdge : (g.removeEdge s t l).HasAttr k attr ↔ g.HasAttr k attr :=
  hasAttr_modifyNode fun _ => rfl

@[simp] theorem before_removeEdge {a b : String} :
    (g.removeEdge s t l).Before a b ↔ g.Before a b :=
  before_modifyNode fun _ => rfl

@[simp] theorem after_removeEdge {a b : String} :
    (g.removeEdge s t l).After b a ↔ g.After b a :=
  after_modifyNode fun _ => rfl

/-! #### The edges -/

variable [Std.TransOrd L] [Std.LawfulEqOrd L]

/-- The write of the edge itself. -/
theorem edgeL_insert_dependent {a b : String} {k : L} (hs : g.HasNode s) :
    (g.modifyNode s (fun n => { n with dependents := n.dependents.insert (t, l) })
      fun _ => rfl).EdgeL a b k ↔ g.EdgeL a b k ∨ (a = s ∧ b = t ∧ k = l) := by
  unfold EdgeL
  rw [exists_modifyNode]
  constructor
  · intro hc
    obtain ⟨n, hn, h⟩ := hc
    split at h
    · rename_i hk
      rcases Ordered.mem_insert_iff.mp h with h | h
      · cases h
        exact .inr ⟨hk.symm, rfl, rfl⟩
      · exact .inl ⟨n, hn, h⟩
    · exact .inl ⟨n, hn, h⟩
  · intro hc
    rcases hc with ⟨n, hn, h⟩ | ⟨rfl, rfl, rfl⟩
    · refine ⟨n, hn, ?_⟩
      split
      · exact Ordered.mem_insert_iff.mpr (.inr h)
      · exact h
    · obtain ⟨n, hn⟩ := Option.isSome_iff_exists.mp hs
      exact ⟨n, hn, by rw [if_pos rfl]; exact Ordered.mem_insert_iff.mpr (.inl rfl)⟩

theorem edgeL_addEdge {a b : String} {k : L} : (g.addEdge s t l).EdgeL a b k ↔
    g.EdgeL a b k ∨ (s ≠ t ∧ g.HasNode s ∧ a = s ∧ b = t ∧ k = l) := by
  rcases addEdge_cases g s t l with ⟨hno, h⟩ | ⟨hne, hs, _, h⟩ | ⟨hne, hs, _, h⟩
  · rw [h]
    refine ⟨.inl, ?_⟩
    intro hc
    rcases hc with h | ⟨hne, hs, _⟩
    · exact h
    · exact absurd hs (hno.resolve_left hne)
  · rw [h, edgeL_insert_dependent hs]
    simp [hne, hs]
  · simp [h, edgeL_modifyNode, edgeL_insert_dependent hs, hne, hs]

theorem edge_addEdge {a b : String} : (g.addEdge s t l).Edge a b ↔
    g.Edge a b ∨ (s ≠ t ∧ g.HasNode s ∧ a = s ∧ b = t) := by
  unfold Edge
  simp only [edgeL_addEdge]
  constructor
  · intro hc
    obtain ⟨k, h | ⟨hne, hs, ha, hb, _⟩⟩ := hc
    · exact .inl ⟨k, h⟩
    · exact .inr ⟨hne, hs, ha, hb⟩
  · intro hc
    rcases hc with ⟨k, h⟩ | ⟨hne, hs, ha, hb⟩
    · exact ⟨k, .inl h⟩
    · exact ⟨l, .inr ⟨hne, hs, ha, hb, rfl⟩⟩

theorem edgeL_removeEdge {a b : String} {k : L} : (g.removeEdge s t l).EdgeL a b k ↔
    g.EdgeL a b k ∧ ¬ (a = s ∧ b = t ∧ k = l) := by
  unfold removeEdge EdgeL
  rw [exists_modifyNode]
  constructor
  · intro hc
    obtain ⟨n, hn, h⟩ := hc
    split at h
    · obtain ⟨h1, h2⟩ := Ordered.mem_erase_iff.mp h
      exact ⟨⟨n, hn, h2⟩, fun ⟨_, hb, hk⟩ => h1 (by rw [hb, hk])⟩
    · rename_i hk
      exact ⟨⟨n, hn, h⟩, fun ⟨ha, _⟩ => hk ha.symm⟩
  · intro hc
    obtain ⟨⟨n, hn, h⟩, hne⟩ := hc
    refine ⟨n, hn, ?_⟩
    split
    · rename_i hk
      refine Ordered.mem_erase_iff.mpr ⟨fun e => hne ?_, h⟩
      cases e
      exact ⟨hk.symm, rfl, rfl⟩
    · exact h

end Spec

/-! ### A sequence of calls of `AddEdge` -/

/-- The calls `AddEdge(source, target, label)`, one after the other. -/
def addEdges (g : Graph T L) (calls : List (String × String × L)) : Graph T L :=
  calls.foldl (fun g c => g.addEdge c.1 c.2.1 c.2.2) g

section Calls

variable {g : Graph T L} {calls : List (String × String × L)} {k attr s t : String}

@[simp] theorem addEdges_nil : g.addEdges [] = g := rfl

theorem addEdges_append (calls' : List (String × String × L)) :
    g.addEdges (calls ++ calls') = (g.addEdges calls).addEdges calls' := List.foldl_append

@[simp] theorem hasNode_addEdges : (g.addEdges calls).HasNode k ↔ g.HasNode k := by
  unfold addEdges
  induction calls generalizing g with
  | nil => exact Iff.rfl
  | cons c calls ih => rw [List.foldl_cons, ih, hasNode_addEdge]

@[simp] theorem objOf_addEdges : (g.addEdges calls).objOf k = g.objOf k := by
  unfold addEdges
  induction calls generalizing g with
  | nil => rfl
  | cons c calls ih => rw [List.foldl_cons, ih, objOf_addEdge]

@[simp] theorem hasAttr_addEdges : (g.addEdges calls).HasAttr k attr ↔ g.HasAttr k attr := by
  unfold addEdges
  induction calls generalizing g with
  | nil => exact Iff.rfl
  | cons c calls ih => rw [List.foldl_cons, ih, hasAttr_addEdge]

theorem before_addEdges : (g.addEdges calls).Before s t ↔
    g.Before s t ∨ s ≠ t ∧ g.HasNode s ∧ g.HasNode t ∧ ∃ l, (s, t, l) ∈ calls := by
  unfold addEdges
  induction calls generalizing g with
  | nil => simp
  | cons c calls ih =>
      obtain ⟨a, b, l⟩ := c
      rw [List.foldl_cons, ih, before_addEdge, hasNode_addEdge, hasNode_addEdge, or_assoc]
      refine or_congr_right ⟨fun h => ?_, fun h => ?_⟩
      · rcases h with ⟨hne, hs, ht, rfl, rfl⟩ | ⟨hne, hs, ht, l', hl⟩
        · exact ⟨hne, hs, ht, l, List.mem_cons_self⟩
        · exact ⟨hne, hs, ht, l', List.mem_cons_of_mem _ hl⟩
      · obtain ⟨hne, hs, ht, l', hl⟩ := h
        rcases List.mem_cons.mp hl with h | h
        · cases h
          exact .inl ⟨hne, hs, ht, rfl, rfl⟩
        · exact .inr ⟨hne, hs, ht, l', h⟩

variable [Std.TransOrd L] [Std.LawfulEqOrd L]

theorem edge_addEdges : (g.addEdges calls).Edge s t ↔
    g.Edge s t ∨ s ≠ t ∧ g.HasNode s ∧ ∃ l, (s, t, l) ∈ calls := by
  unfold addEdges
  induction calls generalizing g with
  | nil => simp
  | cons c calls ih =>
      obtain ⟨a, b, l⟩ := c
      rw [List.foldl_cons, ih, edge_addEdge, hasNode_addEdge, or_assoc]
      refine or_congr_right ⟨fun h => ?_, fun h => ?_⟩
      · rcases h with ⟨hne, hs, rfl, rfl⟩ | ⟨hne, hs, l', hl⟩
        · exact ⟨hne, hs, l, List.mem_cons_self⟩
        · exact ⟨hne, hs, l', List.mem_cons_of_mem _ hl⟩
      · obtain ⟨hne, hs, l', hl⟩ := h
        rcases List.mem_cons.mp hl with h | h
        · cases h
          exact .inl ⟨hne, hs, rfl, rfl⟩
        · exact .inr ⟨hne, hs, l', h⟩

end Calls

/-! ## 3. Sinks -/

section Sinks

variable [Std.TransOrd L]

/-- `GetSinks` returns the nodes without an edge. -/
theorem mem_getSinks {g : Graph T L} {x : String} :
    x ∈ g.getSinks ↔ g.HasNode x ∧ ∀ y, ¬ g.Edge x y := by
  have hadd : ∀ (sinks : Std.TreeSet String) (p : String × Node T L),
      x ∈ (if p.2.dependents.isEmpty then sinks.insert p.1 else sinks) ↔
        x ∈ sinks ∨ (p.1 = x ∧ p.2.dependents.isEmpty) := by
    intro sinks p
    split
    · rename_i he
      rw [Ordered.mem_insert_iff, and_iff_left he, or_comm]
    · rename_i he
      rw [or_iff_left fun h => he h.2]
  unfold getSinks
  rw [Std.TreeMap.foldl_eq_foldl_toList, Ordered.foldl_iff (Q := fun sinks => x ∈ sinks) hadd,
    or_iff_right (by simp)]
  constructor
  · intro h
    obtain ⟨⟨k, n⟩, hmem, rfl, he⟩ := h
    have hn : g.getNodeInfo k = some n := Std.TreeMap.mem_toList_iff_getElem?_eq_some.mp hmem
    refine ⟨hasNode_of_some hn, fun y hy => ?_⟩
    obtain ⟨l, m, hm, hy⟩ := hy
    cases hn.symm.trans hm
    exact Std.TreeSet.not_mem_of_isEmpty he hy
  · intro h
    obtain ⟨hx, hno⟩ := h
    obtain ⟨n, hn⟩ := Option.isSome_iff_exists.mp hx
    refine ⟨(x, n), Std.TreeMap.mem_toList_iff_getElem?_eq_some.mpr hn, rfl, ?_⟩
    rw [Std.TreeSet.isEmpty_iff_forall_not_mem]
    intro d hd
    exact hno d.1 ⟨d.2, n, hn, hd⟩

end Sinks

/-! ## 4. `DFS` -/

/-- The neighbours that the loop body reads, in the order of the set; `none` where
    `assert(node_info_opt.has_value())` fails. -/
def neighbours (g : Graph T L) (id : String) : Option (List String) :=
  (g.getNodeInfo id).map fun n => n.dependents.toList.map (·.1)

/-- `DFS`: the loop of `Lib/Search.lean` over `neighbours`, with enough fuel for the nodes of the
    graph (`dfs_ne_outOfFuel`). -/
def dfs (g : Graph T L) (source : String) : Search.Outcome String :=
  Search.search g.neighbours g.nodes.keys source

theorem isSome_neighbours_iff {g : Graph T L} {x : String} :
    (g.neighbours x).isSome ↔ g.HasNode x := by simp [neighbours, HasNode]

theorem mem_keys_of_neighbours {g : Graph T L} (x : String) (h : (g.neighbours x).isSome) :
    x ∈ g.nodes.keys := by
  rw [Std.TreeMap.mem_keys, Std.TreeMap.mem_iff_isSome_getElem?]
  exact isSome_neighbours_iff.mp h

/-- **The loop of `DFS` ends**, on any graph: cycles, self-reaching nodes and parallel labels
    included. -/
theorem dfs_ne_outOfFuel (g : Graph T L) (source : String) : g.dfs source ≠ .outOfFuel :=
  Search.search_ne_outOfFuel mem_keys_of_neighbours source

variable [Std.TransOrd L]

/-- The search follows exactly the edges; labels that compare as equal are one edge. -/
theorem step_neighbours_iff {g : Graph T L} {x y : String} :
    Search.Step g.neighbours x y ↔ g.Edge x y := by
  unfold Search.Step neighbours Edge EdgeL
  constructor
  · intro hc
    obtain ⟨ys, h, hy⟩ := hc
    obtain ⟨n, hn, rfl⟩ := Option.map_eq_some_iff.mp h
    obtain ⟨⟨z, l⟩, hz, rfl⟩ := List.mem_map.mp hy
    exact ⟨l, n, hn, Std.TreeSet.mem_of_mem_toList hz⟩
  · intro hc
    obtain ⟨l, n, hn, hy⟩ := hc
    obtain ⟨p, hp, heq⟩ := Ordered.exists_mem_toList hy
    have hfst : p.1 = y := Std.compare_eq_iff_eq.mp (Ordering.then_eq_eq.mp heq).1
    exact ⟨_, by rw [hn]; rfl, List.mem_map.mpr ⟨p, hp, hfst⟩⟩

theorem reflTransGen_step_neighbours {g : Graph T L} {x y : String} :
    ReflTransGen (Search.Step g.neighbours) x y ↔ ReflTransGen g.Edge x y := by
  have : Search.Step g.neighbours = g.Edge := by
    funext x y
    exact propext step_neighbours_iff
  rw [this]

/-- **A finished `DFS` returns exactly the reachable nodes.** -/
theorem mem_of_dfs {g : Graph T L} {source : String} {visited : Std.TreeSet String}
    (h : g.dfs source = .done visited) (y : String) :
    y ∈ visited ↔ ReflTransGen g.Edge source y :=
  (Search.mem_of_search h y).trans reflTransGen_step_neighbours

/-- The assertion of `DFS` holds throughout iff everything reachable is a node. -/
theorem dfs_done_iff {g : Graph T L} {source : String} :
    (∃ visited, g.dfs source = .done visited) ↔
      ∀ y, ReflTransGen g.Edge source y → g.HasNode y := by
  unfold dfs
  rw [Search.search_done_iff mem_keys_of_neighbours]
  simp only [reflTransGen_step_neighbours, isSome_neighbours_iff]

/-- In a closed graph `DFS` finishes from every node. -/
theorem Closed.dfs_done {g : Graph T L} (hg : g.Closed) {source : String}
    (hs : g.HasNode source) : ∃ visited, g.dfs source = .done visited := by
  refine dfs_done_iff.mpr fun y hy => ?_
  induction hy with
  | refl => exact hs
  | tail _ e _ => exact hg _ _ e

/-- `HasPath`; `none` where the assertion of `DFS` fails. -/
def hasPath (g : Graph T L) (source target : String) : Option Bool :=
  match g.dfs source with
  | .done visited => some (decide (target ∈ visited))
  | _ => none

theorem hasPath_eq_some {g : Graph T L} {source target : String} {r : Bool}
    (h : g.hasPath source target = some r) :
    r = true ↔ ReflTransGen g.Edge source target := by
  unfold hasPath at h
  cases hd : g.dfs source with
  | done visited =>
      rw [hd] at h
      cases h
      rw [decide_eq_true_eq]
      exact mem_of_dfs hd target
  | failed x => simp [hd] at h
  | outOfFuel => simp [hd] at h

theorem path_of_hasPath {g : Graph T L} {source target : String}
    (h : g.hasPath source target = some true) (hne : source ≠ target) : g.Path source target :=
  (reflTransGen_iff_eq_or_transGen.mp ((hasPath_eq_some h).mp rfl)).resolve_left hne.symm

theorem not_path_of_hasPath {g : Graph T L} {source target : String}
    (h : g.hasPath source target = some false) : ¬ g.Path source target := by
  intro hp
  have := (hasPath_eq_some h).mpr hp.to_reflTransGen
  cases this

end Graph

end Fsracer

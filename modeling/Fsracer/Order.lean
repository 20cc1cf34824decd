/-
  File:      Fsracer/Order.lean
  Subject:   THE INFERRED ORDER on traces that a real run can leave: no cycle, and never against
             the order in which the blocks were observed.

  `ObservedOrder` collects what is assumed of a trace. The invariant `Ranked` carries the
  argument: every node has a rank, and every recorded edge increases it. Entered blocks are
  ranked by their position in the run; events that still wait come after all of them and are
  ranked by their type, by the value of an M event, and by creation. A block that begins drops
  from its pending rank to the last entered one; that is safe because no waiting event reaches it.

  The ranks give acyclicity, and with `recorded_path` every recorded pair stays a path.
-/
import Mathlib
import Fsracer.History
import Fsracer.Recorded

namespace Fsracer

/-! ## 1. Ranks -/

/-- Ranks: entered or waiting, then three tie breakers. -/
abbrev Rank := Nat ×ₗ Nat ×ₗ Nat ×ₗ Nat

def mkRank (a b c d : Nat) : Rank := toLex (a, toLex (b, toLex (c, d)))

theorem mkRank_lt {a b c d a' b' c' d' : Nat} : mkRank a b c d < mkRank a' b' c' d' ↔
    a < a' ∨ a = a' ∧ (b < b' ∨ b = b' ∧ (c < c' ∨ c = c' ∧ d < d')) := by
  simp [mkRank, Prod.Lex.toLex_lt_toLex]

/-- The queue of an event: its class, and the number that orders the class M. -/
def Event.queue (e : Event) : Nat × Nat :=
  match e.eventType with
  | .S | .MAIN => (0, 0)
  | .M => (1, e.eventValue)
  | .W => (2, 0)
  | .EXT => (3, 0)

theorem queue_oldFirst {new old : Event} (h : precedence new old = .oldFirst) :
    old.queue.1 < new.queue.1 ∨ old.queue.1 = new.queue.1 ∧ old.queue.2 ≤ new.queue.2 := by
  rcases new with ⟨nt, nv⟩
  rcases old with ⟨ot, ov⟩
  cases ot <;> cases nt <;> simp [precedence, Event.queue] at h ⊢
  exact h

theorem queue_newFirst {new old : Event} (h : precedence new old = .newFirst) :
    new.queue.1 < old.queue.1 ∨ new.queue.1 = old.queue.1 ∧ new.queue.2 < old.queue.2 := by
  rcases new with ⟨nt, nv⟩
  rcases old with ⟨ot, ov⟩
  cases ot <;> cases nt <;> simp [precedence, Event.queue] at h ⊢
  · exact h
  · split at h <;> cases h

theorem queue_external (e : Event) : e.queue.1 < 3 ∨ e.queue.1 = 3 ∧ e.queue.2 = 0 := by
  rcases e with ⟨t, v⟩
  cases t <;> simp [Event.queue]

/-- The rank of a node. -/
def rank (h : History) (g : DepGraph) (x : String) : Rank :=
  if x ∈ h.entered then mkRank 0 (h.entered.idxOf x) 0 0
  else
    match g.objOf x with
    | some e => mkRank 1 e.queue.1 e.queue.2 ((h.created.map Prod.fst).idxOf x)
    | none => mkRank 1 0 0 0

theorem rank_entered {h : History} {g : DepGraph} {x : String} (hx : x ∈ h.entered) :
    rank h g x = mkRank 0 (h.entered.idxOf x) 0 0 := if_pos hx

theorem rank_waiting {h : History} {g : DepGraph} {x : String} {e : Event} (hx : x ∉ h.entered)
    (he : g.objOf x = some e) :
    rank h g x = mkRank 1 e.queue.1 e.queue.2 ((h.created.map Prod.fst).idxOf x) := by
  rw [rank, if_neg hx, he]

/-- Entered nodes come before waiting ones. -/
theorem rank_lt_of_entered {h : History} {g : DepGraph} {x y : String} (hx : x ∈ h.entered)
    (hy : y ∉ h.entered) : rank h g x < rank h g y := by
  rw [rank_entered hx, rank, if_neg hy]
  cases g.objOf y with
  | none => exact mkRank_lt.mpr (.inl (by omega))
  | some e => exact mkRank_lt.mpr (.inl (by omega))

/-- Nothing that waits comes before an entered node. -/
theorem not_rank_lt_of_waiting {h : History} {g : DepGraph} {x y : String} (hx : x ∉ h.entered)
    (hy : y ∈ h.entered) : ¬ rank h g x < rank h g y :=
  lt_asymm (rank_lt_of_entered hy hx)

/-- A new event changes the rank of no known id. -/
theorem rank_newEvent {h : History} {g g' : DepGraph} {x id : String} {e : Event}
    {pend : Finset String} (hx : h.Known x) (ho : g'.objOf x = g.objOf x) :
    rank { h with created := h.created ++ [(id, e)], pending := pend } g' x = rank h g x := by
  by_cases hent : x ∈ h.entered
  · simp only [rank, hent, if_true]
  · have hc : x ∈ h.created.map Prod.fst := hx.resolve_right hent
    simp only [rank, hent, if_false, ho, List.map_append, List.idxOf_append, if_pos hc]

/-- A block that begins keeps the rank of every entered id. -/
theorem rank_enter_entered {h : History} {g g' : DepGraph} {x id : String} {c : Option String}
    (hx : x ∈ h.entered) :
    rank { h with entered := h.entered ++ [id], current := c } g' x = rank h g x := by
  rw [rank_entered hx, rank_entered (List.mem_append_left _ hx)]
  simp only [List.idxOf_append, if_pos hx]

theorem rank_enter_waiting {h : History} {g g' : DepGraph} {x id : String} {c : Option String}
    (hx : x ∉ h.entered) (hne : x ≠ id) (ho : g'.objOf x = g.objOf x) :
    rank { h with entered := h.entered ++ [id], current := c } g' x = rank h g x := by
  have hx' : x ∉ h.entered ++ [id] := by simp [hx, hne]
  simp only [rank, hx, hx', if_false, ho]

theorem rank_enter_self {h : History} {g : DepGraph} {id : String} {c : Option String}
    (hid : id ∉ h.entered) :
    rank { h with entered := h.entered ++ [id], current := c } g id =
      mkRank 0 h.entered.length 0 0 := by
  rw [rank_entered (by simp)]
  simp [List.idxOf_append, hid]

/-- What was entered before comes before a block that begins. -/
theorem rank_enter_last {h : History} {g : DepGraph} {id s : String} {c : Option String}
    (hid : id ∉ h.entered) (hs : s ∈ h.entered) :
    rank { h with entered := h.entered ++ [id], current := c } g s <
      rank { h with entered := h.entered ++ [id], current := c } g id := by
  rw [rank_enter_entered (g := g) hs, rank_entered hs, rank_enter_self hid]
  exact mkRank_lt.mpr (.inr ⟨rfl, .inl (List.idxOf_lt_length_of_mem hs)⟩)

/-- **A block that begins**: if nothing that waits has an edge to it, the edges still increase
    the rank. -/
theorem rank_enter_lt {h : History} {g g' : DepGraph} {id s t : String} {c : Option String}
    (hid : id ∉ h.entered) (hin : t = id → s ∈ h.entered)
    (ho : ∀ x, x ≠ id → g'.objOf x = g.objOf x) (hlt : rank h g s < rank h g t) :
    rank { h with entered := h.entered ++ [id], current := c } g' s <
      rank { h with entered := h.entered ++ [id], current := c } g' t := by
  by_cases ht : t ∈ h.entered
  · have hs : s ∈ h.entered := by
      by_contra hs
      exact not_rank_lt_of_waiting hs ht hlt
    rw [rank_enter_entered (g := g) hs, rank_enter_entered (g := g) ht]
    exact hlt
  · by_cases hti : t = id
    · subst hti
      exact rank_enter_last hid (hin rfl)
    · have ht' : t ∉ h.entered ++ [id] := by simp [ht, hti]
      by_cases hs : s ∈ h.entered ++ [id]
      · exact rank_lt_of_entered hs ht'
      · rw [List.mem_append, List.mem_singleton, not_or] at hs
        rw [rank_enter_waiting hs.1 hs.2 (ho s hs.2), rank_enter_waiting ht hti (ho t hti)]
        exact hlt

/-! ## 2. The invariant of a run -/

/-- What a run on an observed trace keeps: every created event waits or was entered, and every
    recorded edge joins known ids and increases the rank. -/
structure Ranked (h : History) (st : DepState) : Prop where
  current : ∀ c, h.current = some c → c ∈ h.entered
  alive_created : ∀ x ∈ st.aliveEvents, x ∈ h.created.map Prod.fst
  alive_entered : ∀ x ∈ st.aliveEvents, x ∈ h.entered → h.current = some x
  created_cases : ∀ x ∈ h.created.map Prod.fst, x ∈ st.aliveEvents ∨ x ∈ h.entered
  objs : ∀ x e, (x, e) ∈ h.created → st.depGraph.objOf x = some e
  nodup : (h.created.map Prod.fst).Nodup
  noPendingEv : st.pendingEv = ""
  mainEntered : st.prevMainBlock.isSome → ∃ n : Nat, "MAIN_" ++ toString n ∈ h.entered
  executed : ∀ x ∈ h.executed, x ∈ h.entered
  nodes : ∀ s t, Recorded st.depGraph s t → h.Known s ∧ h.Known t
  increasing : ∀ s t, Recorded st.depGraph s t → rank h st.depGraph s < rank h st.depGraph t

/-- What is asked of one action. -/
def StepOk (h : History) (st : DepState) : Action → Prop
  | .enter b => h.current = none ∧ (h.Reads b → b.getPrettyBlockId ∉ h.entered ∧
      (b.isMain = true → ¬ h.Known b.getPrettyBlockId ∧
        ((∀ n : Nat, "MAIN_" ++ toString n ∉ h.entered) ∨
          ∀ x, x ≠ b.getPrettyBlockId → h.Known x → x ∈ h.entered)) ∧
      (b.isMain = false → ∀ z ∈ st.aliveEvents, z ≠ b.getPrettyBlockId →
        ¬ st.depGraph.Path z b.getPrettyBlockId))
  | .expr (.newEvent e) => h.current.isSome → ¬ h.Known (toString e.eventId)
  | .expr (.link e) => h.current.isSome → e.sourceEv ≠ e.targetEv ∧
      toString e.targetEv ∉ h.entered ∧
      ∃ l v, h.created = l ++ [(toString e.targetEv, ⟨.EXT, v⟩)]
  | .expr _ => True
  | .leave b => ∀ c, h.current = some c → c = b.getPrettyBlockId

theorem Ranked.acyclic {h : History} {st : DepState} (hr : Ranked h st) :
    Reach.Acyclic (Recorded st.depGraph) :=
  Reach.acyclic_of_rank (rank h st.depGraph) hr.increasing

/-- The invariant reads the created, entered and executed ids, the current block, the graph, the
    alive events and two pointers. -/
theorem Ranked.of_same {h h' : History} {st st' : DepState} (hr : Ranked h st)
    (hcr : h'.created = h.created) (hen : h'.entered = h.entered)
    (hex : h'.executed = h.executed) (hcu : h'.current = h.current)
    (hg : st'.depGraph = st.depGraph) (hal : st'.aliveEvents = st.aliveEvents)
    (hpe : st'.pendingEv = st.pendingEv) (hpm : st'.prevMainBlock = st.prevMainBlock) :
    Ranked h' st' := by
  have hrank : rank h' st'.depGraph = rank h st.depGraph := by
    funext x
    simp only [rank, hcr, hen, hg]
  have hk : ∀ x, h'.Known x ↔ h.Known x := by
    intro x
    simp only [History.Known, hcr, hen]
  refine ⟨?_, ?_, ?_, ?_, ?_, ?_, ?_, ?_, ?_, fun s t hrec => ?_, fun s t hrec => ?_⟩
  · rw [hcu, hen]
    exact hr.current
  · rw [hal, hcr]
    exact hr.alive_created
  · rw [hal, hen, hcu]
    exact hr.alive_entered
  · rw [hal, hcr, hen]
    exact hr.created_cases
  · rw [hcr, hg]
    exact hr.objs
  · rw [hcr]
    exact hr.nodup
  · rw [hpe]
    exact hr.noPendingEv
  · rw [hpm, hen]
    exact hr.mainEntered
  · rw [hex, hen]
    exact hr.executed
  · rw [hg] at hrec
    rw [hk, hk]
    exact hr.nodes s t hrec
  · rw [hg] at hrec
    rw [hrank]
    exact hr.increasing s t hrec

theorem mem_map_fst {l : List (String × Event)} {x : String} :
    x ∈ l.map Prod.fst ↔ ∃ e, (x, e) ∈ l := by simp

/-! ### A new event -/

/-- The queue order of two waiting events decides their ranks, creation breaks ties. -/
theorem rank_lt_of_queue {h : History} {g : DepGraph} {x y : String} {e f : Event}
    (hx : x ∉ h.entered) (hy : y ∉ h.entered) (he : g.objOf x = some e) (hf : g.objOf y = some f)
    (hq : e.queue.1 < f.queue.1 ∨ e.queue.1 = f.queue.1 ∧ (e.queue.2 < f.queue.2 ∨
      e.queue.2 = f.queue.2 ∧
        (h.created.map Prod.fst).idxOf x < (h.created.map Prod.fst).idxOf y)) :
    rank h g x < rank h g y := by
  rw [rank_waiting hx he, rank_waiting hy hf, mkRank_lt]
  exact .inr ⟨rfl, hq⟩

/-- A new node has the object of its event; the other objects stay. -/
theorem objOf_analyzeNewEvent {st : DepState} {e : NewEventExpr}
    (hnode : ¬ st.depGraph.HasNode (toString e.eventId)) (x : String) :
    (analyzeNewEvent st e).depGraph.objOf x =
      if x = toString e.eventId then some e.event else st.depGraph.objOf x := by
  rw [analyzeNewEvent_eq, Graph.objOf_addEdges, Graph.objOf_addNode hnode]

/-- The edges of the new graph: old ones, the creating edge, and the priorities. -/
theorem Ranked.recorded_newEvent {h : History} {st : DepState} (hr : Ranked h st)
    (ha : Agrees h ⟨st, true⟩) {c : String} (hc : h.current = some c) {e : NewEventExpr}
    (hfresh : ¬ h.Known (toString e.eventId)) {s t : String}
    (hrec : Recorded (analyzeNewEvent st e).depGraph s t) : Recorded st.depGraph s t ∨
      (s = c ∧ t = toString e.eventId) ∨
      ∃ a old, a ∈ st.aliveEvents ∧ a ≠ c ∧ st.depGraph.objOf a = some old ∧
        ((precedence e.event old = .oldFirst ∧ s = a ∧ t = toString e.eventId) ∨
          (precedence e.event old = .newFirst ∧ s = toString e.eventId ∧ t = a)) := by
  have hnode : ¬ st.depGraph.HasNode (toString e.eventId) := fun h' => hfresh ((ha.node _).mp h')
  rw [analyzeNewEvent_eq st e] at hrec
  rcases recorded_addEdges.mp hrec with h' | ⟨_, _, l, hcall⟩
  · exact .inl (recorded_addNode.mp h')
  · refine .inr ?_
    rcases mem_newEventCalls.mp hcall with ⟨hp, _⟩ | ⟨hs, ht, _⟩ | ⟨a, hal, hcall⟩
    · exact absurd hr.noPendingEv hp
    · exact .inl ⟨hs.trans (ha.current c hc), ht⟩
    · obtain ⟨_, hne, old, ho, hp⟩ := mem_dependencyCalls.mp hcall
      have hka : h.Known a := .inl (hr.alive_created a hal)
      have hnid : a ≠ toString e.eventId := fun heq => hfresh (heq ▸ hka)
      rw [Graph.objOf_addNode hnode, if_neg hnid] at ho
      refine .inr ⟨a, old, hal, fun heq => hne ?_, ho, hp⟩
      rw [heq]
      exact ha.current c hc

/-- The table decides the ranks of a waiting event `a` and of an event `id` that was created after
    it. -/
theorem rank_lt_of_precedence {h : History} {g : DepGraph} {a id s t : String} {old new : Event}
    (hae : a ∉ h.entered) (hide : id ∉ h.entered) (hoa : g.objOf a = some old)
    (hoid : g.objOf id = some new)
    (hidx : (h.created.map Prod.fst).idxOf a < (h.created.map Prod.fst).idxOf id)
    (hp : (precedence new old = .oldFirst ∧ s = a ∧ t = id) ∨
      (precedence new old = .newFirst ∧ s = id ∧ t = a)) : rank h g s < rank h g t := by
  rcases hp with ⟨hp, rfl, rfl⟩ | ⟨hp, rfl, rfl⟩
  · refine rank_lt_of_queue hae hide hoa hoid ?_
    rcases queue_oldFirst hp with h1 | ⟨h1, h2⟩
    · exact .inl h1
    · rcases Nat.lt_or_eq_of_le h2 with h2 | h2
      · exact .inr ⟨h1, .inl h2⟩
      · exact .inr ⟨h1, .inr ⟨h2, hidx⟩⟩
  · refine rank_lt_of_queue hide hae hoid hoa ?_
    rcases queue_newFirst hp with h1 | ⟨h1, h2⟩
    · exact .inl h1
    · exact .inr ⟨h1, .inl h2⟩

theorem Ranked.newEvent {h : History} {st : DepState} (hr : Ranked h st)
    (ha : Agrees h ⟨st, true⟩) {c : String} (hc : h.current = some c) (e : NewEventExpr)
    (hfresh : ¬ h.Known (toString e.eventId)) :
    Ranked (h.step (.expr (.newEvent e))) (analyzeNewEvent st e) := by
  have hold : ∀ x, h.Known x → (h.step (.expr (.newEvent e))).Known x :=
    fun x hx => History.Known.step hx _
  have hnew : (h.step (.expr (.newEvent e))).Known (toString e.eventId) := by
    rw [History.step_newEvent hc]
    left
    simp
  rw [History.step_newEvent hc] at hold hnew ⊢
  have hid : toString e.eventId ∉ h.created.map Prod.fst ∧ toString e.eventId ∉ h.entered :=
    not_or.mp hfresh
  have hobj := objOf_analyzeNewEvent fun h' => hfresh ((ha.node (toString e.eventId)).mp h')
  have hobj_old : ∀ x, h.Known x →
      (analyzeNewEvent st e).depGraph.objOf x = st.depGraph.objOf x := by
    intro x hx
    have hne : x ≠ toString e.eventId := fun heq => hfresh (heq ▸ hx)
    rw [hobj, if_neg hne]
  refine ⟨hr.current, fun x hx => ?_, fun x hx hent => ?_, fun x hx => ?_, fun x ev hx => ?_, ?_,
    rfl, hr.mainEntered, hr.executed, fun s t h' => ?_, fun s t h' => ?_⟩
  · rcases Ordered.mem_insert_iff.mp hx with rfl | hx
    · simp
    · rw [List.map_append]
      exact List.mem_append_left _ (hr.alive_created x hx)
  · rcases Ordered.mem_insert_iff.mp hx with rfl | hx
    · exact absurd hent hid.2
    · exact hr.alive_entered x hx hent
  · rw [List.map_append, List.mem_append] at hx
    rcases hx with hx | hx
    · exact (hr.created_cases x hx).imp_left fun h' => Ordered.mem_insert_iff.mpr (.inr h')
    · exact .inl (Ordered.mem_insert_iff.mpr (.inl (List.mem_singleton.mp hx).symm))
  · rw [hobj]
    rcases List.mem_append.mp hx with hx | hx
    · have hxc : x ∈ h.created.map Prod.fst := mem_map_fst.mpr ⟨ev, hx⟩
      have hne : x ≠ toString e.eventId := fun heq => hid.1 (heq ▸ hxc)
      rw [if_neg hne]
      exact hr.objs x ev hx
    · cases List.mem_singleton.mp hx
      rw [if_pos rfl]
  · rw [List.map_append, List.nodup_append]
    refine ⟨hr.nodup, by simp, fun x hx y hy => ?_⟩
    rw [List.map_singleton, List.mem_singleton] at hy
    intro heq
    rw [heq, hy] at hx
    exact hid.1 hx
  · rcases hr.recorded_newEvent ha hc hfresh h' with h' | ⟨rfl, rfl⟩ |
      ⟨a, old, hal, _, _, ⟨_, rfl, rfl⟩ | ⟨_, rfl, rfl⟩⟩
    · exact ⟨hold s (hr.nodes s t h').1, hold t (hr.nodes s t h').2⟩
    · exact ⟨hold s (.inr (hr.current s hc)), hnew⟩
    · exact ⟨hold s (.inl (hr.alive_created s hal)), hnew⟩
    · exact ⟨hnew, hold t (.inl (hr.alive_created t hal))⟩
  · rcases hr.recorded_newEvent ha hc hfresh h' with h' | ⟨rfl, rfl⟩ | ⟨a, old, hal, hne, ho, hp⟩
    · obtain ⟨hs, ht⟩ := hr.nodes s t h'
      rw [rank_newEvent hs (hobj_old s hs), rank_newEvent ht (hobj_old t ht)]
      exact hr.increasing s t h'
    · exact rank_lt_of_entered (hr.current s hc) hid.2
    · have hac := hr.alive_created a hal
      have hae : a ∉ h.entered := by
        intro hae
        have := hr.alive_entered a hal hae
        rw [hc] at this
        exact hne (Option.some.inj this).symm
      refine rank_lt_of_precedence hae hid.2 ((hobj_old a (.inl hac)).trans ho)
        (by rw [hobj, if_pos rfl]) ?_ hp
      rw [List.map_append, List.idxOf_append, List.idxOf_append, if_pos hac, if_neg hid.1]
      have := List.idxOf_lt_length_of_mem hac
      omega

/-! ### A link -/

/-- Everything known comes before an external event that was created last. -/
theorem Ranked.lt_external {h : History} {st : DepState} (hr : Ranked h st) {s x : String}
    {l : List (String × Event)} {v : Nat} (hl : h.created = l ++ [(x, ⟨.EXT, v⟩)])
    (hx : x ∉ h.entered) (hs : h.Known s) (hne : s ≠ x) :
    rank h st.depGraph s < rank h st.depGraph x := by
  by_cases hse : s ∈ h.entered
  · exact rank_lt_of_entered hse hx
  · have hsc : s ∈ h.created.map Prod.fst := hs.resolve_right hse
    obtain ⟨ev, hev⟩ := mem_map_fst.mp hsc
    have hsl : s ∈ l.map Prod.fst := by
      rw [hl, List.map_append, List.mem_append] at hsc
      exact hsc.resolve_right fun h' => hne (List.mem_singleton.mp h')
    have hxl : x ∉ l.map Prod.fst := by
      have hn := hr.nodup
      rw [hl, List.map_append] at hn
      exact fun h' => List.disjoint_of_nodup_append hn h' (by simp)
    have hidx : (h.created.map Prod.fst).idxOf s < (h.created.map Prod.fst).idxOf x := by
      rw [hl, List.map_append, List.idxOf_append, List.idxOf_append, if_pos hsl, if_neg hxl]
      have := List.idxOf_lt_length_of_mem hsl
      omega
    have hlast : (x, (⟨.EXT, v⟩ : Event)) ∈ h.created := by
      rw [hl]
      simp
    refine rank_lt_of_queue hse hx (hr.objs s ev hev) (hr.objs x _ hlast) ?_
    exact (queue_external ev).imp_right fun ⟨q1, q2⟩ => ⟨q1, .inr ⟨q2, hidx⟩⟩

theorem Ranked.link {h : History} {st : DepState} (hr : Ranked h st) (ha : Agrees h ⟨st, true⟩)
    (e : LinkExpr) (hne : toString e.targetEv ∉ h.entered) {l : List (String × Event)} {v : Nat}
    (hl : h.created = l ++ [(toString e.targetEv, ⟨.EXT, v⟩)]) :
    Ranked h (analyzeLink st e) := by
  have hg := congrArg DepState.depGraph (analyzeLink_eq st e)
  have hobj : ∀ x, (analyzeLink st e).depGraph.objOf x = st.depGraph.objOf x := by
    intro x
    rw [hg, Graph.objOf_addEdges]
  have hframe : (analyzeLink st e).aliveEvents = st.aliveEvents ∧
      (analyzeLink st e).pendingEv = st.pendingEv ∧
      (analyzeLink st e).prevMainBlock = st.prevMainBlock := by
    rw [analyzeLink_eq]
    exact ⟨rfl, rfl, rfl⟩
  obtain ⟨h1, h2, h3⟩ := hframe
  have hrank : ∀ x, rank h (analyzeLink st e).depGraph x = rank h st.depGraph x := by
    intro x
    simp only [rank, hobj]
  have hrec : ∀ s t, Recorded (analyzeLink st e).depGraph s t → Recorded st.depGraph s t ∨
      (s ≠ t ∧ h.Known s ∧ s = toString e.sourceEv ∧ t = toString e.targetEv) := by
    intro s t h'
    rw [hg] at h'
    rcases recorded_addEdges.mp h' with h' | ⟨hst, hs, k, hcall⟩
    · exact .inl h'
    · unfold linkCalls at hcall
      split at hcall
      · cases hcall
      · cases List.mem_singleton.mp hcall
        exact .inr ⟨hst, (ha.node _).mp hs, rfl, rfl⟩
  have htarget : (toString e.targetEv, (⟨.EXT, v⟩ : Event)) ∈ h.created := by
    rw [hl]
    simp
  refine ⟨hr.current, h1 ▸ hr.alive_created, h1 ▸ hr.alive_entered, h1 ▸ hr.created_cases,
    fun x ev hx => ?_, hr.nodup, h2 ▸ hr.noPendingEv, h3 ▸ hr.mainEntered, hr.executed,
    fun s t h' => ?_, fun s t h' => ?_⟩
  · rw [hobj]
    exact hr.objs x ev hx
  · rcases hrec s t h' with h' | ⟨_, hs, _, rfl⟩
    · exact hr.nodes s t h'
    · exact ⟨hs, .inl (mem_map_fst.mpr ⟨_, htarget⟩)⟩
  · rw [hrank, hrank]
    rcases hrec s t h' with h' | ⟨hst, hs, _, rfl⟩
    · exact hr.increasing s t h'
    · exact hr.lt_external hl hne hs hst

/-! ### The beginning and the end of a block -/

/-- The frame of a block that is read: graph and pointers aside, nothing changes. -/
theorem Ranked.enter_of {h : History} {st st' : DepState} (hr : Ranked h st) {b : Block}
    (hread : h.Reads b) (hid : b.getPrettyBlockId ∉ h.entered) (hcur : h.current = none)
    (halive : st'.aliveEvents = st.aliveEvents) (hpend : st'.pendingEv = "")
    (hmain : st'.prevMainBlock.isSome → st.prevMainBlock.isSome ∨
      ∃ n : Nat, b.getPrettyBlockId = "MAIN_" ++ toString n)
    (hobj : ∀ x, x ≠ b.getPrettyBlockId ∨ h.Known x →
      st'.depGraph.objOf x = st.depGraph.objOf x)
    (hrec : ∀ s t, Recorded st'.depGraph s t → Recorded st.depGraph s t ∨
      (s = b.getPrettyBlockId ∧ t ≠ s ∧ t ∈ st.aliveEvents) ∨
      (t = b.getPrettyBlockId ∧ s ∈ h.entered))
    (hin : ∀ s, Recorded st.depGraph s b.getPrettyBlockId → s ∈ h.entered) :
    Ranked (h.step (.enter b)) st' := by
  rw [History.step_enter hread]
  have hwait : ∀ x ∈ st.aliveEvents, x ∉ h.entered := by
    intro x hx hent
    have := hr.alive_entered x hx hent
    rw [hcur] at this
    cases this
  refine ⟨fun c hc => ?_, halive ▸ hr.alive_created, fun x hx hent => ?_, fun x hx => ?_,
    fun x ev hx => ?_, hr.nodup, hpend, fun h' => ?_, fun x hx => ?_, fun s t h' => ?_,
    fun s t h' => ?_⟩
  · cases hc
    simp
  · rw [halive] at hx
    rcases List.mem_append.mp hent with hent | hent
    · exact absurd hent (hwait x hx)
    · rw [List.mem_singleton.mp hent]
  · rw [halive]
    exact (hr.created_cases x hx).imp_right fun h' => List.mem_append_left _ h'
  · rw [hobj x (.inr (.inl (mem_map_fst.mpr ⟨ev, hx⟩)))]
    exact hr.objs x ev hx
  · rcases hmain h' with h' | ⟨n, hn⟩
    · obtain ⟨n, hn⟩ := hr.mainEntered h'
      exact ⟨n, List.mem_append_left _ hn⟩
    · exact ⟨n, by simp [hn]⟩
  · exact List.mem_append_left _ (hr.executed x hx)
  · have hold : ∀ x, h.Known x → x ∈ h.created.map Prod.fst ∨
        x ∈ h.entered ++ [b.getPrettyBlockId] :=
      fun x hx => hx.imp_right fun hx => List.mem_append_left _ hx
    rcases hrec s t h' with h' | ⟨rfl, _, ht⟩ | ⟨rfl, hs⟩
    · exact ⟨hold s (hr.nodes s t h').1, hold t (hr.nodes s t h').2⟩
    · exact ⟨.inr (by simp), .inl (hr.alive_created t ht)⟩
    · exact ⟨hold s (.inr hs), .inr (by simp)⟩
  · rcases hrec s t h' with h' | ⟨rfl, hne, ht⟩ | ⟨rfl, hs⟩
    · exact rank_enter_lt hid (fun heq => hin s (heq ▸ h')) (fun x hx => hobj x (.inl hx))
        (hr.increasing s t h')
    · refine rank_lt_of_entered (by simp) ?_
      rw [List.mem_append, List.mem_singleton, not_or]
      exact ⟨hwait t ht, hne⟩
    · exact rank_enter_last hid hs

/-- No waiting event has an edge to a block that begins. -/
theorem Ranked.recorded_entered {p : List Action} (hr : Ranked (history p) (run p).st)
    {id : String} (hfirst : ∀ z ∈ (run p).st.aliveEvents, z ≠ id → ¬ (run p).st.depGraph.Path z id)
    {s : String} (h : Recorded (run p).st.depGraph s id) : s ∈ (history p).entered := by
  by_contra hs
  have hsc : s ∈ (history p).created.map Prod.fst := (hr.nodes s id h).1.resolve_right hs
  have hal : s ∈ (run p).st.aliveEvents := (hr.created_cases s hsc).resolve_right hs
  exact hfirst s hal ((consistent_run p).ne s id h) (recorded_path p hr.acyclic h)

/-- The edges of a block that begins: old ones, those to the waiting W events, and those from
    sinks to a later main block. -/
theorem Ranked.recorded_enter {p : List Action} (hr : Ranked (history p) (run p).st)
    (ha : Agrees (history p) (run p)) {b : Block}
    (hmain : b.isMain = true → (∀ n : Nat, "MAIN_" ++ toString n ∉ (history p).entered) ∨
      ∀ x, x ≠ b.getPrettyBlockId → (history p).Known x → x ∈ (history p).entered)
    {s t : String} (hrec : Recorded ((run p).step (.enter b)).st.depGraph s t) :
    Recorded (run p).st.depGraph s t ∨
      (s = b.getPrettyBlockId ∧ t ≠ s ∧ t ∈ (run p).st.aliveEvents) ∨
      (t = b.getPrettyBlockId ∧ s ∈ (history p).entered) := by
  rcases (recorded_step_iff (consistent_run p) _).mp hrec with h | ⟨hne, _, l, hc⟩
  · exact .inl h
  · rcases mem_edgeCalls_enter hc with ⟨_, hm, hc⟩ | ⟨_, info, a, hi, _, hal, hc⟩
    · obtain ⟨_, rfl, hprev, hs⟩ := mem_mainCalls.mp hc
      obtain ⟨n, hn⟩ := hr.mainEntered hprev
      rcases hmain hm with hfirst | hall
      · -- the first main block: no sink is joined to it
        exact absurd hn (hfirst n)
      · have hnode := (Graph.hasNode_addNode.mp (Graph.mem_getSinks.mp hs).1).resolve_left hne
        exact .inr (.inr ⟨rfl, hall s hne ((ha.node s).mp hnode)⟩)
    · obtain ⟨_, rfl, rfl, _⟩ := mem_wCalls.mp hc
      exact .inr (.inl ⟨Graph.nodeId_of_getNodeInfo hi, hne.symm, hal⟩)

theorem Ranked.enter {p : List Action} (hr : Ranked (history p) (run p).st)
    (ha : Agrees (history p) (run p)) (b : Block)
    (hok : StepOk (history p) (run p).st (.enter b)) :
    Ranked ((history p).step (.enter b)) ((run p).step (.enter b)).st := by
  show Ranked _ (enterBlock (run p).st b).1
  obtain ⟨hcur, hok⟩ := hok
  by_cases hread : (history p).Reads b
  · obtain ⟨hid, hmain, hfirst⟩ := hok hread
    have hrec : ∀ s t, Recorded (enterBlock (run p).st b).1.depGraph s t →
        Recorded (run p).st.depGraph s t ∨
          (s = b.getPrettyBlockId ∧ t ≠ s ∧ t ∈ (run p).st.aliveEvents) ∨
          (t = b.getPrettyBlockId ∧ s ∈ (history p).entered) :=
      fun s t h' => hr.recorded_enter ha (fun hm => (hmain hm).2) h'
    rcases enterBlock_cases (run p).st b with ⟨he, _⟩ | ⟨_, hm, h⟩ | ⟨hm, hn, _⟩ | ⟨hm, info, hi, h⟩
    · exact absurd hread.1 (by simp [he])
    · -- the main block is a fresh node
      obtain ⟨hnew, _⟩ := hmain hm
      have hnode : ¬ (run p).st.depGraph.HasNode b.getPrettyBlockId :=
        fun h' => hnew ((ha.node _).mp h')
      rw [h] at hrec ⊢
      refine hr.enter_of hread hid hcur rfl hr.noPendingEv
        (fun _ => .inr ⟨b.blockId, getPrettyBlockId_main hm⟩) (fun x hx => ?_) hrec
        (fun s h' => absurd (hr.nodes s _ h').2 hnew)
      have hne : x ≠ b.getPrettyBlockId :=
        hx.elim (fun h' => h') fun hx heq => hnew (heq ▸ hx)
      show (beginMain _ b).depGraph.objOf x = _
      rw [beginMain_eq, Graph.objOf_addEdges, Graph.objOf_addNode hnode, if_neg hne]
    · have hk : (history p).Known b.getPrettyBlockId := hread.2.resolve_left (by simp [hm])
      exact absurd ((ha.node _).mpr hk) hn
    · -- the block of an event: pruning keeps the objects
      have hattr : executedAttr ∉ info.attributes := by
        intro hx
        have := (ha.attr b.getPrettyBlockId).mp ⟨info, hi, hx⟩
        exact hid (hr.executed _ this)
      rw [h] at hrec ⊢
      refine hr.enter_of hread hid hcur rfl ?_ .inl (fun x _ => ?_) hrec
        (fun s h' => hr.recorded_entered (hfirst hm) h')
      · simp only [beginEvent, hattr, if_false]
        exact hr.noPendingEv
      · show (pruneEdges (connectWithWEvents _ _ info) _).objOf x = _
        rw [(pruneEdges_spec _ _).1.objOf, connectWithWEvents_eq, Graph.objOf_addEdges]
  · have h2 : (enterBlock (run p).st b).2 ≠ true := fun h' => hread ((ha.enter_reads b).mp h')
    have hsame : { history p with current := none } = history p := by
      rw [← hcur]
    rw [History.step_enter_skip hread, hsame]
    rcases enterBlock_cases (run p).st b with ⟨_, h⟩ | ⟨_, _, h⟩ | ⟨_, _, h⟩ | ⟨_, _, _, h⟩ <;>
      rw [h] at h2 ⊢
    · exact hr
    · exact absurd rfl h2
    · exact hr.of_same rfl rfl rfl rfl rfl rfl rfl rfl
    · exact absurd rfl h2

theorem Ranked.leave {h : History} {st : DepState} (hr : Ranked h st) {c : String}
    (hc : h.current = some c) (b : Block) (hb : c = b.getPrettyBlockId) :
    Ranked (h.step (.leave b)) (leaveBlock st b) := by
  subst hb
  rw [History.step_leave hc]
  have hent : b.getPrettyBlockId ∈ h.entered := hr.current _ hc
  have hrank : ∀ x, rank { h with
      executed := h.executed ++ [b.getPrettyBlockId]
      pending := h.pending.erase b.getPrettyBlockId
      current := none } (leaveBlock st b).depGraph x = rank h st.depGraph x := by
    intro x
    simp only [rank, leaveBlock, Graph.objOf_addNodeAttr]
  have hrec : ∀ s t, Recorded (leaveBlock st b).depGraph s t → Recorded st.depGraph s t := by
    intro s t h'
    simpa [Recorded, leaveBlock] using h'
  refine ⟨fun d hd => (by cases hd), fun x hx => ?_, fun x hx hxe => ?_, fun x hx => ?_,
    fun x ev hx => ?_, hr.nodup, hr.noPendingEv, hr.mainEntered, fun x hx => ?_,
    fun s t h' => hr.nodes s t (hrec s t h'), fun s t h' => ?_⟩
  · exact hr.alive_created x (Ordered.mem_erase_iff.mp hx).2
  · obtain ⟨hne, hx⟩ := Ordered.mem_erase_iff.mp hx
    have := hr.alive_entered x hx hxe
    rw [hc] at this
    exact absurd (Option.some.inj this) hne
  · by_cases hxb : b.getPrettyBlockId = x
    · exact .inr (hxb ▸ hent)
    · exact (hr.created_cases x hx).imp_left fun h' => Ordered.mem_erase_iff.mpr ⟨hxb, h'⟩
  · show (st.depGraph.addNodeAttr _ _).objOf x = _
    rw [Graph.objOf_addNodeAttr]
    exact hr.objs x ev hx
  · rcases List.mem_append.mp hx with hx | hx
    · exact hr.executed x hx
    · rw [List.mem_singleton.mp hx]
      exact hent
  · rw [hrank, hrank]
    exact hr.increasing s t (hrec s t h')

/-! ### A trigger, and all actions -/

/-- A trigger takes an event off `pending` and changes the context; the invariant reads neither. -/
theorem Ranked.trigger {h : History} {st : DepState} (hr : Ranked h st) (e : Trigger) :
    Ranked (h.step (.expr (.trigger e))) (analyzeTrigger st e) := by
  cases hc : h.current with
  | none =>
      rw [History.step_expr_skip hc]
      exact hr.of_same rfl rfl rfl rfl rfl rfl rfl rfl
  | some c =>
      rw [History.step_trigger hc]
      split
      · exact hr.of_same rfl rfl rfl rfl rfl rfl rfl rfl
      · exact hr.of_same rfl rfl rfl rfl rfl rfl rfl rfl

/-- **One action keeps the invariant.** -/
theorem Ranked.step {p : List Action} (hr : Ranked (history p) (run p).st)
    (ha : Agrees (history p) (run p)) (a : Action) (hok : StepOk (history p) (run p).st a) :
    Ranked ((history p).step a) ((run p).step a).st := by
  have hrd := ha.reading
  cases a with
  | enter b => exact hr.enter ha b hok
  | expr e =>
      cases hc : (history p).current with
      | none =>
          rw [hc] at hrd
          rw [History.step_expr_skip hc, step_expr_skipped hrd]
          exact hr
      | some c =>
          rw [hc] at hrd
          have hst : (run p).step (.expr e) = ⟨analyzeExpr (run p).st e, true⟩ := by
            simp only [Machine.step, hrd, Option.isSome_some, if_true]
          have ha' : Agrees (history p) ⟨(run p).st, true⟩ := by
            rw [show (true : Bool) = (run p).reading from hrd.symm]
            exact ha
          rw [hst]
          cases e with
          | submitOp e => exact hr
          | newEvent e => exact hr.newEvent ha' hc e (hok (by rw [hc]; rfl))
          | link e =>
              obtain ⟨_, hne, l, v, hl⟩ := hok (by rw [hc]; rfl)
              exact hr.link ha' e hne hl
          | trigger e => exact hr.trigger e
  | leave b =>
      cases hc : (history p).current with
      | none =>
          rw [hc] at hrd
          rw [History.step_leave_skip hc, step_leave_skipped hrd]
          exact hr
      | some c =>
          rw [hc] at hrd
          have hst : (run p).step (.leave b) = ⟨leaveBlock (run p).st b, false⟩ := by
            simp only [Machine.step, hrd, Option.isSome_some, if_true]
          rw [hst]
          exact hr.leave hc b (hok c hc)

theorem ranked_start : Ranked (history []) (run []).st := by
  refine ⟨fun c hc => (by cases hc), ?_, ?_, ?_, ?_, ?_, rfl, ?_, ?_, ?_, ?_⟩ <;>
    simp [history, History.empty, run, Machine.start, DepState.init, Recorded, Graph.Before]

end Fsracer

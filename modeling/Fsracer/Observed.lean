/-
  File:      Fsracer/Observed.lean
  Subject:   OBSERVED TRACES: what is assumed of a recorded execution, and the two results on the
             inferred order.

  `ObservedOrder` asks only for things that the text of a trace shows, and for one fact about the
  run: when the block of a created event begins, no other alive event leads to it. `ObservedMains`
  asks the same of a trace with any number of main blocks.

  * **`observed_order_agrees`** -- no cycle, and no path against the order of the blocks;
  * **`model_order_kept`** -- every order of the event model is a path of the final graph.
-/
import Mathlib
import Fsracer.Order

namespace Fsracer

/-! ## 1. The assumptions -/

/-- The event that an action creates. -/
def Action.createdId : Action → Option Nat
  | .expr (.newEvent e) => some e.eventId
  | _ => none

/-- The block that an action begins. -/
def Action.block : Action → Option Block
  | .enter b => some b
  | _ => none

/-- A trace as one execution leaves it. -/
structure ObservedOrder (t : Trace) : Prop where
  /-- There is one main block that holds expressions. -/
  oneMain : (t.blocks.filter fun b => b.isMain && !b.exprs.isEmpty).length = 1
  /-- Every event is created by at most one `newEvent` … -/
  createdOnce : (t.actions.filterMap Action.createdId).Nodup
  /-- … and has at most one block, … -/
  executedOnce : ((t.blocks.filter fun b => !b.isMain).map Block.blockId).Nodup
  /-- … which comes after the `newEvent`. -/
  executedAfter : ∀ p e, p ++ [.expr (.newEvent e)] <+: t.actions → ∀ b, .enter b ∈ p →
    b.isMain = false → b.blockId ≠ e.eventId
  /-- A link follows the creation of its target, an external event. -/
  linked : ∀ p e, p ++ [.expr (.link e)] <+: t.actions → e.sourceEv ≠ e.targetEv ∧
    ∃ q n, p = q ++ [.expr (.newEvent n)] ∧ n.eventId = e.targetEv ∧ n.event.eventType = .EXT
  /-- When the block of a created event begins, no other alive event has a path to it. -/
  first : ∀ p b, p ++ [.enter b] <+: t.actions → b.isMain = false →
    (run p).st.depGraph.HasNode b.getPrettyBlockId → ∀ z ∈ (run p).st.aliveEvents,
      z ≠ b.getPrettyBlockId → ¬ (run p).st.depGraph.Path z b.getPrettyBlockId

/-- A trace as one execution leaves it, with any number of main blocks. -/
structure ObservedMains (t : Trace) : Prop where
  /-- The main blocks that hold expressions have different numbers, … -/
  mainsOnce : ((t.blocks.filter fun b => b.isMain && !b.exprs.isEmpty).map Block.blockId).Nodup
  createdOnce : (t.actions.filterMap Action.createdId).Nodup
  executedOnce : ((t.blocks.filter fun b => !b.isMain).map Block.blockId).Nodup
  executedAfter : ∀ p e, p ++ [.expr (.newEvent e)] <+: t.actions → ∀ b, .enter b ∈ p →
    b.isMain = false → b.blockId ≠ e.eventId
  linked : ∀ p e, p ++ [.expr (.link e)] <+: t.actions → e.sourceEv ≠ e.targetEv ∧
    ∃ q n, p = q ++ [.expr (.newEvent n)] ∧ n.eventId = e.targetEv ∧ n.event.eventType = .EXT
  first : ∀ p b, p ++ [.enter b] <+: t.actions → b.isMain = false →
    (run p).st.depGraph.HasNode b.getPrettyBlockId → ∀ z ∈ (run p).st.aliveEvents,
      z ≠ b.getPrettyBlockId → ¬ (run p).st.depGraph.Path z b.getPrettyBlockId

/-- One main block has one number. -/
theorem ObservedOrder.mains {t : Trace} (ht : ObservedOrder t) : ObservedMains t where
  mainsOnce := by
    obtain ⟨b, hb⟩ := List.length_eq_one_iff.mp ht.oneMain
    rw [hb]
    exact List.nodup_singleton _
  createdOnce := ht.createdOnce
  executedOnce := ht.executedOnce
  executedAfter := ht.executedAfter
  linked := ht.linked
  first := ht.first

/-- The non-empty main block `b` begins after the actions `p`, and it is not the first one. -/
structure MainMoment (t : Trace) (p : List Action) (b : Block) : Prop where
  reached : p ++ [.enter b] <+: t.actions
  main : b.isMain = true
  nonempty : b.isEmptyMain = false
  later : ∃ b', .enter b' ∈ p ∧ b'.isMain = true ∧ b'.isEmptyMain = false

/-! ## 2. Histories and the text of the trace -/

theorem filterMap_block_actions (bs : List Block) :
    (bs.flatMap Block.actions).filterMap Action.block = bs := by
  induction bs with
  | nil => rfl
  | cons b bs ih =>
      have hexprs : (b.exprs.map Action.expr).filterMap Action.block = [] := by
        rw [List.filterMap_eq_nil_iff]
        intro a ha
        obtain ⟨e, _, rfl⟩ := List.mem_map.mp ha
        rfl
      have hb : b.actions.filterMap Action.block = [b] := by
        rw [Block.actions, List.filterMap_cons, List.filterMap_append, hexprs]
        rfl
      rw [List.flatMap_cons, List.filterMap_append, ih, hb, List.singleton_append]

/-- A block that begins is behind the blocks that began. -/
theorem blocks_of_enter {t : Trace} {p : List Action} {b : Block}
    (hp : p ++ [Action.enter b] <+: t.actions) : p.filterMap Action.block ++ [b] <+: t.blocks := by
  have h := hp.filterMap Action.block
  rwa [List.filterMap_append, show t.actions.filterMap Action.block = t.blocks from
    filterMap_block_actions t.blocks] at h

/-- There is no later main block beside the only one. -/
theorem ObservedOrder.not_mainMoment {t : Trace} (ht : ObservedOrder t) {p : List Action}
    {b : Block} : ¬ MainMoment t p b := by
  intro h
  obtain ⟨b', hmem, hm', he'⟩ := h.later
  let f : Block → Bool := fun b => b.isMain && !b.exprs.isEmpty
  have hf : f b = true := by simpa [f, Block.isEmptyMain, h.main] using h.nonempty
  have hf' : f b' = true := by simpa [f, Block.isEmptyMain, hm'] using he'
  -- two main blocks with expressions would be counted twice
  have hlen : (t.blocks.filter f).length = 1 := ht.oneMain
  have hle := (((blocks_of_enter h.reached).sublist.filter f).length_le).trans_eq hlen
  rw [List.filter_append, List.length_append, List.filter_singleton, hf] at hle
  have hb'mem : b' ∈ p.filterMap Action.block := List.mem_filterMap.mpr ⟨_, hmem, rfl⟩
  have hpos : 0 < ((p.filterMap Action.block).filter f).length :=
    List.length_pos_of_mem (List.mem_filter.mpr ⟨hb'mem, hf'⟩)
  simp only [cond_true, List.length_singleton] at hle
  omega

/-- Where the blocks of a kind have different numbers, an earlier one has another number. -/
theorem blockId_ne_of_nodup {t : Trace} {p : List Action} {b b' : Block}
    (hp : p ++ [Action.enter b] <+: t.actions) (hmem : .enter b' ∈ p) {f : Block → Bool}
    (hnd : ((t.blocks.filter f).map Block.blockId).Nodup) (hb : f b = true) (hb' : f b' = true) :
    b'.blockId ≠ b.blockId := by
  intro heq
  have hsub := (((blocks_of_enter hp).sublist.filter f).map Block.blockId).nodup hnd
  rw [List.filter_append, List.map_append, List.filter_singleton, hb] at hsub
  have hb'mem : b' ∈ p.filterMap Action.block := List.mem_filterMap.mpr ⟨_, hmem, rfl⟩
  exact List.disjoint_of_nodup_append hsub
    (List.mem_map.mpr ⟨b', List.mem_filter.mpr ⟨hb'mem, hb'⟩, heq⟩) (by simp)

/-- The blocks that end up in the graph: an empty main block leaves no node. -/
theorem enter_fresh {t : Trace} (ht : ObservedMains t) {p : List Action} {b b' : Block}
    (hp : p ++ [Action.enter b] <+: t.actions) (hb : b.isEmptyMain = false) (hmem : .enter b' ∈ p)
    (hb' : b'.isEmptyMain = false) : b'.getPrettyBlockId ≠ b.getPrettyBlockId := by
  intro heq
  rcases Bool.eq_false_or_eq_true b.isMain with h1 | h1 <;>
    rcases Bool.eq_false_or_eq_true b'.isMain with h2 | h2
  · rw [getPrettyBlockId_main h1, getPrettyBlockId_main h2, String.append_right_inj,
      toString_nat_inj] at heq
    refine blockId_ne_of_nodup hp hmem ht.mainsOnce ?_ ?_ heq
    · simpa [Block.isEmptyMain, h1] using hb
    · simpa [Block.isEmptyMain, h2] using hb'
  · rw [getPrettyBlockId_main h1, getPrettyBlockId_reg h2] at heq
    exact main_ne_toString _ _ heq.symm
  · rw [getPrettyBlockId_reg h1, getPrettyBlockId_main h2] at heq
    exact main_ne_toString _ _ heq
  · rw [getPrettyBlockId_reg h1, getPrettyBlockId_reg h2, toString_nat_inj] at heq
    exact blockId_ne_of_nodup hp hmem ht.executedOnce (by simp [h1]) (by simp [h2]) heq

/-- A `newEvent` of an observed trace names an unknown id. -/
theorem newEvent_fresh {t : Trace} (ht : ObservedMains t) {p : List Action} {e : NewEventExpr}
    (hp : p ++ [Action.expr (.newEvent e)] <+: t.actions) :
    ¬ (history p).Known (toString e.eventId) := by
  intro h
  rcases h with h | h
  · obtain ⟨ev, h⟩ := mem_map_fst.mp h
    obtain ⟨q, e', _, hq, _, hid, _⟩ := created_from h
    have hid : e.eventId = e'.eventId := toString_nat_inj.mp hid
    have hmem : e.eventId ∈ p.filterMap Action.createdId :=
      List.mem_filterMap.mpr ⟨_, mem_of_last hq, congrArg some hid.symm⟩
    have hnd := ((hp.filterMap Action.createdId).sublist).nodup ht.createdOnce
    rw [List.filterMap_append] at hnd
    exact List.disjoint_of_nodup_append hnd hmem (by simp [Action.createdId])
  · obtain ⟨q, b, hq, _, hid⟩ := entered_from h
    cases hm : b.isMain with
    | true =>
        rw [getPrettyBlockId_main hm] at hid
        exact main_ne_toString _ _ hid.symm
    | false =>
        rw [getPrettyBlockId_reg hm, toString_nat_inj] at hid
        exact ht.executedAfter p e hp b (mem_of_last hq) hm hid.symm

/-- **Every action of an observed trace meets what the invariant asks of it**, if nothing waits
    when a later main block begins. -/
theorem stepOk_of_mains {t : Trace} (ht : ObservedMains t) {p : List Action} {a : Action}
    (hp : p ++ [a] <+: t.actions) (hs : ∀ b, a = .enter b → MainMoment t p b →
      ∀ x, x ≠ b.getPrettyBlockId → (history p).Known x → x ∈ (history p).entered) :
    StepOk (history p) (run p).st a := by
  have ha : Agrees (history p) (run p) := agrees_run ((List.prefix_append p _).trans hp)
  obtain ⟨b', _, hpos⟩ := action_cases hp
  cases a with
  | enter b =>
      refine ⟨current_before_enter hp, fun hread => ⟨fun hent => ?_,
        fun hm => ⟨fun hk => ?_, ?_⟩, fun hm => ?_⟩⟩
      · obtain ⟨q, b', hq, hr, hid⟩ := entered_from hent
        exact enter_fresh ht hp hread.1 (mem_of_last hq) hr.1 hid.symm
      · rcases hk with hk | hent
        · obtain ⟨ev, hk⟩ := mem_map_fst.mp hk
          obtain ⟨_, e, _, _, _, hid, _⟩ := created_from hk
          rw [getPrettyBlockId_main hm] at hid
          exact main_ne_toString _ _ hid
        · obtain ⟨q, b', hq, hr, hid⟩ := entered_from hent
          exact enter_fresh ht hp hread.1 (mem_of_last hq) hr.1 hid.symm
      · by_cases hlater : ∃ b', .enter b' ∈ p ∧ b'.isMain = true ∧ b'.isEmptyMain = false
        · exact .inr (hs b rfl ⟨hp, hm, hread.1, hlater⟩)
        · refine .inl fun n hent => ?_
          obtain ⟨q, b', hq, hr, hid⟩ := entered_from hent
          have hm' : b'.isMain = true := by
            by_contra hm'
            rw [getPrettyBlockId_reg (Bool.not_eq_true _ ▸ hm')] at hid
            exact main_ne_toString _ _ hid
          exact hlater ⟨b', mem_of_last hq, hm', hr.1⟩
      · have hk : (history p).Known b.getPrettyBlockId := hread.2.resolve_left (by simp [hm])
        exact ht.first p b hp hm ((ha.node _).mpr hk)
  | expr e =>
      cases e with
      | submitOp e => trivial
      | trigger e => trivial
      | newEvent e => exact fun _ => newEvent_fresh ht hp
      | link e =>
          intro hcur
          obtain ⟨hne, q, n, rfl, hid, htype⟩ := ht.linked p e hp
          have hq : q ++ [Action.expr (.newEvent n)] <+: t.actions :=
            (List.prefix_append _ _).trans hp
          rw [history_append_singleton] at hcur ⊢
          rw [(History.step_expr _ _).1] at hcur
          obtain ⟨c, hc⟩ := Option.isSome_iff_exists.mp hcur
          rw [History.step_newEvent hc]
          refine ⟨hne, fun hent => newEvent_fresh ht hq (.inr (hid ▸ hent)),
            (history q).created, n.event.eventValue, ?_⟩
          rw [hid, ← htype]
  | leave b =>
      intro c hc
      obtain ⟨_, b'', hb, rfl⟩ := current_eq_some hc
      rcases hpos with ⟨h, _⟩ | ⟨h | ⟨_, _, h⟩, ho⟩
      · cases h
      · cases h
        rw [hb] at ho
        cases ho
        rfl
      · cases h

theorem stepOk_of_observed {t : Trace} (ht : ObservedOrder t) {p : List Action} {a : Action}
    (hp : p ++ [a] <+: t.actions) : StepOk (history p) (run p).st a :=
  stepOk_of_mains ht.mains hp fun _ _ h => absurd h ht.not_mainMoment

/-- Nothing is pending beside the main block `b` that begins after `p`. -/
def Settled (p : List Action) (b : Block) : Prop :=
  ∀ x, x ≠ b.getPrettyBlockId → (history p).Known x → x ∈ (history p).executed

/-- The invariant holds as long as nothing is pending when a later main block begins. -/
theorem ranked_of_mains {t : Trace} (ht : ObservedMains t) {p : List Action} (hp : p <+: t.actions)
    (hs : ∀ q b, q ++ [.enter b] <+: p → MainMoment t q b → Settled q b) :
    Ranked (history p) (run p).st := by
  refine prefix_induction (P := fun p => Ranked (history p) (run p).st) ranked_start
    (fun q a hqa ih => ?_) (List.prefix_refl p)
  have hq : q ++ [a] <+: t.actions := hqa.trans hp
  rw [history_append_singleton, run_append_singleton]
  refine ih.step (agrees_run ((List.prefix_append q _).trans hq)) a
    (stepOk_of_mains ht hq fun b hb hm x hne hk => ?_)
  subst hb
  exact ih.executed x (hs q b hqa hm x hne hk)

/-- The invariant holds after every prefix of an observed trace. -/
theorem ranked_of_observed {t : Trace} (ht : ObservedOrder t) {p : List Action}
    (hp : p <+: t.actions) : Ranked (history p) (run p).st :=
  ranked_of_mains ht.mains hp fun _ _ _ h => absurd h ht.not_mainMoment

/-! ## 3. An observed trace -/

/-- The last assumption can be checked by searches in the state. -/
theorem not_path_of_search {st : DepState} {id : String}
    (h : ∀ z ∈ st.aliveEvents.toList, z ≠ id → st.depGraph.hasPath z id = some false) {z : String}
    (hz : z ∈ st.aliveEvents) (hne : z ≠ id) : ¬ st.depGraph.Path z id :=
  Graph.not_path_of_hasPath (h z (Std.TreeSet.mem_toList.mpr hz) hne)

/-- A timer and a read that are created together; the timer fires first and creates an event. -/
def timerAndRead : Trace where
  threadId := 1
  cwd := "/"
  execOps := []
  blocks := [
    ⟨1, .MAIN, [.newEvent ⟨2, ⟨.W, 1⟩, []⟩, .newEvent ⟨3, ⟨.EXT, 0⟩, []⟩, .link ⟨2, 3, []⟩]⟩,
    ⟨2, .REG, [.newEvent ⟨4, ⟨.S, 0⟩, []⟩]⟩,
    ⟨4, .REG, []⟩,
    ⟨3, .REG, []⟩]

theorem observed_timerAndRead : ObservedOrder timerAndRead where
  oneMain := by decide
  createdOnce := by decide
  executedOnce := by decide
  executedAfter p e hp b hb hm := by
    simp [timerAndRead, Trace.actions, Block.actions, snoc_prefix_cons] at hp
    rcases hp with ⟨_, rfl, ⟨rfl, rfl⟩ | ⟨_, rfl, ⟨rfl, rfl⟩ | ⟨rfl, rfl⟩⟩⟩
    · simp at hb
      simp [hb, Block.isMain] at hm
    · simp at hb
      simp [hb, Block.isMain] at hm
    · simp at hb
      rcases hb with rfl | rfl
      · cases hm
      · decide
  linked p e hp := by
    simp [timerAndRead, Trace.actions, Block.actions, snoc_prefix_cons] at hp
    obtain ⟨rfl, rfl⟩ := hp
    exact ⟨by decide, [_, _], ⟨3, ⟨.EXT, 0⟩, []⟩, rfl, rfl, rfl⟩
  first p b hp hm hn z hz hne := by
    -- the waiting events are read off the state, a search finds no path
    simp [timerAndRead, Trace.actions, Block.actions, snoc_prefix_cons] at hp
    rcases hp with ⟨rfl, rfl⟩ | ⟨_, rfl, ⟨rfl, rfl⟩ | ⟨_, rfl, ⟨rfl, rfl⟩ | ⟨rfl, rfl⟩⟩⟩
    · cases hm
    · exact not_path_of_search (by decide +kernel) hz hne
    · exact not_path_of_search (by decide +kernel) hz hne
    · exact not_path_of_search (by decide +kernel) hz hne

/-! ## 4. The inferred order agrees with the observed one -/

/-- The actions before the `i`-th block. -/
def Trace.before (t : Trace) (i : Nat) : List Action := (t.blocks.take i).flatMap Block.actions

theorem before_enter_le {t : Trace} {i : Nat} {b : Block} (hb : t.blocks[i]? = some b) :
    t.before i ++ [Action.enter b] <+: t.actions := by
  have hsplit : t.blocks = t.blocks.take i ++ b :: t.blocks.drop (i + 1) := by
    obtain ⟨hi, rfl⟩ := List.getElem?_eq_some_iff.mp hb
    rw [← List.drop_eq_getElem_cons hi, List.take_append_drop]
  unfold Trace.before Trace.actions
  conv => rhs; rw [hsplit]
  rw [List.flatMap_append, List.prefix_append_right_inj, List.flatMap_cons]
  exact ⟨(b.exprs.map .expr ++ [Action.leave b]) ++
    (t.blocks.drop (i + 1)).flatMap Block.actions, by
    simp [Block.actions]⟩

theorem before_enter_le_before {t : Trace} {i j : Nat} {b : Block} (hb : t.blocks[i]? = some b)
    (hij : i < j) : t.before i ++ [Action.enter b] <+: t.before j := by
  have h1 : t.before i ++ [Action.enter b] <+: t.before (i + 1) := by
    unfold Trace.before
    rw [List.take_add_one, hb, List.flatMap_append, List.prefix_append_right_inj]
    simp [Block.actions]
  refine h1.trans ?_
  have h2 : t.blocks.take (i + 1) <+: t.blocks.take j := List.take_prefix_take_left hij
  obtain ⟨r, hr⟩ := h2
  unfold Trace.before
  rw [← hr, List.flatMap_append]
  exact List.prefix_append _ _

/-- The block with an entered id is the one that was read, at its place in the trace. -/
theorem entered_at {t : Trace} (ht : ObservedOrder t) {p : List Action} (hp : p <+: t.actions)
    {i : Nat} {b : Block} (hb : t.blocks[i]? = some b) (he : b.isEmptyMain = false)
    (hent : b.getPrettyBlockId ∈ (history p).entered) :
    t.before i ++ [Action.enter b] <+: p ∧ (history (t.before i)).Reads b := by
  have hi := before_enter_le hb
  obtain ⟨q, b', hq, hr, hid⟩ := entered_from hent
  have hq' : q ++ [Action.enter b'] <+: t.actions := hq.trans hp
  have hsame : q = t.before i ∧ b' = b := by
    rcases List.prefix_or_prefix_of_prefix hq' hi with h | h
    · rcases snoc_prefix_snoc.mp h with h | ⟨h1, h2⟩
      · exact absurd hid.symm (enter_fresh ht.mains hi he (mem_of_last h) hr.1)
      · cases h2
        exact ⟨h1, rfl⟩
    · rcases snoc_prefix_snoc.mp h with h | ⟨h1, h2⟩
      · exact absurd hid (enter_fresh ht.mains hq' hr.1 (mem_of_last h) he)
      · cases h2
        exact ⟨h1.symm, rfl⟩
  obtain ⟨rfl, rfl⟩ := hsame
  exact ⟨hq, hr⟩

/-- Its rank is the number of blocks entered before it. -/
theorem rank_entered_at {t : Trace} (ht : ObservedOrder t) {p : List Action}
    (hp : p <+: t.actions) {i : Nat} {b : Block} (hb : t.blocks[i]? = some b)
    (he : b.isEmptyMain = false) (hent : b.getPrettyBlockId ∈ (history p).entered) :
    rank (history p) (run p).st.depGraph b.getPrettyBlockId =
      mkRank 0 (history (t.before i)).entered.length 0 0 := by
  obtain ⟨hpre, hr⟩ := entered_at ht hp hb he hent
  have hfresh : b.getPrettyBlockId ∉ (history (t.before i)).entered :=
    ((stepOk_of_observed ht (before_enter_le hb)).2 hr).1
  obtain ⟨l, hl⟩ := entered_mono hpre
  rw [history_append_singleton, History.step_enter hr] at hl
  rw [rank_entered hent, ← hl]
  simp [List.idxOf_append, hfresh]

/-- **The inferred order agrees with the observed execution.** After every prefix of an observed
    trace the dependency graph has no cycle, and a path between two entered blocks (those being
    executed included) follows the order of the trace. -/
theorem observed_order_agrees {t : Trace} (ht : ObservedOrder t) {p : List Action}
    (hp : p <+: t.actions) :
    Reach.Acyclic (run p).st.depGraph.Edge ∧
    ∀ (i j : Nat) (a b : Block), t.blocks[i]? = some a → t.blocks[j]? = some b →
      a.isEmptyMain = false → b.isEmptyMain = false →
      a.getPrettyBlockId ≠ b.getPrettyBlockId →
      a.getPrettyBlockId ∈ (history p).entered → b.getPrettyBlockId ∈ (history p).entered →
      (run p).st.depGraph.Path a.getPrettyBlockId b.getPrettyBlockId → i < j := by
  have hr : Ranked (history p) (run p).st := ranked_of_observed ht hp
  refine ⟨hr.acyclic.mono fun _ _ e => .inl e, fun i j a b ha hb hae hbe hne haent hbent hpath => ?_⟩
  have hlt : rank (history p) (run p).st.depGraph a.getPrettyBlockId <
      rank (history p) (run p).st.depGraph b.getPrettyBlockId :=
    Reach.path_rank_lt (fun s t e => hr.increasing s t (.inl e)) hpath
  rw [rank_entered_at ht hp ha hae haent, rank_entered_at ht hp hb hbe hbent, mkRank_lt] at hlt
  by_contra hij
  rcases Nat.lt_or_eq_of_le (Nat.le_of_not_lt hij) with hji | rfl
  · have hle := (entered_mono ((List.prefix_append _ _).trans
      (before_enter_le_before hb hji))).length_le
    omega
  · rw [ha] at hb
    cases hb
    exact hne rfl

/-- In the example no path leads back from the read to the timer. -/
theorem observed_order_agrees_timerAndRead :
    Reach.Acyclic (run timerAndRead.actions).st.depGraph.Edge ∧
      ¬ (run timerAndRead.actions).st.depGraph.Path "3" "2" := by
  obtain ⟨hacyc, horder⟩ :=
    observed_order_agrees observed_timerAndRead (List.prefix_refl timerAndRead.actions)
  refine ⟨hacyc, fun h => ?_⟩
  have hlt := horder 3 1 _ _ rfl rfl rfl rfl (by decide) (by decide) (by decide) h
  omega

/-! ## 5. No order of the event model is lost -/

/-- The rules of the event model: does `a` come before `b`, when `aFirst` says whether `a` was
    created before `b`? -/
def modelBefore (a b : Event) (aFirst : Bool) : Bool :=
  match a.eventType, b.eventType with
  | .S, .M | .S, .W | .S, .EXT => true
  | .S, .S => aFirst
  | .M, .W | .M, .EXT => true
  | .M, .M =>
      decide (a.eventValue < b.eventValue) || (decide (a.eventValue = b.eventValue) && aFirst)
  | .W, .EXT => decide (a.eventValue ≠ 0) && aFirst
  | _, _ => false

/-- The table of the code decides at least as the model does. -/
theorem precedence_of_modelBefore {new old : Event} :
    (modelBefore old new true = true → precedence new old = .oldFirst) ∧
    (modelBefore new old false = true → precedence new old = .newFirst) := by
  rcases new with ⟨nt, nv⟩
  rcases old with ⟨ot, ov⟩
  cases ot <;> cases nt <;> simp [modelBefore, precedence]
  omega

/-- What the event model orders in a trace: `a` before `b`. -/
inductive ModelOrder (t : Trace) : String → String → Prop where
  /-- The block of `a` created `b`. -/
  | created {p : List Action} {e : NewEventExpr} {a : String}
      (hp : p ++ [.expr (.newEvent e)] <+: t.actions) (ha : (history p).current = some a) :
      ModelOrder t a (toString e.eventId)
  /-- Two events waited together and the older one comes first. -/
  | oldFirst {p : List Action} {o n : NewEventExpr} {c : String}
      (hp : p ++ [.expr (.newEvent n)] <+: t.actions) (hc : (history p).current = some c)
      (ho : .expr (.newEvent o) ∈ p) (halive : toString o.eventId ∈ (run p).st.aliveEvents)
      (hne : toString o.eventId ≠ c) (hm : modelBefore o.event n.event true = true) :
      ModelOrder t (toString o.eventId) (toString n.eventId)
  /-- Two events waited together and the newer one comes first. -/
  | newFirst {p : List Action} {o n : NewEventExpr} {c : String}
      (hp : p ++ [.expr (.newEvent n)] <+: t.actions) (hc : (history p).current = some c)
      (ho : .expr (.newEvent o) ∈ p) (halive : toString o.eventId ∈ (run p).st.aliveEvents)
      (hne : toString o.eventId ≠ c) (hm : modelBefore n.event o.event false = true) :
      ModelOrder t (toString n.eventId) (toString o.eventId)
  /-- A W event whose block begins comes before the waiting ones of its value. -/
  | weak {p : List Action} {a b : NewEventExpr} {block : Block} {v : Nat}
      (hp : p ++ [.enter block] <+: t.actions) (hr : (history p).Reads block)
      (hid : block.getPrettyBlockId = toString a.eventId)
      (ha : .expr (.newEvent a) ∈ p) (hav : a.event = ⟨.W, v⟩)
      (hb : .expr (.newEvent b) ∈ p) (hbv : b.event = ⟨.W, v⟩)
      (halive : toString b.eventId ∈ (run p).st.aliveEvents) (hne : a.eventId ≠ b.eventId) :
      ModelOrder t (toString a.eventId) (toString b.eventId)

theorem filterMap_inj {α β : Type} {f : α → Option β} {l : List α} (h : (l.filterMap f).Nodup)
    {a b : α} {x : β} (ha : a ∈ l) (hb : b ∈ l) (hfa : f a = some x) (hfb : f b = some x) :
    a = b := by
  induction l with
  | nil => cases ha
  | cons c l ih =>
      have htail : (l.filterMap f).Nodup :=
        ((List.sublist_cons_self c l).filterMap f).nodup h
      have hhead : ∀ d ∈ l, f c = some x → f d = some x → False := by
        intro d hd hc hfd
        rw [List.filterMap_cons, hc] at h
        exact (List.nodup_cons.mp h).1 (List.mem_filterMap.mpr ⟨d, hd, hfd⟩)
      rcases List.mem_cons.mp ha with rfl | ha'
      · rcases List.mem_cons.mp hb with rfl | hb'
        · rfl
        · exact (hhead b hb' hfa hfb).elim
      · rcases List.mem_cons.mp hb with rfl | hb'
        · exact (hhead a ha' hfb hfa).elim
        · exact ih htail ha' hb'

/-- An alive event has the type and value of its `newEvent`. -/
theorem objOf_alive {t : Trace} (ht : ObservedOrder t) {p : List Action} (hp : p <+: t.actions)
    {o : NewEventExpr} (ho : .expr (.newEvent o) ∈ p)
    (halive : toString o.eventId ∈ (history p).created.map Prod.fst) :
    (run p).st.depGraph.objOf (toString o.eventId) = some o.event := by
  obtain ⟨ev, hev⟩ := mem_map_fst.mp halive
  obtain ⟨q, e, _, hq, _, hid, rfl⟩ := created_from hev
  have hsame : Action.expr (.newEvent o) = .expr (.newEvent e) :=
    filterMap_inj (f := Action.createdId) (hp.sublist.filterMap _ |>.nodup ht.createdOnce) ho
      (mem_of_last hq) rfl (congrArg some (toString_nat_inj.mp hid).symm)
  cases hsame
  exact (ranked_of_observed ht hp).objs _ _ hev

/-- A pair recorded at some moment is a path of the final graph. -/
theorem path_of_recorded {t : Trace} (ht : ObservedOrder t) {p : List Action}
    (hp : p <+: t.actions) {a b : String} (h : Recorded (run p).st.depGraph a b) :
    (dependencyGraph t).Path a b := by
  obtain ⟨q, hq⟩ := hp
  have hfinal : Recorded (run t.actions).st.depGraph a b := hq ▸ recorded_mono p q h
  rw [dependencyGraph, inferTrace_eq_run]
  exact recorded_path t.actions (ranked_of_observed ht (List.prefix_refl _)).acyclic hfinal

/-- The calls that a new event makes end up in the record. -/
theorem recorded_newEvent {p : List Action} {e : NewEventExpr} {a b c : String}
    (ha : Agrees (history p) (run p)) (hc : (history p).current = some c)
    (hcall : ∃ l, (a, b, l) ∈ newEventCalls (run p).st e) (hne : a ≠ b)
    (hnode : a = toString e.eventId ∨ (history p).Known a) :
    Recorded (run (p ++ [Action.expr (.newEvent e)])).st.depGraph a b := by
  have hrd : (run p).reading = true := ha.reading.trans (by rw [hc]; rfl)
  have hst : ((run p).step (.expr (.newEvent e))).st = analyzeExpr (run p).st (.newEvent e) := by
    simp only [Machine.step, hrd, if_true]
  rw [run_append_singleton, recorded_step_iff (consistent_run p), hst, hasNode_analyzeExpr]
  refine .inr ⟨hne, ?_, by simpa [edgeCalls, hrd] using hcall⟩
  exact hnode.imp (fun h => ⟨e, rfl, h⟩) (ha.node a).mpr

/-- What the table decides for a new event and one that waits is recorded. -/
theorem recorded_waiting {t : Trace} (ht : ObservedOrder t) {p : List Action} {o n : NewEventExpr}
    {c : String} (hp : p ++ [Action.expr (.newEvent n)] <+: t.actions)
    (hc : (history p).current = some c)
    (ho : .expr (.newEvent o) ∈ p) (halive : toString o.eventId ∈ (run p).st.aliveEvents)
    (hne : toString o.eventId ≠ c) :
    (precedence n.event o.event = .oldFirst →
      Recorded (run (p ++ [Action.expr (.newEvent n)])).st.depGraph (toString o.eventId)
        (toString n.eventId)) ∧
    (precedence n.event o.event = .newFirst →
      Recorded (run (p ++ [Action.expr (.newEvent n)])).st.depGraph (toString n.eventId)
        (toString o.eventId)) := by
  have hpre : p <+: t.actions := (List.prefix_append _ _).trans hp
  have ha : Agrees (history p) (run p) := agrees_run hpre
  have hcr := (ranked_of_observed ht hpre).alive_created _ halive
  have hfresh := newEvent_fresh ht.mains hp
  have hno : toString o.eventId ≠ toString n.eventId := fun heq => hfresh (heq ▸ .inl hcr)
  have hnode : ¬ (run p).st.depGraph.HasNode (toString n.eventId) :=
    fun h' => hfresh ((ha.node _).mp h')
  have hobj : ((run p).st.depGraph.addNode (toString n.eventId) n.event).objOf
      (toString o.eventId) = some o.event := by
    rw [Graph.objOf_addNode hnode, if_neg hno]
    exact objOf_alive ht hpre ho hcr
  have hcur : (run p).st.currentBlockId ≠ toString o.eventId :=
    fun heq => hne (heq ▸ ha.current c hc)
  refine ⟨fun h => recorded_newEvent ha hc ⟨.happensBefore, ?_⟩ hno (.inr (.inl hcr)),
    fun h => recorded_newEvent ha hc ⟨.happensBefore, ?_⟩ hno.symm (.inl rfl)⟩
  · exact mem_newEventCalls.mpr (.inr (.inr ⟨_, halive, mem_dependencyCalls.mpr
      ⟨rfl, hcur, o.event, hobj, .inl ⟨h, rfl, rfl⟩⟩⟩))
  · exact mem_newEventCalls.mpr (.inr (.inr ⟨_, halive, mem_dependencyCalls.mpr
      ⟨rfl, hcur, o.event, hobj, .inr ⟨h, rfl, rfl⟩⟩⟩))

/-- When the block of a W event begins, its edges to the waiting ones of its value are recorded. -/
theorem recorded_weak {t : Trace} (ht : ObservedOrder t) {p : List Action} {a b : NewEventExpr}
    {block : Block} {v : Nat} (hp : p ++ [Action.enter block] <+: t.actions)
    (hr : (history p).Reads block) (hid : block.getPrettyBlockId = toString a.eventId)
    (ha : .expr (.newEvent a) ∈ p) (hav : a.event = ⟨.W, v⟩) (hb : .expr (.newEvent b) ∈ p)
    (hbv : b.event = ⟨.W, v⟩) (halive : toString b.eventId ∈ (run p).st.aliveEvents)
    (hne : a.eventId ≠ b.eventId) :
    Recorded (run (p ++ [Action.enter block])).st.depGraph (toString a.eventId)
      (toString b.eventId) := by
  have hpre : p <+: t.actions := (List.prefix_append _ _).trans hp
  have hag : Agrees (history p) (run p) := agrees_run hpre
  have hm : block.isMain = false := by
    by_contra hm
    rw [getPrettyBlockId_main (Bool.not_eq_false _ ▸ hm)] at hid
    exact main_ne_toString _ _ hid
  have hk : (history p).Known block.getPrettyBlockId := hr.2.resolve_left (by simp [hm])
  have hacr : toString a.eventId ∈ (history p).created.map Prod.fst := by
    rw [← hid]
    exact hk.resolve_right ((stepOk_of_observed ht hp).2 hr).1
  have hoa := objOf_alive ht hpre ha hacr
  have hob := objOf_alive ht hpre hb ((ranked_of_observed ht hpre).alive_created _ halive)
  obtain ⟨info, hi⟩ := Option.isSome_iff_exists.mp ((hag.node _).mpr hk)
  have hinfo : info.nodeId = toString a.eventId := (Graph.nodeId_of_getNodeInfo hi).trans hid
  have hobj : info.nodeObj = ⟨.W, v⟩ := by
    rw [hid] at hi
    rw [Graph.objOf, hi, hav] at hoa
    exact Option.some.inj hoa
  have hnode : ((run p).step (.enter block)).st.depGraph.HasNode (toString a.eventId) :=
    hasNode_enterBlock.mpr (.inr ((hag.node _).mpr (.inl hacr)))
  rw [run_append_singleton, recorded_step_iff (consistent_run p)]
  refine .inr ⟨fun heq => hne (toString_nat_inj.mp heq), hnode, .happensBefore, ?_⟩
  rw [edgeCalls_event hm hi, hobj, if_pos rfl, List.mem_flatMap]
  refine ⟨_, Std.TreeSet.mem_toList.mpr halive, mem_wCalls.mpr ⟨rfl, hinfo.symm, rfl, ?_⟩⟩
  rw [hob, hbv]

/-- **No ordering of the event model is lost**: in an observed trace everything the model orders
    is a path of the final graph. -/
theorem model_order_kept {t : Trace} (ht : ObservedOrder t) {a b : String}
    (h : ModelOrder t a b) : (dependencyGraph t).Path a b := by
  cases h with
  | @created p e _ hp hc =>
      have ha : Agrees (history p) (run p) := agrees_run ((List.prefix_append _ _).trans hp)
      have hk : (history p).Known a := .inr (current_eq_some hc).1
      refine path_of_recorded ht hp (recorded_newEvent ha hc ⟨.creates, ?_⟩ ?_ (.inr hk))
      · exact mem_newEventCalls.mpr (.inr (.inl ⟨(ha.current a hc).symm, rfl, rfl⟩))
      · exact fun heq => newEvent_fresh ht.mains hp (heq ▸ hk)
  | oldFirst hp hc ho halive hne hm =>
      exact path_of_recorded ht hp
        ((recorded_waiting ht hp hc ho halive hne).1 (precedence_of_modelBefore.1 hm))
  | newFirst hp hc ho halive hne hm =>
      exact path_of_recorded ht hp
        ((recorded_waiting ht hp hc ho halive hne).2 (precedence_of_modelBefore.2 hm))
  | weak hp hr hid ha hav hb hbv halive hne =>
      exact path_of_recorded ht hp (recorded_weak ht hp hr hid ha hav hb hbv halive hne)

/-- The timer comes before the read. -/
theorem model_order_kept_timerAndRead : (dependencyGraph timerAndRead).Path "2" "3" :=
  model_order_kept observed_timerAndRead
    (@ModelOrder.oldFirst _ (timerAndRead.actions.take 2) ⟨2, ⟨.W, 1⟩, []⟩ ⟨3, ⟨.EXT, 0⟩, []⟩
      "MAIN_1" (by decide) (by decide) (by decide) (by decide +kernel) (by decide) (by decide))


end Fsracer

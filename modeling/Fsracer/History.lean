/-
  File:      Fsracer/History.lean
  Subject:   WHAT A TRACE SHOWS: an abstract account of a run, made from the actions alone.

  `History` says what the analysis should know after a list of actions, without a graph: which
  events were created, which blocks were entered and left, which callbacks are pending, which
  block is read. A callback runs when its own block ends or when a `trigger` in another block
  names it (lib/Trace.h, `Trigger`).

  `agrees_run` connects it with the analyzer: after every prefix of the actions of a trace the
  nodes of the graph are the known ids, the nodes marked EXECUTED are the executed ids, and the
  block that is read is the one the analyzer has in `current_block`. The set `alive_events` is
  compared with `pending` in Alive.lean.
-/
import Mathlib
import Fsracer.Run

namespace Fsracer

/-! ## 1. Histories -/

/-- What the actions so far have shown. -/
structure History where
  created : List (String × Event)
  entered : List String
  executed : List String
  pending : Finset String
  current : Option String
  deriving DecidableEq

namespace History

/-- Nothing has happened. -/
def empty : History := ⟨[], [], [], ∅, none⟩

/-- An id that the analysis knows: a created event or an entered block. -/
def Known (h : History) (x : String) : Prop := x ∈ h.created.map Prod.fst ∨ x ∈ h.entered

instance (h : History) (x : String) : Decidable (h.Known x) :=
  inferInstanceAs (Decidable (_ ∨ _))

/-- The blocks that are read: not an empty main block, not the block of an unknown event. -/
def Reads (h : History) (b : Block) : Prop :=
  b.isEmptyMain = false ∧ (b.isMain = true ∨ h.Known b.getPrettyBlockId)

instance (h : History) (b : Block) : Decidable (h.Reads b) :=
  inferInstanceAs (Decidable (_ ∧ _))

/-- One action. -/
def step (h : History) : Action → History
  | .enter b =>
      if h.Reads b then
        { h with
          entered := h.entered ++ [b.getPrettyBlockId]
          current := some b.getPrettyBlockId }
      else { h with current := none }
  | .expr (.newEvent e) =>
      match h.current with
      | none => h
      | some _ =>
          { h with
            created := h.created ++ [(toString e.eventId, e.event)]
            pending := insert (toString e.eventId) h.pending }
  | .expr (.trigger e) =>
      match h.current with
      | none => h
      | some c =>
          if toString e.eventId = c then h
          else { h with pending := h.pending.erase (toString e.eventId) }
  | .expr _ => h
  | .leave b =>
      match h.current with
      | none => h
      | some _ =>
          { h with
            executed := h.executed ++ [b.getPrettyBlockId]
            pending := h.pending.erase b.getPrettyBlockId
            current := none }

section Step

variable {h : History} {b : Block} {c : String}

theorem step_enter (hr : h.Reads b) : h.step (.enter b) =
    { h with entered := h.entered ++ [b.getPrettyBlockId], current := some b.getPrettyBlockId } :=
  if_pos hr

theorem step_enter_skip (hr : ¬ h.Reads b) : h.step (.enter b) = { h with current := none } :=
  if_neg hr

theorem step_newEvent (hc : h.current = some c) (e : NewEventExpr) :
    h.step (.expr (.newEvent e)) =
      { h with
        created := h.created ++ [(toString e.eventId, e.event)]
        pending := insert (toString e.eventId) h.pending } := by
  simp only [step, hc]

theorem step_trigger (hc : h.current = some c) (e : Trigger) :
    h.step (.expr (.trigger e)) =
      if toString e.eventId = c then h
      else { h with pending := h.pending.erase (toString e.eventId) } := by
  simp only [step, hc]

theorem step_leave (hc : h.current = some c) :
    h.step (.leave b) =
      { h with
        executed := h.executed ++ [b.getPrettyBlockId]
        pending := h.pending.erase b.getPrettyBlockId
        current := none } := by
  simp only [step, hc]

theorem step_expr_skip (hc : h.current = none) (e : Expr) : h.step (.expr e) = h := by
  cases e <;> simp only [step, hc]

theorem step_leave_skip (hc : h.current = none) : h.step (.leave b) = h := by
  simp only [step, hc]

/-- Expressions create events and take pending ones; nothing else. -/
theorem step_expr (h : History) (e : Expr) :
    (h.step (.expr e)).current = h.current ∧ (h.step (.expr e)).entered = h.entered ∧
      (h.step (.expr e)).executed = h.executed := by
  cases hc : h.current with
  | none => rw [step_expr_skip hc, hc]; exact ⟨rfl, rfl, rfl⟩
  | some c =>
      cases e with
      | submitOp e => exact ⟨hc, rfl, rfl⟩
      | link e => exact ⟨hc, rfl, rfl⟩
      | newEvent e => rw [step_newEvent hc]; exact ⟨hc, rfl, rfl⟩
      | trigger e =>
          rw [step_trigger hc]
          split <;> exact ⟨hc, rfl, rfl⟩

/-- Only a `newEvent` of a block that is read adds to the created events. -/
theorem created_step (h : History) (a : Action) : (h.step a).created = h.created ∨
    ∃ e c, a = .expr (.newEvent e) ∧ h.current = some c ∧
      (h.step a).created = h.created ++ [(toString e.eventId, e.event)] := by
  cases a with
  | enter b =>
      left
      by_cases hr : h.Reads b
      · rw [step_enter hr]
      · rw [step_enter_skip hr]
  | leave b =>
      left
      cases hc : h.current with
      | none => rw [step_leave_skip hc]
      | some c => rw [step_leave hc]
  | expr e =>
      cases hc : h.current with
      | none => exact .inl (by rw [step_expr_skip hc])
      | some c =>
          cases e with
          | submitOp e => exact .inl rfl
          | link e => exact .inl rfl
          | newEvent e => exact .inr ⟨e, c, rfl, rfl, by rw [step_newEvent hc]⟩
          | trigger e =>
              left
              rw [step_trigger hc]
              split <;> rfl

/-- Only the beginning of a block that is read adds to the entered ids. -/
theorem entered_step (h : History) (a : Action) : (h.step a).entered = h.entered ∨
    ∃ b, a = .enter b ∧ h.Reads b ∧
      (h.step a).entered = h.entered ++ [b.getPrettyBlockId] := by
  cases a with
  | enter b =>
      by_cases hr : h.Reads b
      · exact .inr ⟨b, rfl, hr, by rw [step_enter hr]⟩
      · exact .inl (by rw [step_enter_skip hr])
  | expr e => exact .inl (h.step_expr e).2.1
  | leave b =>
      left
      cases hc : h.current with
      | none => rw [step_leave_skip hc]
      | some c => rw [step_leave hc]

/-- An id stays known. -/
theorem Known.step {x : String} (hk : h.Known x) (a : Action) : (h.step a).Known x := by
  refine hk.imp (fun hx => ?_) fun hx => ?_
  · rcases h.created_step a with e | ⟨_, _, _, _, e⟩ <;> rw [e]
    · exact hx
    · rw [List.map_append]
      exact List.mem_append_left _ hx
  · rcases h.entered_step a with e | ⟨_, _, _, e⟩ <;> rw [e]
    · exact hx
    · exact List.mem_append_left _ hx

end Step

end History

/-- The history of a list of actions. -/
def history (p : List Action) : History := p.foldl History.step .empty

@[simp] theorem history_nil : history [] = .empty := rfl

@[simp] theorem history_append_singleton (p : List Action) (a : Action) :
    history (p ++ [a]) = (history p).step a := by simp [history]

/-! ## 2. Prefixes of the actions of a trace -/

theorem prefix_induction {as : List Action} {P : List Action → Prop} (h0 : P [])
    (hstep : ∀ p a, p ++ [a] <+: as → P p → P (p ++ [a])) {p : List Action} (hp : p <+: as) :
    P p := by
  induction p using List.reverseRecOn with
  | nil => exact h0
  | append_singleton p a ih => exact hstep p a hp (ih ((List.prefix_append p [a]).trans hp))

/-- A prefix that ends in `a` ends in the last action or is a prefix of the rest. -/
theorem snoc_prefix_snoc {α : Type} {p q : List α} {a b : α} :
    q ++ [a] <+: p ++ [b] ↔ q ++ [a] <+: p ∨ (q = p ∧ a = b) := by
  rw [List.prefix_concat_iff]
  refine ⟨fun h => h.elim (fun h => .inr ?_) .inl, fun h => h.elim .inr fun h => .inl ?_⟩
  · exact (List.append_singleton_inj.mp h)
  · rw [h.1, h.2]

/-- A prefix that ends in `a` ends in the first action or in one of the rest. -/
theorem snoc_prefix_cons {α : Type} {p l : List α} {a x : α} :
    p ++ [a] <+: x :: l ↔ (p = [] ∧ a = x) ∨ ∃ p', p = x :: p' ∧ p' ++ [a] <+: l := by
  cases p with
  | nil => simp
  | cons y p =>
      rw [List.cons_append, List.cons_prefix_cons]
      simp [eq_comm]

theorem mem_of_last {p q : List Action} {a : Action} (h : q ++ [a] <+: p) : a ∈ p :=
  h.subset (by simp)

/-- The block that a list of actions leaves open. -/
def openBlock (p : List Action) : Option Block :=
  p.foldl (fun o a => match a with
    | .enter b => some b
    | .expr _ => o
    | .leave _ => none) none

@[simp] theorem openBlock_append_singleton (p : List Action) (a : Action) :
    openBlock (p ++ [a]) = match a with
      | .enter b => some b
      | .expr _ => openBlock p
      | .leave _ => none := by
  cases a <;> simp [openBlock]

theorem openBlock_exprs (p : List Action) (es : List Expr) :
    openBlock (p ++ es.map .expr) = openBlock p := by
  induction es using List.reverseRecOn with
  | nil => simp
  | append_singleton es e ih =>
      rw [List.map_append, List.map_singleton, ← List.append_assoc, openBlock_append_singleton]
      exact ih

/-- Where in its block an action stands. -/
theorem action_cases_block {b : Block} {q : List Action} {a : Action} (h : q ++ [a] <+: b.actions) :
    (q = [] ∧ a = .enter b) ∨
      ∃ es : List Expr, q = .enter b :: es.map .expr ∧
        (a = .leave b ∨ ∃ e ∈ b.exprs, a = .expr e) := by
  cases q with
  | nil => exact .inl ⟨rfl, (List.cons_prefix_cons.mp h).1⟩
  | cons x q =>
      obtain ⟨rfl, h'⟩ :
          x = .enter b ∧ q ++ [a] <+: b.exprs.map Action.expr ++ [Action.leave b] := by
        rwa [List.cons_append, Block.actions, List.cons_prefix_cons] at h
      refine .inr ?_
      rcases List.prefix_concat_iff.mp h' with h | h
      · obtain ⟨hq, ha⟩ := List.append_singleton_inj.mp h
        exact ⟨b.exprs, by rw [hq], .inl ha⟩
      · obtain ⟨es, hes, hq⟩ := List.prefix_map_iff.mp h
        obtain ⟨es, e, rfl⟩ : ∃ es' e, es = es' ++ [e] := by
          rcases List.eq_nil_or_concat es with rfl | h
          · simp at hq
          · simpa using h
        rw [List.map_append, List.map_singleton] at hq
        obtain ⟨rfl, rfl⟩ := List.append_singleton_inj.mp hq
        exact ⟨es, rfl, .inr ⟨e, hes.subset (by simp), rfl⟩⟩

/-- Where in its trace an action stands: it begins a block, or its block is the open one. -/
theorem action_cases {bs : List Block} {p : List Action} {a : Action}
    (h : p ++ [a] <+: bs.flatMap Block.actions) :
    ∃ b ∈ bs, (a = .enter b ∧ openBlock p = none) ∨
      ((a = .leave b ∨ ∃ e ∈ b.exprs, a = .expr e) ∧ openBlock p = some b) := by
  induction bs using List.reverseRecOn generalizing p a with
  | nil => simp at h
  | append_singleton bs b ih =>
      have hnone : openBlock (bs.flatMap Block.actions) = none := by
        rcases List.eq_nil_or_concat bs with rfl | ⟨bs, b', rfl⟩
        · rfl
        · rw [List.concat_eq_append, List.flatMap_append, List.flatMap_singleton, Block.actions,
            ← List.cons_append, ← List.append_assoc, openBlock_append_singleton]
      rw [List.flatMap_append, List.flatMap_singleton] at h
      rcases List.prefix_or_prefix_of_prefix h (List.prefix_append _ _) with hp | ⟨q, hq⟩
      · obtain ⟨b', hb', h⟩ := ih hp
        exact ⟨b', List.mem_append_left _ hb', h⟩
      · rcases List.eq_nil_or_concat q with rfl | ⟨q, a', rfl⟩
        · rw [List.append_nil] at hq
          obtain ⟨b', hb', h⟩ := ih ⟨[], by rw [List.append_nil, hq]⟩
          exact ⟨b', List.mem_append_left _ hb', h⟩
        · rw [List.concat_eq_append, ← List.append_assoc] at hq
          obtain ⟨rfl, rfl⟩ := List.append_singleton_inj.mp hq
          rw [List.append_assoc, List.prefix_append_right_inj] at h
          refine ⟨b, by simp, ?_⟩
          rcases action_cases_block h with ⟨rfl, rfl⟩ | ⟨es, rfl, ha⟩
          · exact .inl ⟨rfl, by rw [List.append_nil, hnone]⟩
          · refine .inr ⟨ha, ?_⟩
            rw [← List.singleton_append, ← List.append_assoc, openBlock_exprs,
              openBlock_append_singleton]

/-! ## 3. What was created and entered -/

/-- What is known stays known. -/
theorem known_mono {p q : List Action} (h : p <+: q) {x : String} (hx : (history p).Known x) :
    (history q).Known x := by
  obtain ⟨r, rfl⟩ := h
  induction r using List.reverseRecOn with
  | nil => rwa [List.append_nil]
  | append_singleton r a ih =>
      rw [← List.append_assoc, history_append_singleton]
      exact ih.step a

theorem entered_mono {p q : List Action} (h : p <+: q) :
    (history p).entered <+: (history q).entered := by
  obtain ⟨r, rfl⟩ := h
  induction r using List.reverseRecOn with
  | nil => rw [List.append_nil]
  | append_singleton r a ih =>
      rw [← List.append_assoc, history_append_singleton]
      rcases (history (p ++ r)).entered_step a with h | ⟨b, _, _, h⟩ <;> rw [h]
      · exact ih
      · exact ih.trans (List.prefix_append _ _)

/-- A created event is that of a `newEvent` in a block that is read. -/
theorem created_from {p : List Action} {x : String} {ev : Event}
    (h : (x, ev) ∈ (history p).created) :
    ∃ q e c, q ++ [Action.expr (.newEvent e)] <+: p ∧ (history q).current = some c ∧
      x = toString e.eventId ∧ ev = e.event := by
  induction p using List.reverseRecOn with
  | nil => cases h
  | append_singleton p a ih =>
      rw [history_append_singleton] at h
      have hold : (x, ev) ∈ (history p).created → ∃ q e c,
          q ++ [Action.expr (.newEvent e)] <+: p ++ [a] ∧ (history q).current = some c ∧
            x = toString e.eventId ∧ ev = e.event := by
        intro h'
        obtain ⟨q, e, c, hq, hx⟩ := ih h'
        exact ⟨q, e, c, hq.trans (List.prefix_append _ _), hx⟩
      rcases (history p).created_step a with h' | ⟨e, c, rfl, hc, h'⟩ <;> rw [h'] at h
      · exact hold h
      · rcases List.mem_append.mp h with h | h
        · exact hold h
        · cases List.mem_singleton.mp h
          exact ⟨p, e, c, List.prefix_refl _, hc, rfl, rfl⟩

/-- An entered id is that of a block that was begun and read. -/
theorem entered_from {p : List Action} {x : String} (h : x ∈ (history p).entered) :
    ∃ q b, q ++ [Action.enter b] <+: p ∧ (history q).Reads b ∧ x = b.getPrettyBlockId := by
  induction p using List.reverseRecOn with
  | nil => cases h
  | append_singleton p a ih =>
      rw [history_append_singleton] at h
      have hold : x ∈ (history p).entered →
          ∃ q b, q ++ [Action.enter b] <+: p ++ [a] ∧ (history q).Reads b ∧
            x = b.getPrettyBlockId := by
        intro h'
        obtain ⟨q, b, hq, hx⟩ := ih h'
        exact ⟨q, b, hq.trans (List.prefix_append _ _), hx⟩
      rcases (history p).entered_step a with h' | ⟨b, rfl, hr, h'⟩ <;> rw [h'] at h
      · exact hold h
      · rcases List.mem_append.mp h with h | h
        · exact hold h
        · exact ⟨p, b, List.prefix_refl _, hr, List.mem_singleton.mp h⟩

/-! ## 4. The history and the analyzer agree -/

/-- What the analyzer knows is what the trace has shown. -/
structure Agrees (h : History) (m : Machine) : Prop where
  reading : m.reading = h.current.isSome
  current : ∀ c, h.current = some c → m.st.currentBlockId = c
  node : ∀ x, m.st.depGraph.HasNode x ↔ h.Known x
  attr : ∀ x, m.st.depGraph.HasAttr x executedAttr ↔ x ∈ h.executed

/-- The block that is read is the open one, and it was entered. -/
theorem current_eq_some {p : List Action} {c : String} (h : (history p).current = some c) :
    c ∈ (history p).entered ∧ ∃ b, openBlock p = some b ∧ b.getPrettyBlockId = c := by
  induction p using List.reverseRecOn generalizing c with
  | nil => cases h
  | append_singleton p a ih =>
      rw [history_append_singleton] at h ⊢
      rw [openBlock_append_singleton]
      cases a with
      | enter b =>
          by_cases hr : (history p).Reads b
          · rw [History.step_enter hr] at h ⊢
            cases h
            exact ⟨by simp, b, rfl, rfl⟩
          · rw [History.step_enter_skip hr] at h
            cases h
      | leave b =>
          cases hc : (history p).current with
          | none =>
              rw [History.step_leave_skip hc, hc] at h
              cases h
          | some c' =>
              rw [History.step_leave hc] at h
              cases h
      | expr e =>
          obtain ⟨h1, h2, _⟩ := (history p).step_expr e
          rw [h1] at h
          rw [h2]
          exact ih h

/-- No block is read when a block begins. -/
theorem current_before_enter {bs : List Block} {p : List Action} {b : Block}
    (h : p ++ [Action.enter b] <+: bs.flatMap Block.actions) : (history p).current = none := by
  have hopen : openBlock p = none := by
    obtain ⟨_, _, ⟨_, ho⟩ | ⟨he | ⟨_, _, he⟩, _⟩⟩ := action_cases h
    · exact ho
    · cases he
    · cases he
  cases hc : (history p).current with
  | none => rfl
  | some c =>
      obtain ⟨_, _, hb, _⟩ := current_eq_some hc
      rw [hopen] at hb
      cases hb

theorem hasNode_enterBlock {st : DepState} {b : Block} {x : String} :
    (enterBlock st b).1.depGraph.HasNode x ↔
      (b.isEmptyMain = false ∧ b.isMain = true ∧ x = b.getPrettyBlockId) ∨
        st.depGraph.HasNode x := by
  rcases enterBlock_cases st b with ⟨he, h⟩ | ⟨he, hm, h⟩ | ⟨hm, _, h⟩ | ⟨hm, info, _, h⟩ <;> rw [h]
  · simp [he]
  · show (beginMain _ b).depGraph.HasNode x ↔ _
    rw [beginMain_eq]
    simp [he, hm]
  · simp [hm]
  · show (pruneEdges (connectWithWEvents _ _ info) _).HasNode x ↔ _
    rw [(pruneEdges_spec _ _).1.hasNode, connectWithWEvents_eq]
    simp [hm]

theorem hasAttr_enterBlock {st : DepState} {b : Block} {x attr : String} :
    (enterBlock st b).1.depGraph.HasAttr x attr ↔ st.depGraph.HasAttr x attr := by
  rcases enterBlock_cases st b with ⟨_, h⟩ | ⟨_, _, h⟩ | ⟨_, _, h⟩ | ⟨_, info, _, h⟩ <;> rw [h]
  · show (beginMain _ b).depGraph.HasAttr x attr ↔ _
    rw [beginMain_eq]
    simp
  · show (pruneEdges (connectWithWEvents _ _ info) _).HasAttr x attr ↔ _
    rw [(pruneEdges_spec _ _).1.hasAttr, connectWithWEvents_eq]
    simp

theorem hasNode_analyzeExpr {st : DepState} {e : Expr} {x : String} :
    (analyzeExpr st e).depGraph.HasNode x ↔
      (∃ n, e = .newEvent n ∧ x = toString n.eventId) ∨ st.depGraph.HasNode x := by
  cases e with
  | submitOp e => simp [analyzeExpr]
  | trigger e => simp [analyzeExpr, analyzeTrigger]
  | newEvent e => simp [analyzeExpr, analyzeNewEvent_eq]
  | link e => simp [analyzeExpr, analyzeLink_eq]

theorem hasAttr_analyzeExpr {st : DepState} {e : Expr} {x attr : String} :
    (analyzeExpr st e).depGraph.HasAttr x attr ↔ st.depGraph.HasAttr x attr := by
  cases e with
  | submitOp e => exact Iff.rfl
  | trigger e => exact Iff.rfl
  | newEvent e => simp [analyzeExpr, analyzeNewEvent_eq]
  | link e => simp [analyzeExpr, analyzeLink_eq]

/-- An expression leaves the block pointers alone. -/
theorem currentBlock_analyzeExpr (st : DepState) (e : Expr) :
    (analyzeExpr st e).currentBlock = st.currentBlock := by
  cases e with
  | link e =>
      show (analyzeLink st e).currentBlock = st.currentBlock
      rw [analyzeLink_eq]
  | submitOp e => rfl
  | newEvent e => rfl
  | trigger e => rfl

/-- A block is read iff the history reads it. -/
theorem Agrees.enter_reads {h : History} {m : Machine} (ha : Agrees h m) (b : Block) :
    (enterBlock m.st b).2 = true ↔ h.Reads b := by
  unfold History.Reads
  rcases enterBlock_cases m.st b with ⟨he, e⟩ | ⟨he, hm, e⟩ | ⟨hm, hn, e⟩ | ⟨hm, info, hi, e⟩ <;> rw [e]
  · simp [he]
  · simp [he, hm]
  · rw [ha.node] at hn
    simp [hm, hn]
  · have hn : h.Known b.getPrettyBlockId := (ha.node _).mp (Graph.hasNode_of_some hi)
    have he : b.isEmptyMain = false := by simp [Block.isEmptyMain, hm]
    simp [hn, he]

theorem Agrees.enter {h : History} {m : Machine} (ha : Agrees h m) (b : Block) :
    Agrees (h.step (.enter b)) (m.step (.enter b)) := by
  have hst : m.step (.enter b) = ⟨(enterBlock m.st b).1, (enterBlock m.st b).2⟩ := rfl
  rw [hst]
  by_cases hr : h.Reads b
  · have h2 : (enterBlock m.st b).2 = true := (ha.enter_reads b).mpr hr
    rw [History.step_enter hr]
    refine ⟨h2, fun c hc => ?_, fun x => ?_, fun x => hasAttr_enterBlock.trans (ha.attr x)⟩
    · cases hc
      rcases enterBlock_cases m.st b with ⟨_, e⟩ | ⟨_, _, e⟩ | ⟨_, _, e⟩ | ⟨_, _, _, e⟩ <;>
        rw [e] at h2 ⊢
      · cases h2
      · rfl
      · cases h2
      · rfl
    · rw [hasNode_enterBlock, ha.node]
      simp only [History.Known, List.mem_append, List.mem_singleton]
      refine ⟨fun h' => ?_, fun h' => ?_⟩
      · rcases h' with ⟨_, _, rfl⟩ | h' | h'
        · exact .inr (.inr rfl)
        · exact .inl h'
        · exact .inr (.inl h')
      · rcases h' with h' | h' | rfl
        · exact .inr (.inl h')
        · exact .inr (.inr h')
        · obtain ⟨he, hm | hk⟩ := hr
          · exact .inl ⟨he, hm, rfl⟩
          · exact .inr hk
  · have h2 : (enterBlock m.st b).2 = false := by
      rw [← Bool.not_eq_true, ha.enter_reads b]
      exact hr
    rw [History.step_enter_skip hr]
    refine ⟨h2, fun c hc => (by cases hc), fun x => ?_, fun x => hasAttr_enterBlock.trans (ha.attr x)⟩
    rw [hasNode_enterBlock, ha.node]
    refine ⟨fun h' => h'.resolve_left fun ⟨he, hm, _⟩ => hr ⟨he, .inl hm⟩, .inr⟩

theorem Agrees.expr {h : History} {m : Machine} (ha : Agrees h m) (e : Expr) :
    Agrees (h.step (.expr e)) (m.step (.expr e)) := by
  obtain ⟨st, rd⟩ := m
  have hrd : rd = h.current.isSome := ha.reading
  cases hc : h.current with
  | none =>
      rw [hc] at hrd
      subst hrd
      rw [History.step_expr_skip hc]
      exact ha
  | some c =>
      rw [hc] at hrd
      subst hrd
      obtain ⟨h1, h2, h3⟩ := h.step_expr e
      refine ⟨by rw [h1, hc]; rfl, fun d hd => ?_, fun x => ?_, fun x => ?_⟩
      · rw [h1] at hd
        show (analyzeExpr st e).currentBlockId = d
        unfold DepState.currentBlockId
        rw [currentBlock_analyzeExpr]
        exact ha.current d hd
      · show (analyzeExpr st e).depGraph.HasNode x ↔ _
        rw [hasNode_analyzeExpr, ha.node]
        unfold History.Known
        rw [h2]
        cases e with
        | submitOp e => simp [History.step]
        | link e => simp [History.step]
        | trigger e =>
            rw [History.step_trigger hc]
            split <;> simp
        | newEvent e =>
            rw [History.step_newEvent hc]
            simp only [Expr.newEvent.injEq, exists_eq_left', List.map_append, List.mem_append,
              List.map_cons, List.map_nil, List.mem_singleton]
            tauto
      · show (analyzeExpr st e).depGraph.HasAttr x executedAttr ↔ _
        rw [hasAttr_analyzeExpr, h3]
        exact ha.attr x

theorem Agrees.leave {h : History} {m : Machine} (ha : Agrees h m) (b : Block)
    (hb : ∀ c, h.current = some c → h.Known b.getPrettyBlockId) :
    Agrees (h.step (.leave b)) (m.step (.leave b)) := by
  obtain ⟨st, rd⟩ := m
  have hrd : rd = h.current.isSome := ha.reading
  cases hc : h.current with
  | none =>
      rw [hc] at hrd
      subst hrd
      rw [History.step_leave_skip hc]
      exact ha
  | some c =>
      rw [hc] at hrd
      subst hrd
      rw [History.step_leave hc]
      refine ⟨rfl, fun d hd => (by cases hd), fun x => ?_, fun x => ?_⟩
      · show (st.depGraph.addNodeAttr _ _).HasNode x ↔ _
        rw [Graph.hasNode_addNodeAttr]
        exact ha.node x
      · show (st.depGraph.addNodeAttr _ _).HasAttr x executedAttr ↔ _
        rw [Graph.hasAttr_addNodeAttr, ha.attr x]
        simp only [List.mem_append, List.mem_singleton, true_and]
        refine or_congr_right ⟨fun h' => h'.1, fun hx => ⟨hx, ?_⟩⟩
        rw [hx]
        exact (ha.node _).mpr (hb c hc)

/-- **After every prefix of a trace the analyzer knows what the trace has shown.** -/
theorem agrees_run {bs : List Block} {p : List Action} (hp : p <+: bs.flatMap Block.actions) :
    Agrees (history p) (run p) := by
  refine prefix_induction (P := fun p => Agrees (history p) (run p)) ?_ (fun p a hpa ha => ?_) hp
  · refine ⟨rfl, fun c hc => (by cases hc), fun x => ?_, fun x => ?_⟩
    · simp [history, History.empty, History.Known, run, Machine.start, DepState.init]
    · simp [history, History.empty, run, Machine.start, DepState.init, Graph.HasAttr]
  · rw [history_append_singleton, run_append_singleton]
    cases a with
    | enter b => exact ha.enter b
    | expr e => exact ha.expr e
    | leave b =>
        refine ha.leave b fun c hc => ?_
        obtain ⟨hc', b', hb', rfl⟩ := current_eq_some hc
        obtain ⟨b'', _, ⟨h, _⟩ | ⟨h | ⟨e, _, h⟩, ho⟩⟩ := action_cases hpa
        · cases h
        · cases h
          rw [hb'] at ho
          cases ho
          exact .inr hc'
        · cases h

end Fsracer

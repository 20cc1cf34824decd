/-
  File:      Fsracer/PendingEvent.lean
  Subject:   THE PENDING EVENT: who gets the edge that a re-executed block asks for.

  When the block of an executed event begins again, `pending_ev` takes the block analysed before
  it, and the first event that is created afterwards gets an edge from it. Nothing clears the
  field at the end of the block: a re-executed block without a `newEvent` hands its edge to an
  event of a later block.

  `Awaits` says, of the actions alone, which occurrence the field stands for
  (`pendingEv_iff_awaits`); **`pendingInside_iff`** is the exact condition under which no edge
  leaves the block it was meant for.
-/
import Mathlib
import Fsracer.History

namespace Fsracer

/-! ## 1. The occurrence that waits for an event -/

/-- `b` begins again: it is read and its event was executed before. -/
def Reexecutes (h : History) (b : Block) : Prop :=
  b.isMain = false ∧ h.Reads b ∧ b.getPrettyBlockId ∈ h.executed

instance (h : History) (b : Block) : Decidable (Reexecutes h b) :=
  inferInstanceAs (Decidable (_ ∧ _))

/-- An action after which the same occurrence waits. -/
def Silent (q : List Action) : Action → Prop
  | .enter b => ¬ Reexecutes (history q) b
  | .expr (.newEvent _) => (history q).current = none
  | _ => True

/-- The re-executed occurrence of `b` after `q₁` still waits for an event after `q`. -/
inductive Awaits (q₁ : List Action) (b : Block) : List Action → Prop where
  | enter : Reexecutes (history q₁) b → Awaits q₁ b (q₁ ++ [.enter b])
  | step {q : List Action} {a : Action} : Awaits q₁ b q → Silent q a → Awaits q₁ b (q ++ [a])

theorem awaits_append_singleton {q₁ q : List Action} {b : Block} {a : Action} :
    Awaits q₁ b (q ++ [a]) ↔
      (q = q₁ ∧ a = .enter b ∧ Reexecutes (history q₁) b) ∨ (Awaits q₁ b q ∧ Silent q a) := by
  refine ⟨fun h => ?_, fun h => ?_⟩
  · generalize hp : q ++ [a] = p at h
    cases h with
    | enter hr =>
        obtain ⟨rfl, rfl⟩ := List.append_singleton_inj.mp hp
        exact .inl ⟨rfl, rfl, hr⟩
    | step hw hs =>
        obtain ⟨rfl, rfl⟩ := List.append_singleton_inj.mp hp
        exact .inr ⟨hw, hs⟩
  · rcases h with ⟨rfl, rfl, hr⟩ | ⟨hw, hs⟩
    · exact .enter hr
    · exact .step hw hs

theorem not_awaits_nil {q₁ : List Action} {b : Block} : ¬ Awaits q₁ b [] := by
  intro h
  generalize hp : ([] : List Action) = p at h
  cases h <;> simp at hp

theorem Awaits.reexecutes {q₁ q : List Action} {b : Block} (h : Awaits q₁ b q) :
    Reexecutes (history q₁) b := by
  induction h with
  | enter hr => exact hr
  | step _ _ ih => exact ih

/-- At most one occurrence waits. -/
theorem awaits_unique {q q₁ q₂ : List Action} {b₁ b₂ : Block} (h₁ : Awaits q₁ b₁ q)
    (h₂ : Awaits q₂ b₂ q) : q₁ = q₂ ∧ b₁ = b₂ := by
  induction q using List.reverseRecOn generalizing q₁ q₂ b₁ b₂ with
  | nil => exact absurd h₁ not_awaits_nil
  | append_singleton q a ih =>
      rcases awaits_append_singleton.mp h₁ with ⟨rfl, rfl, hr₁⟩ | ⟨hw₁, hs₁⟩ <;>
        rcases awaits_append_singleton.mp h₂ with ⟨e, ha, hr₂⟩ | ⟨hw₂, hs₂⟩
      · cases ha
        exact ⟨e, rfl⟩
      · exact absurd hr₁ hs₂
      · subst e ha
        exact absurd hr₂ hs₁
      · exact ih hw₁ hw₂

theorem current_exprs (q : List Action) (es : List Expr) :
    (history (q ++ es.map .expr)).current = (history q).current := by
  induction es using List.reverseRecOn with
  | nil => simp
  | append_singleton es e ih =>
      rw [List.map_append, List.map_singleton, ← List.append_assoc, history_append_singleton,
        ((history _).step_expr e).1, ih]

/-- Inside its own occurrence a block waits as long as it creates no event. -/
theorem awaits_own {q₁ : List Action} {b : Block} (hr : Reexecutes (history q₁) b)
    (es : List Expr) : Awaits q₁ b (q₁ ++ [Action.enter b] ++ es.map .expr) ↔
      ∀ n, Expr.newEvent n ∉ es := by
  have hcur : (history (q₁ ++ [Action.enter b])).current = some b.getPrettyBlockId := by
    rw [history_append_singleton, History.step_enter hr.2.1]
  induction es using List.reverseRecOn with
  | nil => simpa using Awaits.enter hr
  | append_singleton es e ih =>
      have ih : Awaits q₁ b (q₁ ++ [Action.enter b] ++ es.map .expr) ↔
          ∀ n, Expr.newEvent n ∉ es := ih
      rw [List.map_append, List.map_singleton, ← List.append_assoc, awaits_append_singleton, ih]
      have hcur' := (current_exprs (q₁ ++ [Action.enter b]) es).trans hcur
      have hsilent : Silent (q₁ ++ [Action.enter b] ++ es.map .expr) (.expr e) ↔
          ∀ n, e ≠ .newEvent n := by
        cases e with
        | newEvent n =>
            refine iff_of_false (fun h => ?_) (by simp)
            rw [Silent, hcur'] at h
            cases h
        | submitOp e => simp [Silent]
        | link e => simp [Silent]
        | trigger e => simp [Silent]
      rw [hsilent]
      simp only [List.mem_append, List.mem_singleton, not_or, reduceCtorEq, false_and, and_false,
        false_or, forall_and]
      refine and_congr_right fun _ => forall_congr' fun n => ?_
      exact ⟨fun h e => h e.symm, fun h e => h e.symm⟩

/-! ## 2. What `pending_ev` holds -/

/-- `current_block` is the block that was entered last. -/
theorem currentBlock_run {bs : List Block} {p : List Action}
    (hp : p <+: bs.flatMap Block.actions) :
    (run p).st.currentBlock.map Block.getPrettyBlockId = (history p).entered.getLast? := by
  refine prefix_induction (P := fun p =>
    (run p).st.currentBlock.map Block.getPrettyBlockId = (history p).entered.getLast?) rfl
    (fun p a hpa ih => ?_) hp
  have ha := agrees_run ((List.prefix_append p _).trans hpa)
  rw [run_append_singleton, history_append_singleton]
  cases a with
  | enter b =>
      have hreads := ha.enter_reads b
      show (enterBlock (run p).st b).1.currentBlock.map _ = _
      rcases enterBlock_cases (run p).st b with ⟨_, e⟩ | ⟨_, _, e⟩ | ⟨_, _, e⟩ | ⟨_, _, _, e⟩ <;>
        rw [e] at hreads ⊢
      · rw [History.step_enter_skip (mt hreads.mpr Bool.false_ne_true)]
        exact ih
      · rw [History.step_enter (hreads.mp rfl)]
        simp
      · rw [History.step_enter_skip (mt hreads.mpr Bool.false_ne_true)]
        exact ih
      · rw [History.step_enter (hreads.mp rfl)]
        simp
  | expr e =>
      rw [((history p).step_expr e).2.1]
      cases hr : (run p).reading with
      | false =>
          rw [step_expr_skipped hr]
          exact ih
      | true =>
          simp only [Machine.step, hr, if_true]
          rw [currentBlock_analyzeExpr]
          exact ih
  | leave b =>
      have hent : ((history p).step (.leave b)).entered = (history p).entered := by
        cases hc : (history p).current with
        | none => rw [History.step_leave_skip hc]
        | some c => rw [History.step_leave hc]
      rw [hent]
      cases hr : (run p).reading with
      | false =>
          rw [step_leave_skipped hr]
          exact ih
      | true =>
          simp only [Machine.step, hr, if_true]
          exact ih

/-- A block that begins again comes after another one. -/
theorem entered_ne_nil {p : List Action} {x : String} (h : x ∈ (history p).executed) :
    (history p).entered ≠ [] := by
  induction p using List.reverseRecOn with
  | nil => cases h
  | append_singleton p a ih =>
      have hmono := entered_mono (List.prefix_append p [a])
      rw [history_append_singleton] at h
      have hold : x ∈ (history p).executed → (history (p ++ [a])).entered ≠ [] := by
        intro hx hnil
        rw [hnil, List.prefix_nil] at hmono
        exact ih hx hmono
      cases a with
      | enter b =>
          by_cases hr : (history p).Reads b
          · rw [History.step_enter hr] at h
            exact hold h
          · rw [History.step_enter_skip hr] at h
            exact hold h
      | expr e =>
          rw [((history p).step_expr e).2.2] at h
          exact hold h
      | leave b =>
          cases hc : (history p).current with
          | none =>
              rw [History.step_leave_skip hc] at h
              exact hold h
          | some c =>
              intro hnil
              rw [hnil, List.prefix_nil] at hmono
              have := (current_eq_some hc).1
              rw [hmono] at this
              cases this

theorem getLast_entered {p : List Action} {x : String} (h : x ∈ (history p).executed) :
    ∃ y, (history p).entered.getLast? = some y :=
  ⟨_, List.getLast?_eq_some_getLast (entered_ne_nil h)⟩

theorem getPrettyBlockId_ne_empty (b : Block) : b.getPrettyBlockId ≠ "" := by
  cases hm : b.isMain with
  | true =>
      rw [getPrettyBlockId_main hm]
      intro h
      have := congrArg String.length h
      rw [String.length_append] at this
      have h5 : "MAIN_".length = 5 := rfl
      have h0 : "".length = 0 := rfl
      omega
  | false =>
      rw [getPrettyBlockId_reg hm]
      intro h
      have := congrArg String.toList h
      have hne := Nat.toDigits_ne_nil (n := b.blockId) (b := 10)
      simp at this

/-- After the actions `p` the field is `x` iff an occurrence waits, with `x` before it. -/
def PendingExact (p : List Action) (x : String) : Prop :=
  (run p).st.pendingEv = x ∧ x ≠ "" ↔
    ∃ q₁ b, Awaits q₁ b p ∧ (history q₁).entered.getLast? = some x

/-- A silent action that leaves the field alone. -/
theorem PendingExact.keep {p : List Action} {a : Action} {x : String} (h : PendingExact p x)
    (hs : Silent p a) (hno : ∀ b, a = .enter b → ¬ Reexecutes (history p) b)
    (he : ((run p).step a).st.pendingEv = (run p).st.pendingEv) : PendingExact (p ++ [a]) x := by
  unfold PendingExact at h ⊢
  rw [run_append_singleton, he, h]
  refine exists_congr fun q₁ => exists_congr fun b => and_congr_left fun _ => ?_
  rw [awaits_append_singleton]
  refine ⟨fun h => .inr ⟨h, hs⟩, fun h => ?_⟩
  rcases h with ⟨e, ha, hr⟩ | ⟨h, _⟩
  · exact absurd (e ▸ hr) (hno b ha)
  · exact h

/-- A re-executed block puts the block before it into the field. -/
theorem pendingEv_reexecuted {bs : List Block} {p : List Action} {b : Block}
    (hpre : p <+: bs.flatMap Block.actions) (h : Reexecutes (history p) b) :
    ∃ c : Block, (history p).entered.getLast? = some c.getPrettyBlockId ∧
      (run (p ++ [Action.enter b])).st.pendingEv = c.getPrettyBlockId := by
  have ha := agrees_run hpre
  have hcur := currentBlock_run hpre
  obtain ⟨hm, hrd, hx⟩ := h
  obtain ⟨y, hy⟩ := getLast_entered hx
  rw [hy] at hcur
  obtain ⟨c, hc, rfl⟩ := Option.map_eq_some_iff.mp hcur
  obtain ⟨n, hn, hattr⟩ := (ha.attr _).mpr hx
  refine ⟨c, hy, ?_⟩
  rw [run_append_singleton]
  show (enterBlock (run p).st b).1.pendingEv = _
  have hrd' := (ha.enter_reads b).mpr hrd
  rcases enterBlock_cases (run p).st b with ⟨_, e⟩ | ⟨_, hm', _⟩ | ⟨_, _, e⟩ | ⟨_, info, hi, e⟩
  · rw [e] at hrd'
    cases hrd'
  · rw [hm] at hm'
    cases hm'
  · rw [e] at hrd'
    cases hrd'
  · rw [e]
    rw [hn] at hi
    cases hi
    simp [beginEvent, hattr, hc]

/-- Any other block leaves the field alone. -/
theorem pendingEv_enter {bs : List Block} {p : List Action} {b : Block}
    (hpre : p <+: bs.flatMap Block.actions) (h : ¬ Reexecutes (history p) b) :
    ((run p).step (.enter b)).st.pendingEv = (run p).st.pendingEv := by
  have ha := agrees_run hpre
  show (enterBlock (run p).st b).1.pendingEv = _
  rcases enterBlock_cases (run p).st b with ⟨_, e⟩ | ⟨_, _, e⟩ | ⟨_, _, e⟩ |
    ⟨hm, info, hi, e⟩ <;> rw [e]
  · rfl
  · have hrd := (ha.enter_reads b).mp (by rw [e])
    have hattr : executedAttr ∉ info.attributes := fun h' =>
      h ⟨hm, hrd, (ha.attr _).mp ⟨info, hi, h'⟩⟩
    simp [beginEvent, hattr]

theorem pendingEv_leave (p : List Action) (b : Block) :
    ((run p).step (.leave b)).st.pendingEv = (run p).st.pendingEv := by
  cases hr : (run p).reading with
  | false => rw [step_leave_skipped hr]
  | true =>
      simp only [Machine.step, hr, if_true]
      rfl

theorem PendingExact.enter {bs : List Block} {p : List Action} {b : Block} {x : String}
    (hpre : p <+: bs.flatMap Block.actions) (h : PendingExact p x) :
    PendingExact (p ++ [Action.enter b]) x := by
  by_cases hre : Reexecutes (history p) b
  · -- the block before takes the field over
    obtain ⟨c, hy, hpend⟩ := pendingEv_reexecuted hpre hre
    unfold PendingExact
    rw [hpend]
    constructor
    · intro h
      exact ⟨p, b, .enter hre, by rw [hy, h.1]⟩
    · intro h
      obtain ⟨q₁, b', h, hl⟩ := h
      rcases awaits_append_singleton.mp h with ⟨rfl, _, _⟩ | ⟨_, hs⟩
      · rw [hy] at hl
        cases hl
        exact ⟨rfl, getPrettyBlockId_ne_empty c⟩
      · exact absurd hre hs
  · refine h.keep hre (fun b' e => ?_) (pendingEv_enter hpre hre)
    cases e
    exact hre

theorem PendingExact.expr {bs : List Block} {p : List Action} {e : Expr} {x : String}
    (hpre : p <+: bs.flatMap Block.actions) (h : PendingExact p x) :
    PendingExact (p ++ [Action.expr e]) x := by
  have ha := agrees_run hpre
  have hno : ∀ b, Action.expr e = .enter b → ¬ Reexecutes (history p) b := nofun
  cases hr : (run p).reading with
  | false =>
      have hcn : (history p).current = none := by
        simpa [hr] using ha.reading
      refine h.keep ?_ hno (by rw [step_expr_skipped hr])
      cases e with
      | newEvent e => exact hcn
      | submitOp e => trivial
      | link e => trivial
      | trigger e => trivial
  | true =>
      cases e with
      | submitOp e => exact h.keep trivial hno (by simp [Machine.step, hr, analyzeExpr])
      | trigger e =>
          exact h.keep trivial hno (by simp [Machine.step, hr, analyzeExpr, analyzeTrigger])
      | link e =>
          exact h.keep trivial hno (by simp [Machine.step, hr, analyzeExpr, analyzeLink_eq])
      | newEvent e =>
          -- the field is cleared, and no occurrence waits any more
          have hcn : (history p).current ≠ none := fun h => by
            simpa [hr, h] using ha.reading
          unfold PendingExact
          rw [run_append_singleton]
          simp only [Machine.step, hr, if_true]
          refine iff_of_false (fun h => h.2 h.1.symm) fun h => ?_
          obtain ⟨q₁, b, h, _⟩ := h
          rcases awaits_append_singleton.mp h with ⟨_, ha, _⟩ | ⟨_, hs⟩
          · cases ha
          · exact hcn hs

/-- **`pending_ev` is the block before the occurrence that waits.** -/
theorem pendingEv_iff_awaits {bs : List Block} {p : List Action}
    (hp : p <+: bs.flatMap Block.actions) (x : String) :
    (run p).st.pendingEv = x ∧ x ≠ "" ↔
      ∃ q₁ b, Awaits q₁ b p ∧ (history q₁).entered.getLast? = some x := by
  refine prefix_induction (P := fun p => PendingExact p x) ?_ (fun p a hpa ih => ?_) hp
  · refine iff_of_false (fun h => h.2 h.1.symm) fun h => ?_
    obtain ⟨_, _, h, _⟩ := h
    exact not_awaits_nil h
  have hpre := (List.prefix_append p _).trans hpa
  cases a with
  | leave b => exact ih.keep trivial nofun (pendingEv_leave p b)
  | enter b => exact ih.enter hpre
  | expr e => exact ih.expr hpre

/-! ## 3. Edges that leave their block -/

/-- After the actions `q` the new event `e` gets the extra edge from `p`. -/
structure PendingCall (t : Trace) (q : List Action) (e : NewEventExpr) (p : String) : Prop where
  reached : q ++ [.expr (.newEvent e)] <+: t.actions
  analysed : (history q).current.isSome
  pending : (run q).st.pendingEv = p
  nonempty : p ≠ ""
  ne : p ≠ toString e.eventId

/-- It is one of the calls of `AddEdge` that the new event makes. -/
theorem PendingCall.mem {t : Trace} {q : List Action} {e : NewEventExpr} {p : String}
    (h : PendingCall t q e p) :
    (p, toString e.eventId, .happensBefore) ∈ newEventCalls (run q).st e :=
  mem_newEventCalls.mpr (.inl ⟨by rw [h.pending]; exact h.nonempty, h.pending.symm, rfl, rfl⟩)

/-- **The property**: the event is the first one of a re-executed occurrence, and the edge comes
    from the block analysed just before that occurrence. -/
def PendingInside (t : Trace) : Prop :=
  ∀ q e p, PendingCall t q e p → ∃ q₁ b, ∃ es : List Expr, q = q₁ ++ [.enter b] ++ es.map .expr ∧
    Reexecutes (history q₁) b ∧ (∀ n, Expr.newEvent n ∉ es) ∧
      (history q₁).entered.getLast? = some p

/-- When an event is created while a re-executed occurrence waits, it is created in that
    occurrence, or it has the id of the block before it. -/
def NoEmptyReexecution (t : Trace) : Prop :=
  ∀ q e q₁ b, q ++ [.expr (.newEvent e)] <+: t.actions → (history q).current.isSome →
    Awaits q₁ b q → (∃ es : List Expr, q = q₁ ++ [.enter b] ++ es.map .expr) ∨
      (history q₁).entered.getLast? = some (toString e.eventId)

/-- **When the pending edge stays inside the re-executed block.** -/
theorem pendingInside_iff (t : Trace) : PendingInside t ↔ NoEmptyReexecution t := by
  refine ⟨fun h q e q₁ b hq hcur hw => ?_, fun h q e p hc => ?_⟩
  · have hpre : q <+: t.actions := (List.prefix_append q _).trans hq
    obtain ⟨x, hx⟩ := getLast_entered hw.reexecutes.2.2
    obtain ⟨hpend, hne⟩ := (pendingEv_iff_awaits hpre x).mpr ⟨q₁, b, hw, hx⟩
    by_cases hself : x = toString e.eventId
    · exact .inr (hself ▸ hx)
    · obtain ⟨q₂, b₂, es, hq₂, hr, hes, _⟩ := h q e x ⟨hq, hcur, hpend, hne, hself⟩
      have hw₂ : Awaits q₂ b₂ q := hq₂ ▸ (awaits_own hr es).mpr hes
      obtain ⟨rfl, rfl⟩ := awaits_unique hw hw₂
      exact .inl ⟨es, hq₂⟩
  · have hpre : q <+: t.actions := (List.prefix_append q _).trans hc.reached
    obtain ⟨q₁, b, hw, hl⟩ := (pendingEv_iff_awaits hpre p).mp ⟨hc.pending, hc.nonempty⟩
    rcases h q e q₁ b hc.reached hc.analysed hw with ⟨es, rfl⟩ | hself
    · have hr := hw.reexecutes
      exact ⟨q₁, b, es, rfl, hr, (awaits_own hr es).mp hw, hl⟩
    · rw [hself] at hl
      cases hl
      exact absurd rfl hc.ne

/-- An interval fires twice and creates nothing; a read that completes later creates an event. -/
def firedTwice : Trace where
  threadId := 1
  cwd := "/"
  execOps := []
  blocks := [
    ⟨1, .MAIN, [.newEvent ⟨2, ⟨.W, 1⟩, []⟩, .newEvent ⟨3, ⟨.EXT, 0⟩, []⟩]⟩,
    ⟨2, .REG, []⟩,
    ⟨2, .REG, []⟩,
    ⟨3, .REG, [.newEvent ⟨4, ⟨.S, 0⟩, []⟩]⟩]

/-- The event of the read gets the edge of the interval. -/
theorem pendingInside_fails : ¬ PendingInside firedTwice := by
  intro h
  have hc : PendingCall firedTwice (firedTwice.actions.take 9) ⟨4, ⟨.S, 0⟩, []⟩ "2" :=
    ⟨by decide, by decide, by decide +kernel, by decide, by decide⟩
  obtain ⟨q₁, b, es, hq, hr, _⟩ := h _ _ _ hc
  have hlast : firedTwice.actions.take 9 = firedTwice.actions.take 8 ++
      [.enter ⟨3, .REG, [.newEvent ⟨4, ⟨.S, 0⟩, []⟩]⟩] := by decide
  rw [hlast] at hq
  rcases List.eq_nil_or_concat es with rfl | ⟨es, e, rfl⟩
  · rw [List.map_nil, List.append_nil] at hq
    obtain ⟨rfl, hb⟩ := List.append_singleton_inj.mp hq
    cases hb
    revert hr
    decide
  · rw [List.concat_eq_append, List.map_append, List.map_singleton, ← List.append_assoc] at hq
    cases (List.append_singleton_inj.mp hq).2

end Fsracer

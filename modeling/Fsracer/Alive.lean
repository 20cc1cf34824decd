/-
  File:      Fsracer/Alive.lean
  Subject:   THE SET `alive_events` against the callbacks that are really pending.

  The field is documented as the events whose callbacks have not been executed yet. A callback
  is executed by its own block or by a `trigger` inside another block; `AnalyzeTrigger` does not
  touch the set. `aliveInvariant_iff` says exactly when that does no harm: when no analysed
  trigger names an event that is pending in another block.
-/
import Mathlib
import Fsracer.History

namespace Fsracer

/-! ## 1. One action -/

theorem aliveEvents_enter (m : Machine) (b : Block) :
    (m.step (.enter b)).st.aliveEvents = m.st.aliveEvents := by
  show (enterBlock m.st b).1.aliveEvents = _
  rcases enterBlock_cases m.st b with ⟨_, h⟩ | ⟨_, _, h⟩ | ⟨_, _, h⟩ | ⟨_, _, _, h⟩ <;> rw [h] <;> rfl

theorem aliveEvents_analyzeExpr (st : DepState) (e : Expr) :
    (analyzeExpr st e).aliveEvents = match e with
      | .newEvent n => st.aliveEvents.insert (toString n.eventId)
      | _ => st.aliveEvents := by
  cases e with
  | link e =>
      show (analyzeLink st e).aliveEvents = _
      rw [analyzeLink_eq]
  | submitOp e => rfl
  | newEvent e => rfl
  | trigger e => rfl

theorem aliveEvents_expr {m : Machine} (hr : m.reading = true) (e : Expr) :
    (m.step (.expr e)).st.aliveEvents = match e with
      | .newEvent n => m.st.aliveEvents.insert (toString n.eventId)
      | _ => m.st.aliveEvents := by
  simp only [Machine.step, hr, if_true]
  exact aliveEvents_analyzeExpr m.st e

theorem aliveEvents_leave {m : Machine} (hr : m.reading = true) (b : Block) :
    (m.step (.leave b)).st.aliveEvents = m.st.aliveEvents.erase b.getPrettyBlockId := by
  simp [Machine.step, hr, leaveBlock]

/-! ## 2. The invariant and the runs that keep it -/

/-- `alive_events` holds exactly the pending callbacks, after every analysed action; hence the
    older event of every call of `AddEdge` in `AddDependencies` and `ConnectWithWEvents` is
    pending. -/
structure AliveInvariant (t : Trace) : Prop where
  exact : ∀ p, p <+: t.actions → ∀ x,
    x ∈ (run p).st.aliveEvents ↔ x ∈ (history p).pending
  dependencies : ∀ p, p <+: t.actions → ∀ (blockId eventId : String) (event : Event) c,
    c ∈ (run p).st.aliveEvents.toList.flatMap
      (dependencyCalls (run p).st.depGraph blockId eventId event) →
    (c.1 = eventId ∧ c.2.1 ∈ (history p).pending) ∨
      (c.1 ∈ (history p).pending ∧ c.2.1 = eventId)
  wEvents : ∀ p, p <+: t.actions → ∀ (eventId : String) (value : Nat) c,
    c ∈ (run p).st.aliveEvents.toList.flatMap (wCalls (run p).st.depGraph eventId value) →
    c.1 = eventId ∧ c.2.1 ∈ (history p).pending

/-- No analysed `trigger` names an event that is pending in another block. -/
def NoPendingTrigger (t : Trace) : Prop :=
  ∀ p e, p ++ [.expr (.trigger e)] <+: t.actions → ∀ c, (history p).current = some c →
    toString e.eventId ≠ c → toString e.eventId ∉ (history p).pending

/-- One action keeps the set exact, unless it triggers a pending event of another block. -/
theorem mem_aliveEvents_step {h : History} {m : Machine} (ha : Agrees h m)
    (hx : ∀ x, x ∈ m.st.aliveEvents ↔ x ∈ h.pending) (a : Action)
    (hok : ∀ e c, a = .expr (.trigger e) → h.current = some c → toString e.eventId ≠ c →
      toString e.eventId ∉ h.pending) (x : String) :
    x ∈ (m.step a).st.aliveEvents ↔ x ∈ (h.step a).pending := by
  have hrd := ha.reading
  cases a with
  | enter b =>
      have hp : (h.step (.enter b)).pending = h.pending := by
        by_cases hr : h.Reads b
        · rw [History.step_enter hr]
        · rw [History.step_enter_skip hr]
      rw [aliveEvents_enter, hp]
      exact hx x
  | leave b =>
      cases hc : h.current with
      | none =>
          rw [hc] at hrd
          rw [History.step_leave_skip hc, step_leave_skipped hrd]
          exact hx x
      | some c =>
          rw [hc] at hrd
          rw [History.step_leave hc, aliveEvents_leave hrd, Ordered.mem_erase_iff,
            Finset.mem_erase, hx, ne_comm]
  | expr e =>
      cases hc : h.current with
      | none =>
          rw [hc] at hrd
          rw [History.step_expr_skip hc, step_expr_skipped hrd]
          exact hx x
      | some c =>
          rw [hc] at hrd
          rw [aliveEvents_expr hrd]
          cases e with
          | submitOp e => exact hx x
          | link e => exact hx x
          | newEvent e =>
              rw [History.step_newEvent hc]
              show x ∈ m.st.aliveEvents.insert _ ↔ x ∈ insert _ h.pending
              rw [Ordered.mem_insert_iff, Finset.mem_insert, hx, eq_comm]
          | trigger e =>
              rw [History.step_trigger hc]
              by_cases he : toString e.eventId = c
              · rw [if_pos he]
                exact hx x
              · rw [if_neg he]
                show x ∈ m.st.aliveEvents ↔ x ∈ h.pending.erase _
                rw [Finset.erase_eq_of_notMem (hok e c rfl hc he)]
                exact hx x

/-- **The alive set is exact in a run iff no trigger of the run names an event that is pending
    in another block.** -/
theorem aliveInvariant_iff (t : Trace) : AliveInvariant t ↔ NoPendingTrigger t := by
  refine ⟨fun h p e hp c hc hne hmem => ?_, fun h => ?_⟩
  · have hpre : p <+: t.actions := (List.prefix_append p _).trans hp
    have hrd := (agrees_run hpre).reading
    rw [hc] at hrd
    -- the event is alive before the trigger and after it, but pending before it only
    have hal : toString e.eventId ∈ (run (p ++ [.expr (.trigger e)])).st.aliveEvents := by
      rw [run_append_singleton, aliveEvents_expr hrd]
      exact (h.exact p hpre _).mpr hmem
    rw [h.exact _ hp, history_append_singleton, History.step_trigger hc, if_neg hne] at hal
    exact absurd hal (Finset.notMem_erase _ _)
  · have hex : ∀ p, p <+: t.actions → ∀ x,
        x ∈ (run p).st.aliveEvents ↔ x ∈ (history p).pending := by
      intro p hp
      refine prefix_induction (P := fun p => ∀ x, x ∈ (run p).st.aliveEvents ↔
        x ∈ (history p).pending) (fun x => ?_) (fun p a hpa ih x => ?_) hp
      · simp [history, History.empty, run, Machine.start, DepState.init]
      · rw [run_append_singleton, history_append_singleton]
        refine mem_aliveEvents_step (agrees_run ((List.prefix_append p _).trans hpa)) ih a ?_ x
        intro e c ha hc hne
        subst ha
        exact h p e hpa c hc hne
    refine ⟨hex, fun p hp blockId eventId event c hc => ?_, fun p hp eventId value c hc => ?_⟩
    · obtain ⟨a, ha, hc⟩ := List.mem_flatMap.mp hc
      rw [Std.TreeSet.mem_toList, hex p hp] at ha
      obtain ⟨_, _, old, _, ⟨_, h1, h2⟩ | ⟨_, h1, h2⟩⟩ := mem_dependencyCalls.mp hc
      · exact .inr ⟨h1 ▸ ha, h2⟩
      · exact .inl ⟨h1, h2 ▸ ha⟩
    · obtain ⟨a, ha, hc⟩ := List.mem_flatMap.mp hc
      rw [Std.TreeSet.mem_toList, hex p hp] at ha
      obtain ⟨_, h1, h2, _⟩ := mem_wCalls.mp hc
      exact ⟨h1, h2 ▸ ha⟩

/-- Two timers: the block of the first one runs the callback of the second, then creates an
    event. -/
def triggeredTimer : Trace where
  threadId := 1
  cwd := "/"
  execOps := []
  blocks := [
    ⟨1, .MAIN, [.newEvent ⟨4, ⟨.W, 1⟩, []⟩, .newEvent ⟨5, ⟨.W, 1⟩, []⟩]⟩,
    ⟨4, .REG, [.trigger ⟨5, []⟩, .newEvent ⟨6, ⟨.S, 0⟩, []⟩]⟩]

/-- The triggered timer stays alive. -/
theorem aliveInvariant_fails : ¬ AliveInvariant triggeredTimer := by
  intro h
  have hp : triggeredTimer.actions.take 6 <+: triggeredTimer.actions := List.take_prefix _ _
  have h5 := h.exact _ hp "5"
  exact absurd (h5.mp (by decide +kernel)) (by decide +kernel)

end Fsracer

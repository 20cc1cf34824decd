/-
  File:      Fsracer/TriggerContext.lean
  Subject:   LINKS AND THE CURRENT CONTEXT: which links `AnalyzeLink` skips.

  A link is skipped when its source is the running block or the current context, and a `trigger`
  is meant to make the event it names the context. `current_context = GetEventId()` assigns a
  number to a string, which stores one character. So a link from the triggered event is not
  skipped, and a link from another event is skipped when its id is the digit that the character
  happens to show. `skipsContext_iff` is the exact condition.
-/
import Mathlib
import Fsracer.Links

namespace Fsracer

/-! ## 1. The event that was triggered last -/

/-- What an action makes of the event triggered last. -/
def lastTriggerStep (o : Option Nat) : Action → Option Nat
  | .enter _ => none
  | .expr (.trigger e) => some e.eventId
  | _ => o

/-- The event that the last `trigger` of the running block names. -/
def lastTrigger (p : List Action) : Option Nat := p.foldl lastTriggerStep none

@[simp] theorem lastTrigger_append_singleton (p : List Action) (a : Action) :
    lastTrigger (p ++ [a]) = lastTriggerStep (lastTrigger p) a := by simp [lastTrigger]

/-- The id of the current context: the event triggered last, or the block itself. -/
def contextId (p : List Action) (block : String) : String :=
  match lastTrigger p with
  | some x => toString x
  | none => block

/-- What the analyzer holds instead: one character. -/
def storedContext (p : List Action) (block : String) : String :=
  match lastTrigger p with
  | some x => String.singleton (Char.ofNat (x % 256))
  | none => block

/-- While a block is read, the context of the run is the stored one. -/
theorem context_eq_stored {p : List Action} {c : String} (hc : (history p).current = some c) :
    context p = storedContext p c := by
  induction p using List.reverseRecOn generalizing c with
  | nil => cases hc
  | append_singleton p a ih =>
      rw [history_append_singleton] at hc
      unfold storedContext at ih ⊢
      rw [context_append_singleton, lastTrigger_append_singleton]
      cases a with
      | enter b =>
          by_cases hr : (history p).Reads b
          · rw [History.step_enter hr] at hc
            cases hc
            simp [contextStep, lastTriggerStep, hr.1]
          · rw [History.step_enter_skip hr] at hc
            cases hc
      | leave b =>
          cases hp : (history p).current with
          | none =>
              rw [History.step_leave_skip hp, hp] at hc
              cases hc
          | some d =>
              rw [History.step_leave hp] at hc
              cases hc
      | expr e =>
          rw [((history p).step_expr e).1] at hc
          cases e with
          | trigger e => rfl
          | submitOp e => exact ih hc
          | newEvent e => exact ih hc
          | link e => exact ih hc

/-- A printed number of one character is a digit. -/
theorem toString_eq_singleton {s n : Nat} (hn : n < 256) :
    toString s = String.singleton (Char.ofNat n) ↔ s < 10 ∧ n = 48 + s := by
  rw [← String.toList_inj, String.toList_singleton]
  have hlist : (toString s).toList = Nat.toDigits 10 s := by simp
  rw [hlist]
  refine ⟨fun h => ?_, fun h => ?_⟩
  · have hs : s < 10 := by
      have hlen : (Nat.toDigits 10 s).length ≤ 1 := by rw [h]; rfl
      have := (Nat.length_toDigits_le_iff (by omega) (by omega)).mp hlen
      omega
    refine ⟨hs, ?_⟩
    rw [Nat.toDigits_of_lt_base hs] at h
    have h := congrArg Char.toNat (List.singleton_inj.mp h)
    rw [Char.toNat_ofNat, if_pos (Or.inl (by omega))] at h
    have hdigit : (Nat.digitChar s).toNat = 48 + s := by interval_cases s <;> rfl
    omega
  · obtain ⟨hs, rfl⟩ := h
    rw [Nat.toDigits_of_lt_base hs]
    interval_cases s <;> rfl

/-! ## 2. Links that are skipped -/

/-- The link `e` is analysed after the actions `p` in the block `c`; its source is a node other
    than its target. -/
structure LinkMoment (t : Trace) (p : List Action) (e : LinkExpr) (c : String) : Prop where
  reached : p ++ [.expr (.link e)] <+: t.actions
  current : (history p).current = some c
  source : (run p).st.depGraph.HasNode (toString e.sourceEv)
  ne : e.sourceEv ≠ e.targetEv

/-- `AnalyzeLink` adds the edge of the link iff its source is neither the running block nor the
    current context. -/
def SkipsContext (p : List Action) (e : LinkExpr) (c : String) : Prop :=
  (toString e.sourceEv, toString e.targetEv, .happensBefore) ∈ linkCalls (run p).st e ↔
    toString e.sourceEv ≠ c ∧ toString e.sourceEv ≠ contextId p c

/-- The link does not meet the character that stands for the context: no `trigger` precedes it
    in its block, or its source is the block itself, or its source is neither the triggered event
    nor the digit whose code is the low byte of that event. -/
def LinkUnaffected (p : List Action) (e : LinkExpr) (c : String) : Prop :=
  ∀ x, lastTrigger p = some x → toString e.sourceEv = c ∨
    e.sourceEv ≠ x ∧ ¬ (e.sourceEv < 10 ∧ x % 256 = 48 + e.sourceEv)

/-- What the code does at such a moment. -/
theorem mem_linkCalls {t : Trace} {p : List Action} {e : LinkExpr} {c : String}
    (h : LinkMoment t p e c) :
    (toString e.sourceEv, toString e.targetEv, .happensBefore) ∈ linkCalls (run p).st e ↔
      toString e.sourceEv ≠ c ∧ toString e.sourceEv ≠ storedContext p c := by
  have ha := agrees_run ((List.prefix_append p _).trans h.reached)
  have hrd : (run p).reading = true := ha.reading.trans (by rw [h.current]; rfl)
  unfold linkCalls
  rw [ha.current c h.current, currentContext_run hrd, context_eq_stored h.current]
  split
  · rename_i hskip
    exact iff_of_false (by simp) fun ⟨h1, h2⟩ => hskip.elim h1 h2
  · rename_i hskip
    exact iff_of_true (by simp) (not_or.mp hskip)

/-- **When links are skipped exactly for the current context.** -/
theorem skipsContext_iff {t : Trace} {p : List Action} {e : LinkExpr} {c : String}
    (h : LinkMoment t p e c) : SkipsContext p e c ↔ LinkUnaffected p e c := by
  unfold SkipsContext LinkUnaffected
  rw [mem_linkCalls h]
  unfold contextId storedContext
  cases hx : lastTrigger p with
  | none => simp
  | some x =>
      simp only [Option.some.injEq, forall_eq']
      rw [ne_eq, ne_eq, ne_eq, toString_eq_singleton (Nat.mod_lt x (by omega)), toString_nat_inj]
      by_cases hc : toString e.sourceEv = c
      · simp [hc]
      · -- an id whose low byte is a digit's code is no digit
        have hself : ¬ (e.sourceEv = x ∧ e.sourceEv < 10 ∧ x % 256 = 48 + e.sourceEv) := by omega
        simp only [hc, not_false_eq_true, true_and, false_or]
        tauto

/-- Two reads; the first is triggered and both are linked to each other, in the main block. -/
def triggeredLink : Trace where
  threadId := 1
  cwd := "/"
  execOps := []
  blocks := [
    ⟨1, .MAIN, [.newEvent ⟨5, ⟨.EXT, 0⟩, []⟩, .newEvent ⟨6, ⟨.EXT, 0⟩, []⟩, .trigger ⟨5, []⟩,
      .link ⟨6, 5, []⟩, .link ⟨5, 6, []⟩]⟩]

/-- The link from the other read is decided as it should be. -/
theorem skipsContext_triggeredLink :
    SkipsContext (triggeredLink.actions.take 4) ⟨6, 5, []⟩ "MAIN_1" := by
  have hm : LinkMoment triggeredLink (triggeredLink.actions.take 4) ⟨6, 5, []⟩ "MAIN_1" :=
    ⟨by decide, by decide, by decide +kernel, by decide⟩
  refine (skipsContext_iff hm).mpr fun x hx => ?_
  have hx : some 5 = some x := hx
  cases hx
  exact .inr (by decide)

/-- The link from the triggered event is not skipped. -/
theorem skipsContext_fails : ¬ ∀ t p e c, LinkMoment t p e c → SkipsContext p e c := by
  intro h
  have hm : LinkMoment triggeredLink (triggeredLink.actions.take 5) ⟨5, 6, []⟩ "MAIN_1" :=
    ⟨by decide, by decide, by decide +kernel, by decide⟩
  have hmem : ("5", "6", EdgeLabel.happensBefore) ∈
      linkCalls (run (triggeredLink.actions.take 5)).st ⟨5, 6, []⟩ := by decide +kernel
  exact ((h _ _ _ _ hm).mp hmem).2 (by decide)

end Fsracer

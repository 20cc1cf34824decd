/-
  File:      Fsracer/Lib/Machine.lean
  Subject:   MACHINES WITH OUTPUTS: runs, components, and what a component ignores.

  A machine is a step function; its run over a list of inputs is `List.foldl`. The library names
  no program:

  * `outputs` -- what the steps of a run put out, one after the other;
  * `driven` -- a component that every step changes by its outputs is the machine of the outputs;
  * `run_filter` -- inputs that a component ignores can be left out;
  * `invariant` -- what every step of a run preserves holds of the whole run;
  * `forall_prefix` -- a property of every step of a run, position by position.
-/
import Mathlib

namespace Machine

variable {σ ε α γ τ : Type} {step : σ → ε → σ} {out : σ → ε → List α} {s : σ}
  {as bs es : List ε} {e : ε}

/-- What the steps of a run put out. -/
def outputs (step : σ → ε → σ) (out : σ → ε → List α) : σ → List ε → List α
  | _, [] => []
  | s, e :: es => out s e ++ outputs step out (step s e) es

theorem outputs_append : outputs step out s (as ++ bs) =
    outputs step out s as ++ outputs step out (as.foldl step s) bs := by
  induction as generalizing s with
  | nil => rfl
  | cons a as ih => simp only [outputs, List.cons_append, List.foldl_cons, ih, List.append_assoc]

theorem outputs_snoc : outputs step out s (as ++ [e]) =
    outputs step out s as ++ out (as.foldl step s) e := by
  rw [outputs_append]
  simp only [outputs, List.append_nil]

/-- What is put out was put out by one step. -/
theorem mem_outputs {a : α} : a ∈ outputs step out s es ↔
    ∃ as e, as ++ [e] <+: es ∧ a ∈ out (as.foldl step s) e := by
  induction es using List.reverseRecOn with
  | nil => simp [outputs]
  | append_singleton es e ih =>
      rw [outputs_snoc, List.mem_append, ih]
      refine ⟨fun h => ?_, fun ⟨as, e', hp, ha⟩ => ?_⟩
      · rcases h with ⟨as, e', hp, ha⟩ | ha
        · exact ⟨as, e', hp.trans (List.prefix_append es [e]), ha⟩
        · exact ⟨es, e, List.prefix_refl _, ha⟩
      · rcases List.prefix_concat_iff.mp hp with heq | hp
        · obtain ⟨rfl, he⟩ := List.append_inj' heq rfl
          cases he
          exact .inr ha
        · exact .inl ⟨as, e', hp, ha⟩

/-- **A component that is driven by the outputs.** -/
theorem driven {π : σ → τ} {step' : τ → α → τ}
    (h : ∀ s e, π (step s e) = (out s e).foldl step' (π s)) :
    π (es.foldl step s) = (outputs step out s es).foldl step' (π s) := by
  induction es generalizing s with
  | nil => rfl
  | cons e es ih => simp only [outputs, List.foldl_cons, List.foldl_append, ih, h]

/-- What is put out, read through two functions. -/
theorem map_outputs {β : Type} {out' : σ → ε → List β} {f : α → γ} {k : β → γ}
    (h : ∀ s e, (out s e).map f = (out' s e).map k) :
    (outputs step out s es).map f = (outputs step out' s es).map k := by
  induction es generalizing s with
  | nil => rfl
  | cons e es ih => simp only [outputs, List.map_append, ih, h]

section Filter

variable {π : σ → τ} {p : ε → Bool}

/-- Two runs on a component that are the same up to ignored inputs. -/
theorem run_filter (hskip : ∀ s e, p e = false → π (step s e) = π s)
    (hcongr : ∀ s s' e, π s = π s' → π (step s e) = π (step s' e)) {s s' : σ} (hs : π s = π s') :
    π (es.foldl step s) = π ((es.filter p).foldl step s') := by
  induction es generalizing s s' with
  | nil => exact hs
  | cons e es ih =>
      cases he : p e with
      | true =>
          rw [List.filter_cons_of_pos he]
          exact ih (hcongr _ _ e hs)
      | false =>
          rw [List.filter_cons_of_neg (by simp [he])]
          exact ih ((hskip s e he).trans hs)

end Filter

/-- **An invariant of a run**: every step of it keeps the property. -/
theorem invariant {I : List ε → σ → Prop} (h0 : I [] s)
    (hstep : ∀ as e, as ++ [e] <+: es → I as (as.foldl step s) →
      I (as ++ [e]) (step (as.foldl step s) e)) : I es (es.foldl step s) := by
  induction es using List.reverseRecOn with
  | nil => exact h0
  | append_singleton es e ih =>
      rw [List.foldl_concat]
      refine hstep es e (List.prefix_refl _) (ih fun as e' hp => ?_)
      exact hstep as e' (hp.trans (List.prefix_append es [e]))

/-- **A property of every step**, with the run before it. -/
theorem forall_prefix {P : List ε → ε → Prop} : (∀ as e, as ++ [e] <+: es → P as e) ↔
    ∀ i (h : i < es.length), P (es.take i) es[i] := by
  refine ⟨fun h i hi => h _ _ ?_, fun h as e ⟨ds, hds⟩ => ?_⟩
  · rw [List.take_append_getElem]
    exact List.take_prefix _ es
  · subst hds
    simpa using h as.length (by simp)

end Machine

/-
  File:      Fsracer/Summary.lean
  Subject:   THE SUMMARY OF ONE EVENT ON ONE PATH: what a sequence of effects leaves recorded.

  `AddPathEffect` keeps one access for a path and an event. It is an automaton over effects with
  four states, and an `expunged` after a `produced` returns it to the empty one: a file that the
  event itself created is gone again. It does so as well when the file existed before and the
  event wrote it first. `keepsWrite_iff` says for which sequences the last write is what is left.
-/
import Mathlib
import Fsracer.Accesses

namespace Fsracer

open FSAnalyzer

/-! ## 1. The automaton -/

/-- `AddPathEffect` on effects alone. -/
def updateEffect (old : Option EffectType) (effect : EffectType) : Option EffectType :=
  match effect, old with
  | .consumed, some .produced => some .produced
  | .consumed, some .expunged => some .expunged
  | .expunged, some .produced => none
  | _, _ => some effect

theorem update_effectType (old : Option FSAccess) (fsAccess : FSAccess) :
    (update old fsAccess).map (·.effectType) =
      updateEffect (old.map (·.effectType)) fsAccess.effectType := by
  cases old with
  | none => cases h : fsAccess.effectType <;> simp [update, updateEffect, h]
  | some old =>
      cases h1 : fsAccess.effectType <;> cases h2 : old.effectType <;>
        simp [update, updateEffect, h1, h2]

/-- The effects of a list that change the file. -/
def writes (effects : List EffectType) : List EffectType := effects.filter (· ≠ .consumed)

theorem writes_consumed (effects : List EffectType) :
    writes (effects ++ [.consumed]) = writes effects := by simp [writes]

theorem writes_write (effects : List EffectType) {w : EffectType} (hw : w ≠ .consumed) :
    writes (effects ++ [w]) = writes effects ++ [w] := by simp [writes, hw]

/-- The last two writes are a production and the removal of what was produced. -/
def Forgotten (effects : List EffectType) : Prop := [.produced, .expunged] <:+ writes effects

instance (effects : List EffectType) : Decidable (Forgotten effects) :=
  inferInstanceAs (Decidable (_ <:+ _))

theorem forgotten_expunged (effects : List EffectType) :
    Forgotten (effects ++ [.expunged]) ↔ (writes effects).getLast? = some .produced := by
  unfold Forgotten
  rw [writes_write effects (by decide), List.getLast?_eq_some_iff]
  have hsplit : [EffectType.produced, .expunged] = [.produced] ++ [.expunged] := rfl
  rw [hsplit, List.suffix_concat_iff]
  refine ⟨fun h => ?_, fun ⟨ys, h⟩ => .inr ⟨[.produced], rfl, ys, h.symm⟩⟩
  rcases h with h | ⟨t, ht, ys, hys⟩
  · cases h
  · obtain ⟨rfl, _⟩ := List.append_singleton_inj.mp ht
    exact ⟨ys, hys.symm⟩

theorem not_forgotten_produced (effects : List EffectType) :
    ¬ Forgotten (effects ++ [.produced]) := by
  intro h
  unfold Forgotten at h
  rw [writes_write effects (by decide)] at h
  have hsplit : [EffectType.produced, .expunged] = [.produced] ++ [.expunged] := rfl
  rw [hsplit, List.suffix_concat_iff] at h
  rcases h with h | ⟨t, ht, _⟩
  · cases h
  · cases (List.append_singleton_inj.mp ht).2

/-- What the automaton holds after a list of effects. -/
structure Holds (effects : List EffectType) (state : Option EffectType) : Prop where
  unwritten : writes effects = [] → effects ≠ [] → state = some .consumed
  empty : writes effects = [] → state ≠ some .produced ∧ state ≠ some .expunged
  written : ∀ w, (writes effects).getLast? = some w → ¬ Forgotten effects → state = some w
  forgotten : Forgotten effects → state ≠ some .produced ∧ state ≠ some .expunged

section Step

variable {effects : List EffectType} {state : Option EffectType}

/-- While no write is held, a read marks the file as read. -/
theorem updateEffect_consumed (h : state ≠ some .produced ∧ state ≠ some .expunged) :
    updateEffect state .consumed = some .consumed := by
  rcases state with _ | _ | _ | _
  · rfl
  · exact absurd rfl h.1
  · rfl
  · exact absurd rfl h.2

theorem Holds.consumed (ih : Holds effects state) :
    Holds (effects ++ [.consumed]) (updateEffect state .consumed) := by
  have hf : Forgotten (effects ++ [.consumed]) ↔ Forgotten effects := by
    unfold Forgotten
    rw [writes_consumed]
  refine ⟨fun h _ => ?_, fun h => ?_, fun w h hn => ?_, fun h => ?_⟩
  · rw [writes_consumed] at h
    exact updateEffect_consumed (ih.empty h)
  · rw [writes_consumed] at h
    rw [updateEffect_consumed (ih.empty h)]
    decide
  · rw [writes_consumed] at h
    rw [ih.written w h (mt hf.mpr hn)]
    have hw : w ≠ .consumed := by
      have := List.mem_of_getLast? h
      simpa [writes] using (List.mem_filter.mp this).2
    cases w with
    | consumed => exact absurd rfl hw
    | produced => rfl
    | expunged => rfl
  · rw [updateEffect_consumed (ih.forgotten (hf.mp h))]
    decide

theorem holds_produced (effects : List EffectType) (state : Option EffectType) :
    Holds (effects ++ [.produced]) (updateEffect state .produced) := by
  have hs : updateEffect state .produced = some .produced := by
    rcases state with _ | _ | _ | _ <;> rfl
  rw [hs]
  refine ⟨fun h => ?_, fun h => ?_, fun w h _ => ?_, fun h => ?_⟩
  · simp [writes] at h
  · simp [writes] at h
  · rw [writes_write effects (by decide)] at h
    simpa using h
  · exact absurd h (not_forgotten_produced effects)

/-- A state `produced` means that the last write was one. -/
theorem Holds.getLast_produced (ih : Holds effects state) (hs : state = some .produced) :
    (writes effects).getLast? = some .produced := by
  cases hl : (writes effects).getLast? with
  | none => exact absurd hs (ih.empty (List.getLast?_eq_none_iff.mp hl)).1
  | some v =>
      by_cases hv : Forgotten effects
      · exact absurd hs (ih.forgotten hv).1
      · exact (ih.written v hl hv).symm.trans hs

theorem Holds.expunged (ih : Holds effects state) :
    Holds (effects ++ [.expunged]) (updateEffect state .expunged) := by
  refine ⟨fun h => ?_, fun h => ?_, fun w h hn => ?_, fun h => ?_⟩
  · simp [writes] at h
  · simp [writes] at h
  · rw [writes_write effects (by decide)] at h
    have hw : w = .expunged := by simpa using h.symm
    rw [hw]
    rw [forgotten_expunged] at hn
    rcases state with _ | _ | _ | _
    · rfl
    · exact absurd (ih.getLast_produced rfl) hn
    · rfl
    · rfl
  · rw [forgotten_expunged] at h
    have hv : ¬ Forgotten effects := by
      intro hc
      obtain ⟨ys, hys⟩ := hc
      rw [← hys] at h
      simp at h
    rw [ih.written _ h hv]
    decide

end Step

/-- **The automaton**: it forgets exactly a production that is removed again. -/
theorem holds_foldl (effects : List EffectType) :
    Holds effects (effects.foldl updateEffect none) := by
  induction effects using List.reverseRecOn with
  | nil => refine ⟨fun _ h => absurd rfl h, by simp, by simp [writes], by simp⟩
  | append_singleton effects e ih =>
      rw [List.foldl_concat]
      cases e with
      | consumed => exact ih.consumed
      | produced => exact holds_produced effects _
      | expunged => exact ih.expunged

/-- A list of effects that leaves no access: none, or one that ends in the removal of what was
    produced. -/
def LeavesNothing (effects : List EffectType) : Prop :=
  effects = [] ∨ effects.getLast? = some .expunged ∧ Forgotten effects

theorem updateEffect_eq_none {state : Option EffectType} {effect : EffectType} :
    updateEffect state effect = none ↔ effect = .expunged ∧ state = some .produced := by
  cases effect with
  | consumed => rcases state with _ | _ | _ | _ <;> simp [updateEffect]
  | produced => rcases state with _ | _ | _ | _ <;> simp [updateEffect]
  | expunged => rcases state with _ | _ | _ | _ <;> simp [updateEffect]

/-- The automaton holds a production iff that was the last write. -/
theorem Holds.produced_iff {effects : List EffectType} {state : Option EffectType}
    (h : Holds effects state) :
    state = some .produced ↔ (writes effects).getLast? = some .produced := by
  refine ⟨h.getLast_produced, fun hlast => h.written _ hlast fun hf => ?_⟩
  obtain ⟨ys, hys⟩ := hf
  rw [← hys] at hlast
  simp at hlast

/-- **When the automaton is empty again.** -/
theorem foldl_eq_none_iff (effects : List EffectType) :
    effects.foldl updateEffect none = none ↔ LeavesNothing effects := by
  unfold LeavesNothing
  rcases List.eq_nil_or_concat effects with rfl | ⟨es, e, rfl⟩
  · exact iff_of_true rfl (.inl rfl)
  · rw [List.concat_eq_append, List.foldl_concat, updateEffect_eq_none,
      (holds_foldl es).produced_iff, List.getLast?_concat, or_iff_right (by simp),
      Option.some.injEq]
    refine and_congr_right fun he => ?_
    rw [he, forgotten_expunged]

/-! ## 2. The summary -/

/-- The effects of a list of charges on one path by one event. -/
def effectsOn (log : List Charge) (k : Path × String) : List EffectType :=
  (log.filter fun c => SameKey (c.path, c.eventId) k).map (·.effectType)

theorem recorded_effectType (log : List Charge) (k : Path × String) :
    (recorded log k).map (·.effectType) = (effectsOn log k).foldl updateEffect none := by
  unfold recorded effectsOn
  generalize log.filter _ = cs
  induction cs using List.reverseRecOn with
  | nil => rfl
  | append_singleton cs c ih =>
      rw [List.foldl_concat, update_effectType, ih, List.map_append, List.foldl_append]
      rfl

/-- The effect an event should be left with: its last write, or that it read. -/
def lastEffect (effects : List EffectType) : EffectType :=
  (writes effects).getLast?.getD .consumed

/-- **The property**: the summary holds an access with this effect. -/
def KeepsWrite (log : List Charge) (k : Path × String) : Prop :=
  ∃ a, (summarise log).getValue k = some a ∧ a.effectType = lastEffect (effectsOn log k)

/-- **When no write to a file that existed before is lost.** -/
theorem keepsWrite_iff (log : List Charge) (k : Path × String)
    (h : (effectsOn log k).head? = some .consumed ∨ (effectsOn log k).head? = some .expunged) :
    KeepsWrite log k ↔ ¬ Forgotten (effectsOn log k) := by
  have hne : effectsOn log k ≠ [] := by
    intro hnil
    rw [hnil] at h
    simp at h
  have hs := holds_foldl (effectsOn log k)
  rw [← recorded_effectType] at hs
  unfold KeepsWrite
  rw [getValue_summarise]
  have hmap : (∃ a, recorded log k = some a ∧ a.effectType = lastEffect (effectsOn log k)) ↔
      (recorded log k).map (·.effectType) = some (lastEffect (effectsOn log k)) :=
    Option.map_eq_some_iff.symm
  rw [hmap]
  unfold lastEffect
  refine ⟨fun he hf => ?_, fun hf => ?_⟩
  · obtain ⟨ys, hys⟩ := hf
    have hlast : (writes (effectsOn log k)).getLast? = some .expunged := by
      rw [← hys]
      simp
    rw [hlast] at he
    exact (hs.forgotten ⟨ys, hys⟩).2 he
  · cases hl : (writes (effectsOn log k)).getLast? with
    | none => exact hs.unwritten (List.getLast?_eq_none_iff.mp hl) hne
    | some w => exact hs.written w hl hf

/-- The accesses of the first main block to one file. -/
def accessesTo (effects : List EffectType) : List Charge :=
  effects.map fun e => ⟨⟨"/srv/db"⟩, e, "MAIN_1", some ["main"], "fs"⟩

theorem keepsWrite_rewritten :
    KeepsWrite (accessesTo [.expunged, .produced, .consumed]) (⟨"/srv/db"⟩, "MAIN_1") :=
  (keepsWrite_iff _ _ (by decide)).mpr (by decide)

/-- A file that is read, written and removed leaves no access. -/
theorem keepsWrite_fails : ¬ ∀ log k, (effectsOn log k).head? = some .consumed ∨
    (effectsOn log k).head? = some .expunged → KeepsWrite log k := by
  intro h
  obtain ⟨a, ha, _⟩ := h (accessesTo [.consumed, .produced, .expunged])
    (⟨"/srv/db"⟩, "MAIN_1") (by decide)
  have hnone : recorded (accessesTo [.consumed, .produced, .expunged])
      (⟨"/srv/db"⟩, "MAIN_1") = none := by decide
  rw [getValue_summarise, hnone] at ha
  cases ha

end Fsracer

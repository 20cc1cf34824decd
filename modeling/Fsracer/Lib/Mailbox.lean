/-
  File:      Fsracer/Lib/Mailbox.lean
  Subject:   MAILBOXES: slots that hold one message each.

  `put` leaves a message in a slot and drops the one that was there; `take` empties the slot. The
  library names no program. **`conserved`**: what was put is what was taken, what was dropped and
  what the slots still hold, each message once.
-/
import Mathlib

namespace Mailbox

variable {κ ν : Type}

/-- An access to a slot. -/
inductive Action (κ ν : Type) where
  | put (k : κ) (v : ν)
  | take (k : κ)

/-- The slots, and what left them. -/
structure State (κ ν : Type) where
  slot : κ → Option ν
  taken : List (κ × ν)
  dropped : List (κ × ν)

/-- All slots are empty. -/
def State.init : State κ ν := ⟨fun _ => none, [], []⟩

/-- The message of a slot, with the slot. -/
def State.held (s : State κ ν) (k : κ) : List (κ × ν) := ((s.slot k).map (k, ·)).toList

/-- One access. -/
def step [DecidableEq κ] (s : State κ ν) : Action κ ν → State κ ν
  | .put k v => ⟨Function.update s.slot k (some v), s.taken, s.dropped ++ s.held k⟩
  | .take k => ⟨Function.update s.slot k none, s.taken ++ s.held k, s.dropped⟩

/-- What is put. -/
def Action.puts : Action κ ν → List (κ × ν)
  | .put k v => [(k, v)]
  | .take _ => []

/-- The list `l` is what the slots hold. -/
structure Holds (s : State κ ν) (l : List (κ × ν)) : Prop where
  mem : ∀ k v, (k, v) ∈ l ↔ s.slot k = some v
  nodup : (l.map Prod.fst).Nodup

theorem holds_init : Holds (State.init : State κ ν) [] where
  mem k v := by simp [State.init]
  nodup := List.nodup_nil

/-- What is held besides one slot. -/
theorem Holds.split {s : State κ ν} {l : List (κ × ν)} (h : Holds s l) (k : κ) :
    ∃ rest, l.Perm (s.held k ++ rest) ∧ (rest.map Prod.fst).Nodup ∧
      (∀ v, (k, v) ∉ rest) ∧ ∀ k', k' ≠ k → ∀ v, (k', v) ∈ rest ↔ s.slot k' = some v := by
  cases hk : s.slot k with
  | none =>
      have hno : ∀ v, (k, v) ∉ l := fun v hv => by
        rw [h.mem, hk] at hv
        cases hv
      refine ⟨l, ?_, h.nodup, hno, fun k' _ v => h.mem k' v⟩
      simp [State.held, hk]
  | some w =>
      have hmem : (k, w) ∈ l := (h.mem k w).mpr hk
      obtain ⟨as, bs, rfl⟩ := List.append_of_mem hmem
      have hperm : (as ++ (k, w) :: bs).Perm ((k, w) :: (as ++ bs)) := List.perm_middle
      have hnodup : (((k, w) :: (as ++ bs)).map Prod.fst).Nodup :=
        (hperm.map Prod.fst).nodup_iff.mp h.nodup
      rw [List.map_cons, List.nodup_cons] at hnodup
      refine ⟨as ++ bs, ?_, hnodup.2, fun v hv => ?_, fun k' hk' v => ?_⟩
      · rw [show s.held k = [(k, w)] by simp [State.held, hk]]
        exact hperm
      · exact hnodup.1 (List.mem_map.mpr ⟨_, hv, rfl⟩)
      · rw [← h.mem, hperm.mem_iff]
        simp [hk']

variable [DecidableEq κ]

/-- One access keeps the account. -/
theorem Holds.step {s : State κ ν} {l puts : List (κ × ν)} (h : Holds s l)
    (hp : puts.Perm (s.taken ++ s.dropped ++ l)) (a : Action κ ν) :
    ∃ l', Holds (step s a) l' ∧
      (puts ++ a.puts).Perm ((step s a).taken ++ (step s a).dropped ++ l') := by
  cases a with
  | put k v =>
      obtain ⟨rest, hl, hnodup, hno, hrest⟩ := h.split k
      refine ⟨(k, v) :: rest, ⟨fun k' v' => ?_, ?_⟩, ?_⟩
      · show _ ↔ Function.update s.slot k (some v) k' = some v'
        by_cases hk : k' = k
        · subst hk
          simp [hno, eq_comm]
        · rw [Function.update_of_ne hk, List.mem_cons, ← hrest k' hk]
          simp [hk]
      · rw [List.map_cons, List.nodup_cons]
        refine ⟨fun hmem => ?_, hnodup⟩
        obtain ⟨⟨k', v'⟩, hm, hk⟩ := List.mem_map.mp hmem
        cases hk
        exact hno v' hm
      · show (puts ++ [(k, v)]).Perm (s.taken ++ (s.dropped ++ s.held k) ++ (k, v) :: rest)
        refine ((hp.trans (hl.append_left _)).append_right _).trans ?_
        simp only [List.append_assoc]
        refine .append_left _ (.append_left _ (.append_left _ ?_))
        exact List.perm_append_comm
  | take k =>
      obtain ⟨rest, hl, hnodup, hno, hrest⟩ := h.split k
      refine ⟨rest, ⟨fun k' v' => ?_, hnodup⟩, ?_⟩
      · show _ ↔ Function.update s.slot k none k' = some v'
        by_cases hk : k' = k
        · subst hk
          simp [hno]
        · rw [Function.update_of_ne hk, ← hrest k' hk]
      · show (puts ++ []).Perm (s.taken ++ s.held k ++ s.dropped ++ rest)
        rw [List.append_nil]
        refine (hp.trans (hl.append_left _)).trans ?_
        simp only [List.append_assoc]
        refine .append_left _ ?_
        rw [← List.append_assoc, ← List.append_assoc]
        exact .append_right _ List.perm_append_comm

/-- **What was put is what was taken, what was dropped and what is held.** -/
theorem conserved (as : List (Action κ ν)) : ∃ l, Holds (as.foldl step State.init) l ∧
    (as.flatMap Action.puts).Perm
      ((as.foldl step State.init).taken ++ (as.foldl step State.init).dropped ++ l) := by
  induction as using List.reverseRecOn with
  | nil => exact ⟨[], holds_init, List.Perm.refl _⟩
  | append_singleton as a ih =>
      obtain ⟨l, hl, hp⟩ := ih
      rw [List.foldl_concat, List.flatMap_append]
      simpa using hl.step hp a

end Mailbox

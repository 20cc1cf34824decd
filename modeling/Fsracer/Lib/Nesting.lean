/-
  File:      Fsracer/Lib/Nesting.lean
  Subject:   NESTED BRACKETS in a sequence: the names of the brackets that are open.

  Every element opens a bracket, closes one, or does neither. `after` is the stack of the open
  brackets, the innermost one first; it is `none` where an element closes another bracket than
  the innermost one. The library names no program:

  * `after_append`, `after_frame` -- the stack along a sequence, and below it;
  * `exists_opening` -- what is open was opened;
  * `outermost` -- where the outermost open bracket was opened.
-/
import Mathlib

namespace Nesting

/-- What an element does. -/
inductive Bracket (κ : Type) where
  | opening (k : κ)
  | closing (k : κ)
  | plain

variable {α κ : Type} [DecidableEq κ]

/-- The open brackets after one element. -/
def step (f : α → Bracket κ) (st : List κ) (c : α) : Option (List κ) :=
  match f c with
  | .opening k => some (k :: st)
  | .closing k => if st.head? = some k then some st.tail else none
  | .plain => some st

/-- **The open brackets after a sequence**, from those of `st`. -/
def after (f : α → Bracket κ) (st : List κ) (cs : List α) : Option (List κ) := cs.foldlM (step f) st

variable {f : α → Bracket κ} {st st' : List κ} {as bs cs : List α} {c : α} {k : κ}

@[simp] theorem after_nil : after f st [] = some st := rfl

theorem after_append : after f st (as ++ bs) = (after f st as).bind fun st' => after f st' bs :=
  List.foldlM_append

theorem after_append_eq_some : after f st (as ++ bs) = some st' ↔
    ∃ st₁, after f st as = some st₁ ∧ after f st₁ bs = some st' := by
  rw [after_append, Option.bind_eq_some_iff]

@[simp] theorem after_singleton : after f st [c] = step f st c := by
  show (step f st c).bind some = _
  exact Option.bind_fun_some _

theorem after_snoc : after f st (as ++ [c]) = some st' ↔
    ∃ st₁, after f st as = some st₁ ∧ step f st₁ c = some st' := by
  rw [after_append_eq_some]
  simp only [after_singleton]

theorem step_closing (h : f c = .closing k) :
    step f st c = some st' ↔ st = k :: st' := by
  unfold step
  rw [h]
  cases st with
  | nil => simp
  | cons j st =>
      by_cases hj : j = k
      · simp [hj]
      · simp [hj]

/-- A sequence that nests from `st` nests on top of more open brackets. -/
theorem step_frame (h : step f st c = some st') (base : List κ) :
    step f (st ++ base) c = some (st' ++ base) := by
  cases hc : f c with
  | opening k =>
      unfold step at h ⊢
      rw [hc] at h ⊢
      cases h
      rfl
  | closing k =>
      rw [step_closing hc] at h ⊢
      rw [h]
      rfl
  | plain =>
      unfold step at h ⊢
      rw [hc] at h ⊢
      cases h
      rfl

theorem after_frame (h : after f st as = some st') (base : List κ) :
    after f (st ++ base) as = some (st' ++ base) := by
  induction as using List.reverseRecOn generalizing st' with
  | nil =>
      cases h
      rfl
  | append_singleton as c ih =>
      obtain ⟨st₁, h1, h2⟩ := after_snoc.mp h
      exact after_snoc.mpr ⟨_, ih h1, step_frame h2 base⟩

/-- What is open was opened. -/
theorem exists_opening (h : after f [] as = some st) (hk : k ∈ st) : ∃ c ∈ as, f c = .opening k := by
  induction as using List.reverseRecOn generalizing st with
  | nil =>
      cases h
      cases hk
  | append_singleton as c ih =>
      obtain ⟨st₁, h1, h2⟩ := after_snoc.mp h
      have hold : k ∈ st₁ → ∃ c' ∈ as ++ [c], f c' = .opening k := by
        intro hmem
        obtain ⟨c', hc', he⟩ := ih h1 hmem
        exact ⟨c', List.mem_append_left _ hc', he⟩
      cases hc : f c with
      | opening j =>
          unfold step at h2
          rw [hc] at h2
          cases h2
          rcases List.mem_cons.mp hk with rfl | hk
          · exact ⟨c, List.mem_append_right _ (List.mem_singleton_self c), hc⟩
          · exact hold hk
      | closing j =>
          rw [step_closing hc] at h2
          exact hold (h2 ▸ List.mem_cons_of_mem _ hk)
      | plain =>
          unfold step at h2
          rw [hc] at h2
          cases h2
          exact hold hk

/-- **Where the outermost open bracket was opened**: nothing was open before, and what follows
    nests by itself. -/
theorem outermost (h : after f [] as = some (st ++ [k])) : ∃ as₀ c bs, as = as₀ ++ c :: bs ∧
    f c = .opening k ∧ after f [] as₀ = some [] ∧ after f [] bs = some st := by
  induction as using List.reverseRecOn generalizing st with
  | nil =>
      rw [after_nil, Option.some.injEq] at h
      simp at h
  | append_singleton as c ih =>
      obtain ⟨st₁, h1, h2⟩ := after_snoc.mp h
      -- the bracket was open before the last element, or the last element opens it
      have hbefore : ∀ st₂, st₁ = st₂ ++ [k] → step f st₂ c = some st →
          ∃ as₀ c' bs, as ++ [c] = as₀ ++ c' :: bs ∧ f c' = .opening k ∧
            after f [] as₀ = some [] ∧ after f [] bs = some st := by
        intro st₂ hst hstep
        rw [hst] at h1
        obtain ⟨as₀, c', bs, rfl, hc', h0, hbs⟩ := ih h1
        exact ⟨as₀, c', bs ++ [c], by simp, hc', h0, after_snoc.mpr ⟨st₂, hbs, hstep⟩⟩
      cases hc : f c with
      | opening j =>
          unfold step at h2
          rw [hc] at h2
          rcases List.eq_nil_or_concat st₁ with rfl | ⟨st₂, j', rfl⟩
          · obtain ⟨rfl, hj⟩ := List.append_inj' (Option.some.inj h2 : [] ++ [j] = st ++ [k]) rfl
            cases hj
            exact ⟨as, c, [], rfl, hc, h1, rfl⟩
          · rw [List.concat_eq_append] at h2
            have he : j :: st₂ ++ [j'] = st ++ [k] := Option.some.inj h2
            obtain ⟨rfl, hj⟩ := List.append_inj' he rfl
            cases hj
            refine hbefore st₂ (List.concat_eq_append) ?_
            unfold step
            rw [hc]
      | closing j =>
          rw [step_closing hc] at h2
          exact hbefore (j :: st) h2 ((step_closing hc).mpr rfl)
      | plain =>
          unfold step at h2
          rw [hc] at h2
          refine hbefore st (Option.some.inj h2) ?_
          unfold step
          rw [hc]

end Nesting

/-
  File:      Fsracer/Lib/LinkResolution.lean
  Subject:   RESOLVING LINKS in a name space: names are followed from the root one by one, a link
             is replaced by its target, and the names of the target are followed in turn.

  A `Space` says which names are entries, which stay and which go up, and where the links are.
  `Resolves` is the big-step relation; it has no derivation where links run in a cycle. The
  library names no program:

  * `Resolves.unique` -- there is one result, and it is plain (`Resolves.plain`);
  * `resolves_append` -- names are followed one after the other;
  * `Plain.resolves`, `Direct.resolves_link` -- what plain names and a link behind them lead to.
-/
import Mathlib

namespace LinkResolution

/-- What a link points to: names from the root, or names from the directory of the link. -/
inductive Target (κ : Type) where
  | fromRoot (ns : List κ)
  | fromHere (ns : List κ)
  deriving DecidableEq

/-- What a name stands for: the directory itself, the one above it, or an entry of it. -/
inductive Role where
  | here
  | up
  | entry
  deriving DecidableEq

/-- A name space with links. -/
structure Space (κ : Type) where
  role : κ → Role
  link : List κ → Option (Target κ)

variable {κ : Type}

/-- **From the directory `ds` the names lead to `rs`.** -/
inductive Resolves (S : Space κ) : List κ → List κ → List κ → Prop where
  | done (ds : List κ) : Resolves S ds [] ds
  | here {ds : List κ} {n : κ} {ns rs : List κ} (hn : S.role n = .here)
      (h : Resolves S ds ns rs) : Resolves S ds (n :: ns) rs
  | up {ds : List κ} {n : κ} {ns rs : List κ} (hn : S.role n = .up)
      (h : Resolves S ds.dropLast ns rs) : Resolves S ds (n :: ns) rs
  | entry {ds : List κ} {n : κ} {ns rs : List κ} (hn : S.role n = .entry)
      (hl : S.link (ds ++ [n]) = none) (h : Resolves S (ds ++ [n]) ns rs) :
      Resolves S ds (n :: ns) rs
  | fromRoot {ds : List κ} {n : κ} {ms ns rs : List κ} (hn : S.role n = .entry)
      (hl : S.link (ds ++ [n]) = some (.fromRoot ms)) (h : Resolves S [] (ms ++ ns) rs) :
      Resolves S ds (n :: ns) rs
  | fromHere {ds : List κ} {n : κ} {ms ns rs : List κ} (hn : S.role n = .entry)
      (hl : S.link (ds ++ [n]) = some (.fromHere ms)) (h : Resolves S ds (ms ++ ns) rs) :
      Resolves S ds (n :: ns) rs

/-- Names in which there is nothing to resolve: entries only, and no links. -/
def Plain (S : Space κ) (ns : List κ) : Prop :=
  ∀ xs n ys, ns = xs ++ n :: ys → S.role n = .entry ∧ S.link (xs ++ [n]) = none

variable {S : Space κ} {ds ns ms rs rs' xs ys : List κ} {n : κ}

/-! ## 1. Plain names -/

theorem plain_nil : Plain S [] := by
  intro xs n ys h
  simp at h

theorem plain_snoc : Plain S (ns ++ [n]) ↔
    Plain S ns ∧ S.role n = .entry ∧ S.link (ns ++ [n]) = none := by
  constructor
  · intro h
    refine ⟨fun xs m ys he => h xs m (ys ++ [n]) (by rw [he]; simp), h ns n [] rfl⟩
  · intro h xs m ys he
    obtain ⟨hns, hn⟩ := h
    rcases List.eq_nil_or_concat ys with rfl | ⟨zs, z, rfl⟩
    · obtain ⟨rfl, hm⟩ := List.append_inj' he rfl
      cases hm
      exact hn
    · rw [List.concat_eq_append, ← List.cons_append, ← List.append_assoc] at he
      exact hns xs m zs (List.append_inj' he rfl).1

theorem Plain.dropLast (h : Plain S ns) : Plain S ns.dropLast := by
  rcases List.eq_nil_or_concat ns with rfl | ⟨ms, m, rfl⟩
  · exact h
  · rw [List.concat_eq_append] at h ⊢
    rw [List.dropLast_concat]
    exact (plain_snoc.mp h).1

/-- **Names with nothing to resolve before the last one.** -/
def Direct (S : Space κ) (ns : List κ) : Prop :=
  ∀ os n, ns = os ++ [n] → Plain S os ∧ S.role n = .entry

theorem Plain.direct (h : Plain S ns) : Direct S ns := by
  intro os n he
  rw [he] at h
  obtain ⟨ho, hn, -⟩ := plain_snoc.mp h
  exact ⟨ho, hn⟩

theorem Direct.plain (h : Direct S ns) (hl : S.link ns = none) : Plain S ns := by
  rcases List.eq_nil_or_concat ns with rfl | ⟨os, n, rfl⟩
  · exact plain_nil
  · rw [List.concat_eq_append] at h hl ⊢
    obtain ⟨ho, hn⟩ := h os n rfl
    exact plain_snoc.mpr ⟨ho, hn, hl⟩

/-! ## 2. Results -/

/-- **There is one result.** -/
theorem Resolves.unique (h : Resolves S ds ns rs) (h' : Resolves S ds ns rs') : rs = rs' := by
  induction h with
  | done ds =>
      cases h'
      rfl
  | here hn _ ih =>
      cases h' with
      | here _ h' => exact ih h'
      | up hn' _ | entry hn' _ _ | fromRoot hn' _ _ | fromHere hn' _ _ => cases hn.symm.trans hn'
  | up hn _ ih =>
      cases h' with
      | up _ h' => exact ih h'
      | here hn' _ | entry hn' _ _ | fromRoot hn' _ _ | fromHere hn' _ _ => cases hn.symm.trans hn'
  | entry hn hl _ ih =>
      cases h' with
      | here hn' _ | up hn' _ => cases hn.symm.trans hn'
      | entry _ _ h' => exact ih h'
      | fromRoot _ hl' _ | fromHere _ hl' _ => cases hl.symm.trans hl'
  | fromRoot hn hl _ ih =>
      cases h' with
      | here hn' _ | up hn' _ => cases hn.symm.trans hn'
      | fromRoot _ hl' h' =>
          cases hl.symm.trans hl'
          exact ih h'
      | entry _ hl' _ | fromHere _ hl' _ => cases hl.symm.trans hl'
  | fromHere hn hl _ ih =>
      cases h' with
      | here hn' _ | up hn' _ => cases hn.symm.trans hn'
      | fromHere _ hl' h' =>
          cases hl.symm.trans hl'
          exact ih h'
      | entry _ hl' _ | fromRoot _ hl' _ => cases hl.symm.trans hl'

/-- **A result is plain.** -/
theorem Resolves.plain (h : Resolves S ds ns rs) (hd : Plain S ds) : Plain S rs := by
  induction h with
  | done ds => exact hd
  | here _ _ ih => exact ih hd
  | up _ _ ih => exact ih hd.dropLast
  | entry hn hl _ ih => exact ih (plain_snoc.mpr ⟨hd, hn, hl⟩)
  | fromRoot _ _ _ ih => exact ih plain_nil
  | fromHere _ _ _ ih => exact ih hd

/-- **Names are followed one after the other.** -/
theorem resolves_append : Resolves S ds (xs ++ ys) rs ↔
    ∃ ms, Resolves S ds xs ms ∧ Resolves S ms ys rs := by
  constructor
  · intro h
    generalize he : xs ++ ys = zs at h
    induction h generalizing xs with
    | done ds =>
        obtain ⟨rfl, rfl⟩ := List.append_eq_nil_iff.mp he
        exact ⟨ds, .done ds, .done ds⟩
    | here hn h ih =>
        rcases List.append_eq_cons_iff.mp he with ⟨rfl, rfl⟩ | ⟨zs, rfl, htail⟩
        · exact ⟨_, .done _, .here hn h⟩
        · obtain ⟨ms, h1, h2⟩ := ih htail.symm
          exact ⟨ms, .here hn h1, h2⟩
    | up hn h ih =>
        rcases List.append_eq_cons_iff.mp he with ⟨rfl, rfl⟩ | ⟨zs, rfl, htail⟩
        · exact ⟨_, .done _, .up hn h⟩
        · obtain ⟨ms, h1, h2⟩ := ih htail.symm
          exact ⟨ms, .up hn h1, h2⟩
    | entry hn hl h ih =>
        rcases List.append_eq_cons_iff.mp he with ⟨rfl, rfl⟩ | ⟨zs, rfl, htail⟩
        · exact ⟨_, .done _, .entry hn hl h⟩
        · obtain ⟨ms, h1, h2⟩ := ih htail.symm
          exact ⟨ms, .entry hn hl h1, h2⟩
    | fromRoot hn hl h ih =>
        rcases List.append_eq_cons_iff.mp he with ⟨rfl, rfl⟩ | ⟨zs, rfl, htail⟩
        · exact ⟨_, .done _, .fromRoot hn hl h⟩
        · obtain ⟨ms, h1, h2⟩ := ih (by rw [htail, List.append_assoc])
          exact ⟨ms, .fromRoot hn hl h1, h2⟩
    | fromHere hn hl h ih =>
        rcases List.append_eq_cons_iff.mp he with ⟨rfl, rfl⟩ | ⟨zs, rfl, htail⟩
        · exact ⟨_, .done _, .fromHere hn hl h⟩
        · obtain ⟨ms, h1, h2⟩ := ih (by rw [htail, List.append_assoc])
          exact ⟨ms, .fromHere hn hl h1, h2⟩
  · intro h
    obtain ⟨ms, h1, h2⟩ := h
    induction h1 with
    | done ds => exact h2
    | here hn _ ih => exact .here hn (ih h2)
    | up hn _ ih => exact .up hn (ih h2)
    | entry hn hl _ ih => exact .entry hn hl (ih h2)
    | fromRoot hn hl _ ih =>
        have htarget := ih h2
        rw [List.append_assoc] at htarget
        exact .fromRoot hn hl htarget
    | fromHere hn hl _ ih =>
        have htarget := ih h2
        rw [List.append_assoc] at htarget
        exact .fromHere hn hl htarget

theorem Plain.resolves (h : Plain S ns) : Resolves S [] ns ns := by
  induction ns using List.reverseRecOn with
  | nil => exact .done []
  | append_singleton ns n ih =>
      obtain ⟨hns, hn, hl⟩ := plain_snoc.mp h
      exact resolves_append.mpr ⟨ns, ih hns, .entry hn hl (.done _)⟩

/-- Plain names in front are passed. -/
theorem Plain.resolves_append_iff (h : Plain S xs) :
    Resolves S [] (xs ++ ys) rs ↔ Resolves S xs ys rs := by
  rw [resolves_append]
  refine ⟨fun hr => ?_, fun hr => ⟨xs, h.resolves, hr⟩⟩
  obtain ⟨ms, h1, h2⟩ := hr
  rw [h.resolves.unique h1]
  exact h2

/-- **A link behind plain names** leads to its target, if that is plain and starts at the root. -/
theorem Direct.resolves_link (h : Direct S ns) (hne : ns ≠ [])
    (hl : S.link ns = some (.fromRoot ms)) (hm : Plain S ms) : Resolves S [] ns ms := by
  rcases List.eq_nil_or_concat ns with rfl | ⟨os, n, rfl⟩
  · exact absurd rfl hne
  · rw [List.concat_eq_append] at h hl ⊢
    obtain ⟨ho, hn⟩ := h os n rfl
    refine ho.resolves_append_iff.mpr (.fromRoot hn hl ?_)
    rw [List.append_nil]
    exact hm.resolves

end LinkResolution

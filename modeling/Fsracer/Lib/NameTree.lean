/-
  File:      Fsracer/Lib/NameTree.lean
  Subject:   TREES OF NAMES: a partial function from a node and a name to a node, followed along
             lists of names.

  General facts about `f : ι → κ → Option ι`, the child of a node under a name. They name no
  program:

  * `walk` follows a list of names, `locate` says how far that goes;
  * `walk_mono`, `walk_congr` -- more children keep a walk, and a walk only looks at the entries
    it passes (`Passes`);
  * `Grows` -- new nodes are added, each of them below one entry; **`locate_eq_of_walk_eq`**: two
    lists that lead to one place afterwards led equally far before.
-/
import Mathlib

namespace NameTree

variable {ι κ : Type*}

/-! ## 1. Walks -/

/-- The node that a list of names leads to. -/
def walk (f : ι → κ → Option ι) : ι → List κ → Option ι
  | i, [] => some i
  | i, n :: ns =>
      match f i n with
      | some j => walk f j ns
      | none => none

/-- The last node on the way, and the names that are left there. -/
def locate (f : ι → κ → Option ι) : ι → List κ → ι × List κ
  | i, [] => (i, [])
  | i, n :: ns =>
      match f i n with
      | some j => locate f j ns
      | none => (i, n :: ns)

/-- The way along `ns` comes to the entry of `i` under the name `n`. -/
def Passes (f : ι → κ → Option ι) (r : ι) (ns : List κ) (i : ι) (n : κ) : Prop :=
  ∃ xs ys, ns = xs ++ n :: ys ∧ walk f r xs = some i

variable {f g : ι → κ → Option ι} {r i j : ι} {n : κ} {ns xs ys : List κ}

@[simp] theorem walk_nil : walk f r [] = some r := rfl

theorem walk_cons : walk f r (n :: ns) = (f r n).bind fun j => walk f j ns := by
  rw [walk]
  cases f r n <;> rfl

theorem locate_cons : locate f r (n :: ns) =
    match f r n with
    | some j => locate f j ns
    | none => (r, n :: ns) := by rw [locate]

theorem walk_append : walk f r (xs ++ ys) = (walk f r xs).bind fun j => walk f j ys := by
  induction xs generalizing r with
  | nil => rfl
  | cons n xs ih =>
      rw [List.cons_append, walk_cons, walk_cons]
      cases f r n with
      | none => rfl
      | some j => exact ih

theorem walk_snoc : walk f r (ns ++ [n]) = (walk f r ns).bind fun i => f i n := by
  rw [walk_append]
  refine congrArg _ (funext fun i => ?_)
  rw [walk_cons]
  cases f i n <;> rfl

theorem walk_snoc_eq_some : walk f r (ns ++ [n]) = some j ↔
    ∃ i, walk f r ns = some i ∧ f i n = some j := by
  rw [walk_snoc]
  exact Option.bind_eq_some_iff

theorem walk_of_prefix (h : walk f r ns = some j) (hp : xs <+: ns) : ∃ i, walk f r xs = some i := by
  obtain ⟨ys, rfl⟩ := hp
  rw [walk_append] at h
  obtain ⟨i, hi, _⟩ := Option.bind_eq_some_iff.mp h
  exact ⟨i, hi⟩

theorem walk_mono (h : ∀ i n j, f i n = some j → g i n = some j) (hw : walk f r ns = some j) :
    walk g r ns = some j := by
  induction ns using List.reverseRecOn generalizing j with
  | nil => exact hw
  | append_singleton ns n ih =>
      obtain ⟨i, hi, hj⟩ := walk_snoc_eq_some.mp hw
      exact walk_snoc_eq_some.mpr ⟨i, ih hi, h _ _ _ hj⟩

/-- A walk is kept if the entries on its way are. -/
theorem walk_mono_of_passes (h : ∀ i n j, Passes f r ns i n → f i n = some j → g i n = some j)
    (hw : walk f r ns = some j) : walk g r ns = some j := by
  induction ns using List.reverseRecOn generalizing j with
  | nil => exact hw
  | append_singleton ns n ih =>
      obtain ⟨i, hi, hj⟩ := walk_snoc_eq_some.mp hw
      have hbelow : walk g r ns = some i := by
        refine ih (fun i m j hp => h i m j ?_) hi
        obtain ⟨us, vs, he, hu⟩ := hp
        exact ⟨us, vs ++ [n], by simp [he], hu⟩
      exact walk_snoc_eq_some.mpr ⟨i, hbelow, h _ _ _ ⟨ns, [], rfl, hi⟩ hj⟩

/-- A walk from a set that is closed under children ends in it. -/
theorem walk_closed {P : ι → Prop} (h : ∀ i n j, f i n = some j → P j) (hr : P r)
    (hw : walk f r ns = some j) : P j := by
  rcases List.eq_nil_or_concat ns with rfl | ⟨ns, n, rfl⟩
  · cases hw
    exact hr
  · rw [List.concat_eq_append] at hw
    obtain ⟨i, _, hj⟩ := walk_snoc_eq_some.mp hw
    exact h _ _ _ hj

/-- A walk to a node that only old entries lead to, in a tree whose new entries lead elsewhere. -/
theorem walk_of_closed {P : ι → Prop} (h : ∀ i n j, g i n = some j → P j → P i ∧ f i n = some j)
    (hw : walk g r ns = some j) (hj : P j) : walk f r ns = some j := by
  induction ns using List.reverseRecOn generalizing j with
  | nil => exact hw
  | append_singleton ns n ih =>
      obtain ⟨i, hi, hij⟩ := walk_snoc_eq_some.mp hw
      obtain ⟨hPi, hf⟩ := h _ _ _ hij hj
      exact walk_snoc_eq_some.mpr ⟨i, ih hi hPi, hf⟩

theorem Passes.append_right (h : Passes f r xs i n) (ys : List κ) : Passes f r (xs ++ ys) i n := by
  obtain ⟨us, vs, rfl, hw⟩ := h
  exact ⟨us, vs ++ ys, by simp, hw⟩

/-- A walk depends on the entries it passes only. -/
theorem walk_congr (h : ∀ i n, Passes f r ns i n → g i n = f i n) :
    walk g r ns = walk f r ns := by
  induction ns using List.reverseRecOn with
  | nil => rfl
  | append_singleton ns n ih =>
      rw [walk_snoc, walk_snoc, ih fun i m hp => h i m (hp.append_right [n])]
      cases hw : walk f r ns with
      | none => rfl
      | some i => exact h i n ⟨ns, [], rfl, hw⟩

/-- A change of one entry is not seen by a walk that does not pass it. -/
theorem walk_of_not_passes {a : ι} {m : κ} (hg : ∀ i n, (i, n) ≠ (a, m) → g i n = f i n)
    (h : ¬ Passes f r ns a m) : walk g r ns = walk f r ns := by
  refine walk_congr fun i n hp => hg i n fun he => h ?_
  cases he
  exact hp

/-- A walk that is led into a leaf on its way ends nowhere. -/
theorem walk_into_leaf {a : ι} {k : κ} (hg : ∀ i n, (i, n) ≠ (a, k) → g i n = f i n)
    (ha : g a k = some j) (hleaf : ∀ n, g j n = none) (hw : walk f r xs = some a) (hy : ys ≠ []) :
    walk g r (xs ++ k :: ys) = none := by
  induction hlen : xs.length using Nat.strong_induction_on generalizing xs ys with
  | _ len ih =>
      by_cases hp : Passes f r xs a k
      · obtain ⟨us, vs, rfl, hu⟩ := hp
        rw [List.append_assoc, List.cons_append]
        refine ih us.length ?_ hu (by simp) rfl
        rw [← hlen, List.length_append, List.length_cons]
        omega
      · obtain ⟨y, ys, rfl⟩ := List.exists_cons_of_ne_nil hy
        rw [walk_append, walk_of_not_passes hg hp, hw, Option.bind_some, walk_cons, ha,
          Option.bind_some, walk_cons, hleaf]
        rfl

/-! ## 2. How far a walk goes -/

theorem locate_eq_nil_iff : locate f r ns = (i, []) ↔ walk f r ns = some i := by
  induction ns generalizing r with
  | nil => simp [locate]
  | cons n ns ih =>
      rw [locate_cons, walk_cons]
      cases f r n with
      | none => simp
      | some j => exact ih

theorem locate_of_walk (h : walk f r ns = some i) : locate f r ns = (i, []) :=
  locate_eq_nil_iff.mpr h

theorem locate_append : locate f r (xs ++ ys) =
    match locate f r xs with
    | (i, []) => locate f i ys
    | (i, n :: ns) => (i, n :: ns ++ ys) := by
  induction xs generalizing r with
  | nil => rfl
  | cons n xs ih =>
      rw [List.cons_append, locate_cons, locate_cons]
      cases f r n with
      | none => rfl
      | some j => exact ih

theorem locate_of_missing (hw : walk f r xs = some i) (hn : f i n = none) :
    locate f r (xs ++ n :: ys) = (i, n :: ys) := by
  rw [locate_append, locate_of_walk hw]
  dsimp only
  rw [locate_cons, hn]

/-- Where a way ends early, the next name is missing. -/
theorem locate_cons_spec {ms : List κ} (h : locate f r ns = (i, n :: ms)) :
    ∃ us, ns = us ++ n :: ms ∧ walk f r us = some i ∧ f i n = none := by
  induction ns generalizing r with
  | nil => cases h
  | cons m ns ih =>
      rw [locate_cons] at h
      cases hm : f r m with
      | none =>
          rw [hm] at h
          cases h
          exact ⟨[], rfl, rfl, hm⟩
      | some j =>
          rw [hm] at h
          obtain ⟨us, hus, hw, hn⟩ := ih h
          refine ⟨m :: us, congrArg _ hus, ?_, hn⟩
          rw [walk_cons, hm]
          exact hw

/-- How far a list of names leads. -/
theorem locate_spec (f : ι → κ → Option ι) (r : ι) (ns : List κ) :
    ∃ us, ns = us ++ (locate f r ns).2 ∧ walk f r us = some (locate f r ns).1 := by
  induction ns generalizing r with
  | nil => exact ⟨[], rfl, rfl⟩
  | cons n ns ih =>
      rw [locate_cons]
      cases hn : f r n with
      | none => exact ⟨[], rfl, rfl⟩
      | some j =>
          obtain ⟨us, hus, hw⟩ := ih j
          refine ⟨n :: us, congrArg _ hus, ?_⟩
          rw [walk_cons, hn]
          exact hw

/-- Lists that lead equally far lead to one node in a larger tree. -/
theorem walk_eq_of_locate_eq (h : ∀ i n j, f i n = some j → g i n = some j)
    (hl : locate f r xs = locate f r ys) : walk g r xs = walk g r ys := by
  obtain ⟨us, hus, hwu⟩ := locate_spec f r xs
  obtain ⟨vs, hvs, hwv⟩ := locate_spec f r ys
  rw [← hl] at hvs hwv
  rw [hus, hvs, walk_append, walk_append, walk_mono h hwu, walk_mono h hwv]

/-! ## 3. New nodes -/

/-- `g` has the entries of `f` and new ones, each leading to a fresh node of its own. The fresh
    nodes are unknown to `f`. -/
structure Grows (fresh : ι → Prop) (r : ι) (f g : ι → κ → Option ι) : Prop where
  keeps : ∀ i n j, f i n = some j → g i n = some j
  added : ∀ i n j, g i n = some j → f i n = some j ∨ fresh j
  root : ¬ fresh r
  old : ∀ i n j, f i n = some j → ¬ fresh i ∧ ¬ fresh j
  single : ∀ i i' n n' j, g i n = some j → g i' n' = some j → fresh j → i = i' ∧ n = n'

section Grows

variable {fresh fresh' : ι → Prop} {h : ι → κ → Option ι}

theorem Grows.refl (hr : ¬ fresh r) (hf : ∀ i n j, f i n = some j → ¬ fresh i ∧ ¬ fresh j) :
    Grows fresh r f f where
  keeps _ _ _ h := h
  added _ _ _ h := .inl h
  root := hr
  old := hf
  single _ _ _ _ _ h _ hj := absurd hj (hf _ _ _ h).2

theorem Grows.trans (hfg : Grows fresh r f g) (hgh : Grows fresh' r g h)
    (hsub : ∀ i, fresh' i → fresh i) : Grows fresh r f h where
  keeps i n j hj := hgh.keeps _ _ _ (hfg.keeps _ _ _ hj)
  added i n j hj := (hgh.added _ _ _ hj).elim (hfg.added i n j) fun hf => .inr (hsub _ hf)
  root := hfg.root
  old := hfg.old
  single i i' n n' j h1 h2 hj := by
    rcases hgh.added _ _ _ h1 with h1' | h1'
    · rcases hgh.added _ _ _ h2 with h2' | h2'
      · exact hfg.single _ _ _ _ _ h1' h2' hj
      · exact absurd h2' (hgh.old _ _ _ h1').2
    · exact hgh.single _ _ _ _ _ h1 h2 h1'

/-- A walk to a node that is not fresh was there before. -/
theorem Grows.walk_old (hg : Grows fresh r f g) (hw : walk g r ns = some j) (hj : ¬ fresh j) :
    walk f r ns = some j :=
  walk_of_closed (P := fun j => ¬ fresh j) (fun i n j hij hj =>
    have hf := (hg.added i n j hij).resolve_right hj
    ⟨(hg.old i n j hf).1, hf⟩) hw hj

/-- Only one list leads to a fresh node, if only one leads to each old node with a fresh child. -/
theorem unique_of_fresh {P : κ → Prop} (hg : Grows fresh r f g)
    (huniq : ∀ i n j, g i n = some j → fresh j → ¬ fresh i → ∀ us vs, (∀ m ∈ us, P m) →
      (∀ m ∈ vs, P m) → walk f r us = some i → walk f r vs = some i → us = vs)
    (hxs : ∀ m ∈ xs, P m) (hys : ∀ m ∈ ys, P m) (hx : walk g r xs = some j)
    (hy : walk g r ys = some j) (hj : fresh j) : xs = ys := by
  induction xs using List.reverseRecOn generalizing ys j with
  | nil =>
      cases hx
      exact absurd hj hg.root
  | append_singleton xs n ih =>
      obtain ⟨i, hi, hij⟩ := walk_snoc_eq_some.mp hx
      rcases List.eq_nil_or_concat ys with rfl | ⟨ys, m, rfl⟩
      · cases hy
        exact absurd hj hg.root
      · rw [List.concat_eq_append] at hy hys ⊢
        obtain ⟨i', hi', hij'⟩ := walk_snoc_eq_some.mp hy
        obtain ⟨rfl, rfl⟩ := hg.single _ _ _ _ _ hij hij' hj
        have hxs' : ∀ m ∈ xs, P m := fun m hm => hxs m (by simp [hm])
        have hys' : ∀ m ∈ ys, P m := fun m hm => hys m (by simp [hm])
        by_cases hfi : fresh i
        · rw [ih hxs' hys' hi hi' hfi]
        · rw [huniq i n j hij hj hfi xs ys hxs' hys' (hg.walk_old hi hfi) (hg.walk_old hi' hfi)]

/-- **Two lists that lead to one node led equally far before.** -/
theorem locate_eq_of_walk_eq (hg : Grows fresh r f g) (hx : walk g r xs = some j)
    (hy : walk g r ys = some j) : locate f r xs = locate f r ys := by
  induction xs using List.reverseRecOn generalizing ys j with
  | nil =>
      cases hx
      rw [locate_of_walk (hg.walk_old hy hg.root)]
      rfl
  | append_singleton xs n ih =>
      by_cases hj : fresh j
      · obtain ⟨i, hi, hij⟩ := walk_snoc_eq_some.mp hx
        rcases List.eq_nil_or_concat ys with rfl | ⟨ys, m, rfl⟩
        · cases hy
          exact absurd hj hg.root
        · rw [List.concat_eq_append] at hy ⊢
          obtain ⟨i', hi', hij'⟩ := walk_snoc_eq_some.mp hy
          obtain ⟨rfl, rfl⟩ := hg.single _ _ _ _ _ hij hij' hj
          rw [locate_append, locate_append, ih hi hi']
      · rw [locate_of_walk (hg.walk_old hx hj), locate_of_walk (hg.walk_old hy hj)]

end Grows

end NameTree

/-
  File:      Fsracer/Lib/Ordered.lean
  Subject:   PAIRS AS KEYS of ordered sets and maps: the lexicographic comparison, membership
             after an insertion or a removal when comparison decides equality, and what a loop
             over a list adds. An ordered set whose elements are compared through a projection
             lists the same projections as a set of the projections themselves.
-/
import Mathlib

namespace Ordered

variable {α β : Type} {cmp : α → α → Ordering}

/-- Pairs are compared by the first component, then by the second. -/
abbrev pairCmp (α β : Type) [Ord α] [Ord β] : α × β → α × β → Ordering :=
  compareLex (compareOn Prod.fst) (compareOn Prod.snd)

instance [Ord α] [Ord β] [Std.LawfulEqOrd α] [Std.LawfulEqOrd β] :
    Std.LawfulEqCmp (pairCmp α β) where
  compare_self {p} := by simp [pairCmp, compareLex, compareOn, Std.ReflCmp.compare_self]
  eq_of_compare {p q} h := by
    obtain ⟨h1, h2⟩ := Ordering.then_eq_eq.mp h
    exact Prod.ext (Std.LawfulEqCmp.eq_of_compare h1) (Std.LawfulEqCmp.eq_of_compare h2)

section Set

variable [Std.TransCmp cmp] [Std.LawfulEqCmp cmp]

theorem mem_insert_iff {s : Std.TreeSet α cmp} {x y : α} : y ∈ s.insert x ↔ x = y ∨ y ∈ s := by
  rw [Std.TreeSet.mem_insert, Std.LawfulEqCmp.compare_eq_iff_eq]

theorem mem_erase_iff {s : Std.TreeSet α cmp} {x y : α} : y ∈ s.erase x ↔ x ≠ y ∧ y ∈ s := by
  rw [Std.TreeSet.mem_erase, ne_eq, Std.LawfulEqCmp.compare_eq_iff_eq]

end Set

section Projection

variable {cmpB : β → β → Ordering} [Std.TransCmp cmp] [Std.TransCmp cmpB]

/-- The elements in the list of a set are those that the set gives for themselves. -/
theorem mem_toList_iff {s : Std.TreeSet α cmp} {x : α} : x ∈ s.toList ↔ s.get? x = some x := by
  rw [Std.TreeSet.toList, ← Std.TreeMap.map_fst_toList_eq_keys, List.mem_map]
  constructor
  · intro h
    obtain ⟨y, hy, rfl⟩ := h
    exact (Std.TreeMap.mem_toList_iff_getKey?_eq_some_and_getElem?_eq_some.mp hy).1
  · intro h
    refine ⟨(x, ()), Std.TreeMap.mem_toList_iff_getKey?_eq_some_and_getElem?_eq_some.mpr
      ⟨h, ?_⟩, rfl⟩
    have hmem : x ∈ s.inner := Std.TreeMap.mem_iff_isSome_getKey?.mpr (Option.isSome_of_eq_some h)
    exact Std.TreeMap.getElem?_eq_some_getElem hmem

theorem mem_toList_of_erase {s : Std.TreeSet α cmp} {x y : α} (h : y ∈ (s.erase x).toList) :
    y ∈ s.toList := by
  rw [mem_toList_iff, Std.TreeSet.get?_erase] at h
  split at h
  · cases h
  · exact mem_toList_iff.mpr h

/-- The elements of an ordered set after an insertion: an equivalent element keeps its place. -/
theorem mem_toList_insert {s : Std.TreeSet α cmp} {x y : α} (h : y ∈ (s.insert x).toList) :
    y = x ∨ y ∈ s.toList := by
  let : BEq α := ⟨fun a b => cmp a b == .eq⟩
  have : Std.LawfulBEqCmp cmp := ⟨(beq_iff_eq ).symm⟩
  have hmem := Std.TreeSet.toList_insert_perm.mem_iff.mp h
  split at hmem
  · exact .inr hmem
  · exact List.mem_cons.mp hmem

/-- A member of an ordered set has an equivalent element in the list of the set. -/
theorem exists_mem_toList {s : Std.TreeSet α cmp} {x : α} (h : x ∈ s) :
    ∃ y ∈ s.toList, cmp y x = .eq := by
  let : BEq α := ⟨fun a b => cmp b a == .eq⟩
  have : Std.LawfulBEqCmp cmp := ⟨Std.OrientedCmp.eq_comm.trans beq_iff_eq.symm⟩
  have hc : s.toList.contains x = true := by
    rw [Std.TreeSet.contains_toList]
    exact h
  obtain ⟨y, hy, hxy⟩ := List.contains_iff_exists_mem_beq.mp hc
  exact ⟨y, hy, beq_iff_eq.mp hxy⟩

/-- Lists in the strict order of a comparison are equal if they have the same elements. -/
theorem eq_of_mem_iff {xs ys : List α} (hx : xs.Pairwise (cmp · · = .lt))
    (hy : ys.Pairwise (cmp · · = .lt)) (h : ∀ x, x ∈ xs ↔ x ∈ ys) : xs = ys := by
  have hnodup : ∀ zs : List α, zs.Pairwise (cmp · · = .lt) → zs.Nodup := by
    intro zs hz
    refine hz.imp ?_
    intro a b hab e
    have hne : cmp a b ≠ .eq := by
      rw [hab]
      decide
    exact Std.ReflCmp.ne_of_cmp_ne_eq hne e
  have hperm := (List.perm_ext_iff_of_nodup (hnodup xs hx) (hnodup ys hy)).mpr h
  refine List.Perm.eq_of_pairwise ?_ hx hy hperm
  intro a b _ _ hab hba
  rw [Std.OrientedCmp.gt_of_lt hba] at hab
  cases hab

/-- **A set compared through a projection**, read through it, is the set of the projections. -/
theorem map_toList {s : Std.TreeSet α cmp} {t : Std.TreeSet β cmpB} [Std.LawfulEqCmp cmpB]
    {f : α → β} (hf : ∀ a b, cmp a b = cmpB (f a) (f b)) (hs : ∀ a ∈ s, f a ∈ t)
    (ht : ∀ b ∈ t, ∃ a ∈ s, f a = b) : s.toList.map f = t.toList := by
  have hx : (s.toList.map f).Pairwise (cmpB · · = .lt) := by
    rw [List.pairwise_map]
    refine s.ordered_toList.imp ?_
    intro a b hab
    rwa [← hf]
  refine eq_of_mem_iff hx t.ordered_toList fun b => ?_
  rw [List.mem_map, Std.TreeSet.mem_toList]
  constructor
  · intro h
    obtain ⟨a, ha, he⟩ := h
    exact he ▸ hs a (Std.TreeSet.mem_of_mem_toList ha)
  · intro h
    obtain ⟨a, ha, he⟩ := ht b h
    obtain ⟨a', ha', heq⟩ := exists_mem_toList ha
    rw [hf] at heq
    exact ⟨a', ha', (Std.LawfulEqCmp.eq_of_compare heq).trans he⟩

end Projection

/-- What a loop makes true: it was true before, or an element of the list makes it true. -/
theorem foldl_iff {σ ι : Type*} {f : σ → ι → σ} {Q : σ → Prop} {P : ι → Prop}
    (hf : ∀ s i, Q (f s i) ↔ Q s ∨ P i) (is : List ι) (s : σ) :
    Q (is.foldl f s) ↔ Q s ∨ ∃ i ∈ is, P i := by
  induction is generalizing s with
  | nil => simp
  | cons i is ih => rw [List.foldl_cons, ih, hf, or_assoc, List.exists_mem_cons_iff]

end Ordered

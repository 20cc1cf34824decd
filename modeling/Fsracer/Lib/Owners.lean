/-
  File:      Fsracer/Lib/Owners.lean
  Subject:   LISTS WHOSE ELEMENTS BELONG TO OWNERS.

  `owners` names the owner of every element of a list; `part k` are the elements of one owner, in
  their order. The library names no program:

  * `part_snoc`, `length_part` -- a new element, and how many an owner has;
  * `part_modify_self`, `part_modify_other` -- a change of one element is a change in the part of
    its owner, and in no other part;
  * **`perm_of_parts`** -- lists with the same parts are permutations of each other.
-/
import Mathlib

namespace Owners

variable {κ α : Type} [DecidableEq κ] {owners : List κ} {xs : List α} {k j : κ} {i : Nat}

/-- The elements of one owner. -/
def part (k : κ) (owners : List κ) (xs : List α) : List α :=
  ((owners.zip xs).filter fun x => x.1 = k).map Prod.snd

@[simp] theorem part_nil : part k ([] : List κ) xs = [] := rfl

theorem part_cons (x : α) : part k (j :: owners) (x :: xs) =
    if j = k then x :: part k owners xs else part k owners xs := by
  unfold part
  rw [List.zip_cons_cons]
  by_cases h : j = k
  · rw [List.filter_cons_of_pos (by simp [h]), List.map_cons, if_pos h]
  · rw [List.filter_cons_of_neg (by simp [h]), if_neg h]

theorem part_snoc (h : owners.length = xs.length) (x : α) : part k (owners ++ [j]) (xs ++ [x]) =
    if j = k then part k owners xs ++ [x] else part k owners xs := by
  unfold part
  rw [List.zip_append h, List.filter_append, List.map_append]
  by_cases hj : j = k
  · rw [if_pos hj]
    simp [hj]
  · rw [if_neg hj]
    simp [hj]

theorem length_part (h : owners.length = xs.length) :
    (part k owners xs).length = owners.count k := by
  induction owners generalizing xs with
  | nil => rfl
  | cons j owners ih =>
      cases xs with
      | nil => cases h
      | cons x xs =>
          rw [part_cons, List.count_cons]
          have ih := ih (Nat.succ.inj h)
          by_cases hj : j = k
          · rw [if_pos hj, List.length_cons, ih, if_pos (by simp [hj])]
          · rw [if_neg hj, ih, if_neg (by simp [hj])]
            rfl

/-- A change of an element of another owner. -/
theorem part_modify_other (hi : owners[i]? = some j) (hj : j ≠ k) (f : α → α) :
    part k owners (xs.modify i f) = part k owners xs := by
  induction owners generalizing xs i with
  | nil => rfl
  | cons j' owners ih =>
      cases xs with
      | nil => simp
      | cons x xs =>
          cases i with
          | zero =>
              have hj' : j' ≠ k := by
                have h : j' = j := by simpa using hi
                rw [h]
                exact hj
              rw [List.modify_zero_cons, part_cons, part_cons, if_neg hj', if_neg hj']
          | succ i =>
              rw [List.modify_succ_cons, part_cons, part_cons, ih (by simpa using hi)]

/-- A change of an element of the owner itself. -/
theorem part_modify_self (hi : owners[i]? = some k) (h : owners.length = xs.length) (f : α → α) :
    part k owners (xs.modify i f) = (part k owners xs).modify ((owners.take i).count k) f := by
  induction owners generalizing xs i with
  | nil => cases hi
  | cons j owners ih =>
      cases xs with
      | nil => cases h
      | cons x xs =>
          cases i with
          | zero =>
              have hj : j = k := by simpa using hi
              rw [List.modify_zero_cons, part_cons, part_cons, if_pos hj, if_pos hj]
              rfl
          | succ i =>
              have ih := ih (by simpa using hi) (Nat.succ.inj h)
              rw [List.modify_succ_cons, part_cons, part_cons, ih, List.take_succ_cons,
                List.count_cons]
              by_cases hj : j = k
              · rw [if_pos hj, if_pos hj, if_pos (by simp [hj]), List.modify_succ_cons]
              · rw [if_neg hj, if_neg hj, if_neg (by simp [hj])]
                rfl

theorem count_zip [DecidableEq α] (x : α) (owners : List κ) (xs : List α) :
    (owners.zip xs).count (k, x) = (part k owners xs).count x := by
  unfold part
  induction owners.zip xs with
  | nil => rfl
  | cons y ys ih =>
      obtain ⟨j, z⟩ := y
      rw [List.count_cons, ih]
      by_cases hj : j = k
      · rw [List.filter_cons_of_pos (by simp [hj]), List.map_cons, List.count_cons]
        by_cases hz : z = x
        · simp [hj, hz]
        · simp [hj, hz]
      · rw [List.filter_cons_of_neg (by simp [hj]), if_neg (by simp [hj])]
        rfl

/-- **Lists with the same parts.** -/
theorem perm_of_parts [DecidableEq α] {owners' : List κ} {ys : List α}
    (h : owners.length = xs.length) (h' : owners'.length = ys.length)
    (hp : ∀ k, part k owners xs = part k owners' ys) : xs.Perm ys := by
  have hz : (owners.zip xs).Perm (owners'.zip ys) := by
    refine List.perm_iff_count.mpr fun y => ?_
    rw [count_zip, count_zip, hp]
  have hs := hz.map Prod.snd
  rwa [List.map_snd_zip h.ge, List.map_snd_zip h'.ge] at hs

end Owners

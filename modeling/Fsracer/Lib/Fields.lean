/-
  File:      Fsracer/Lib/Fields.lean
  Subject:   LINES AND FIELDS: texts whose lines end in one mark, and lines whose last fields stand
             behind another.

  Reading undoes writing as long as a line has no line mark in it (`lines_unlines`) and a last
  field has no field mark in it (`cutLast_append`); what stands in front of the last mark may
  have marks.
-/
import Mathlib

namespace Fsracer

namespace Fields

variable {α : Type} (sep : α)

/-- Lines, each with the mark behind it. -/
def unlines (ls : List (List α)) : List α := ls.flatMap (· ++ [sep])

theorem unlines_eq_intercalate (ls : List (List α)) :
    unlines sep ls = [sep].intercalate (ls ++ [[]]) := by
  unfold unlines
  induction ls with
  | nil => rfl
  | cons l ls ih =>
      rw [List.flatMap_cons, ih]
      cases ls with
      | nil => simp [List.intercalate]
      | cons l' ls => simp [List.intercalate]

variable [DecidableEq α]

/-- The lines of a text; what follows the last mark is no line. -/
def lines (cs : List α) : List (List α) := (cs.splitOn sep).dropLast

/-- What stands in front of the last mark, and what stands behind it. -/
def cutLast (cs : List α) : List α × List α :=
  ((cs.reverse.dropWhile (· ≠ sep)).tail.reverse, (cs.reverse.takeWhile (· ≠ sep)).reverse)

theorem lines_unlines {ls : List (List α)} (h : ∀ l ∈ ls, sep ∉ l) :
    lines sep (unlines sep ls) = ls := by
  have hall : ∀ l ∈ ls ++ [[]], sep ∉ l := by
    intro l hl
    rcases List.mem_append.mp hl with hl | hl
    · exact h l hl
    · rw [List.mem_singleton.mp hl]
      exact List.not_mem_nil
  unfold lines
  rw [unlines_eq_intercalate, List.splitOn_intercalate sep hall (by simp), List.dropLast_concat]

theorem cutLast_append (xs : List α) {ys : List α} (h : sep ∉ ys) :
    cutLast sep (xs ++ sep :: ys) = (xs, ys) := by
  have hrev : (xs ++ sep :: ys).reverse = ys.reverse ++ sep :: xs.reverse := by simp
  have hys : ∀ y ∈ ys.reverse, (decide (y ≠ sep)) = true := by
    intro y hy
    have hne : y ≠ sep := fun he => h (he ▸ List.mem_reverse.mp hy)
    exact decide_eq_true hne
  unfold cutLast
  rw [hrev, List.dropWhile_append_of_pos hys, List.takeWhile_append_of_pos hys]
  simp

end Fields

end Fsracer

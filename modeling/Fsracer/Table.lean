/-
  File:      Fsracer/Table.lean
  Subject:   THE TABLE (lib/Table.h): a map with `AddEntry`, `PopEntry`, `RemoveEntry`,
             `GetValue`.

  `PopEntry` of a key that is not there falls off the end of a function with a return type,
  which is undefined behaviour; it is `none` here.
-/
import Mathlib
import Fsracer.Lib.Ordered

namespace Fsracer

/-- `Table<T1, T2>`: a `std::map`. -/
abbrev Table (K V : Type) (cmp : K → K → Ordering) := Std.TreeMap K V cmp

namespace Table

variable {K V : Type} {cmp : K → K → Ordering}

/-- `AddEntry`: `table[key] = value` keeps a key that is there. -/
def addEntry (t : Table K V cmp) (key : K) (value : V) : Table K V cmp :=
  if key ∈ t then t.modify key fun _ => value else t.insert key value

/-- `GetValue`. -/
def getValue (t : Table K V cmp) (key : K) : Option V := t[key]?

/-- `PopEntry`. -/
def popEntry (t : Table K V cmp) (key : K) : Option (V × Table K V cmp) :=
  match t[key]? with
  | some val => some (val, t.erase key)
  | none => none

/-- `RemoveEntry`. -/
def removeEntry (t : Table K V cmp) (key : K) : Option (Table K V cmp) :=
  (t.popEntry key).map (·.2)

variable {t : Table K V cmp} {k k' : K} {v : V}

theorem popEntry_eq_some {r : V × Table K V cmp} : t.popEntry k = some r ↔
    t.getValue k = some r.1 ∧ r.2 = t.erase k := by
  unfold popEntry getValue
  cases h : t[k]? with
  | none => simp
  | some v =>
      obtain ⟨a, b⟩ := r
      simp [eq_comm]

theorem popEntry_eq_none : t.popEntry k = none ↔ t.getValue k = none := by
  unfold popEntry getValue
  cases h : t[k]? <;> simp

theorem removeEntry_eq_some {t' : Table K V cmp} : t.removeEntry k = some t' ↔
    (t.getValue k).isSome ∧ t' = t.erase k := by
  unfold removeEntry popEntry getValue
  cases h : t[k]? <;> simp [eq_comm]

section Lookup

variable [Std.TransCmp cmp]

theorem getValue_addEntry :
    (t.addEntry k v).getValue k' = if cmp k k' = .eq then some v else t.getValue k' := by
  unfold addEntry getValue
  split
  · rename_i hk
    rw [Std.TreeMap.getElem?_modify]
    split
    · rw [Std.TreeMap.getElem?_eq_some_getElem hk]
      rfl
    · rfl
  · rw [Std.TreeMap.getElem?_insert]

@[simp] theorem getValue_empty : (∅ : Table K V cmp).getValue k = none := by simp [getValue]

theorem getValue_erase :
    getValue (t.erase k) k' = if cmp k k' = .eq then none else t.getValue k' := by
  unfold getValue
  rw [Std.TreeMap.getElem?_erase]

theorem getValue_congr (h : cmp k k' = .eq) : t.getValue k = t.getValue k' :=
  Std.TreeMap.getElem?_congr h

end Lookup

end Table

end Fsracer

/-
  File:      Fsracer/Lookup.lean
  Subject:   WHAT `ToInode` FINDS AND CREATES: the inode table as a tree of names.

  `getInode` is the child of an inode under a name, so the table is a name tree and a rooted path
  is a list of names. `toInode_rooted` is the one statement about `ToInode` that later proofs
  use: it returns the inode that the names lead to, it changes nothing if they lead somewhere,
  and otherwise the table grows by new inodes. A path that is not rooted has no end
  (`toInode_not_rooted`). What `ToPath`, `RemoveEntry`, `OpenInode` and `CloseInode` do to the
  tree is said once, case by case (`removeEntry_cases`, `closeInode_cases`).
-/
import Mathlib
import Fsracer.InodeTable
import Fsracer.Lib.NameTree

namespace Fsracer

namespace InodeTable

/-! ## 1. The tables as functions -/

section Fields

variable {t : InodeTable} {a b i j : Nat} {m n : String} {p q : Path}

theorem getInode_addEntryWith : (t.addEntryWith a n p i).getInode b m =
    if (a, n) = (b, m) then some i else t.getInode b m := by
  unfold getInode addEntryWith
  rw [Table.getValue_addEntry]
  simp only [Std.LawfulEqCmp.compare_eq_iff_eq]

@[simp] theorem getInode_addEntryWith_self : (t.addEntryWith a n p i).getInode a n = some i := by
  rw [getInode_addEntryWith, if_pos rfl]

theorem getInode_addEntryWith_of_ne (h : (b, m) ≠ (a, n)) :
    (t.addEntryWith a n p i).getInode b m = t.getInode b m := by
  rw [getInode_addEntryWith, if_neg (Ne.symm h)]

/-- An entry under a free name keeps all others. -/
theorem getInode_addEntryWith_of_free (hfree : t.getInode a n = none)
    (hj : t.getInode b m = some j) : (t.addEntryWith a n p i).getInode b m = some j := by
  rw [getInode_addEntryWith_of_ne, hj]
  intro he
  cases he
  rw [hfree] at hj
  cases hj

theorem getInode_addEntry : (t.addEntry a n p).getInode b m =
    if (a, n) = (b, m) then some t.nextInode else t.getInode b m :=
  getInode_addEntryWith (p := p)

@[simp] theorem nextInode_addEntryWith : (t.addEntryWith a n p i).nextInode = t.nextInode := rfl

@[simp] theorem nextInode_addEntry : (t.addEntry a n p).nextInode = t.nextInode + 1 := rfl

@[simp] theorem openInodes_addEntryWith : (t.addEntryWith a n p i).openInodes = t.openInodes := rfl

@[simp] theorem openInodes_addEntry : (t.addEntry a n p).openInodes = t.openInodes := rfl

theorem toPaths_addEntryWith : (t.addEntryWith a n p i).toPaths j =
    if i = j then (t.toPaths i).insert p else t.toPaths j := by
  have hget : (t.addEntryWith a n p i).revTable[j]? =
      if i = j then some ((t.toPaths i).insert p) else t.revTable[j]? := by
    show (t.revTable.insert i _)[j]? = _
    rw [Std.TreeMap.getElem?_insert]
    simp only [Std.compare_eq_iff_eq]
  rw [toPaths, hget]
  by_cases h : i = j
  · rw [if_pos h, if_pos h]
  · rw [if_neg h, if_neg h, toPaths]

theorem mem_toPaths_addEntryWith : q ∈ (t.addEntryWith a n p i).toPaths j ↔
    (i = j ∧ Path.cmp p q = .eq) ∨ q ∈ t.toPaths j := by
  rw [toPaths_addEntryWith]
  by_cases h : i = j
  · subst h
    rw [if_pos rfl, Std.TreeSet.mem_insert]
    simp
  · simp [h]

theorem mem_toPaths_addEntry : q ∈ (t.addEntry a n p).toPaths j ↔
    (t.nextInode = j ∧ Path.cmp p q = .eq) ∨ q ∈ t.toPaths j :=
  mem_toPaths_addEntryWith (a := a) (n := n)

end Fields

/-- The inode that names lead to from the root directory. -/
def walk (t : InodeTable) (ns : List String) : Option Nat :=
  NameTree.walk t.getInode (rootInode + 1) ns

theorem walk_append {t : InodeTable} {xs ys : List String} :
    t.walk (xs ++ ys) = (t.walk xs).bind fun a => NameTree.walk t.getInode a ys :=
  NameTree.walk_append

theorem walk_snoc {t : InodeTable} {ns : List String} {n : String} :
    t.walk (ns ++ [n]) = (t.walk ns).bind fun a => t.getInode a n := NameTree.walk_snoc

/-- How far names lead, and the names that are left there. -/
def locate (t : InodeTable) (ns : List String) : Nat × List String :=
  NameTree.locate t.getInode (rootInode + 1) ns

/-- The inode that a path leads to, without creating anything. -/
def resolve (t : InodeTable) (p : Path) : Option Nat :=
  if p.components.head? = some "/" then t.walk p.components.tail else none

theorem resolve_rooted {t : InodeTable} {p : Path} {ns : List String} (h : p.Rooted ns) :
    t.resolve p = t.walk ns := by
  unfold resolve
  rw [h]
  rfl

theorem resolve_eq_some {t : InodeTable} {p : Path} {i : Nat} :
    t.resolve p = some i ↔ ∃ ns, p.Rooted ns ∧ t.walk ns = some i := by
  refine ⟨fun h => ?_, fun ⟨ns, hr, h⟩ => (resolve_rooted hr).trans h⟩
  unfold resolve at h
  split at h
  · rename_i hhead
    obtain ⟨ns, hc⟩ := List.head?_eq_some_iff.mp hhead
    rw [hc] at h
    exact ⟨ns, hc, h⟩
  · cases h

theorem resolve_parentPath {t : InodeTable} {p : Path} {ms : List String} {n : String}
    (hp : p.Rooted (ms ++ [n])) : t.resolve p.parentPath = t.walk ms := by
  have hms : ∀ m ∈ ms, Path.IsName m := fun m hm => hp.names m (by simp [hm])
  rw [hp.parentPath]
  exact resolve_rooted (Path.rooted_ofNames hms)

/-- Every path keeps its inode if the entries that paths come to are kept. -/
theorem resolve_mono {t u : InodeTable} (h : ∀ c m j, (∃ xs, t.walk xs = some c) →
      t.getInode c m = some j → u.getInode c m = some j) {r : Path} {j : Nat}
    (hr : t.resolve r = some j) : u.resolve r = some j := by
  obtain ⟨xs, hrooted, hw⟩ := resolve_eq_some.mp hr
  refine resolve_eq_some.mpr ⟨xs, hrooted, ?_⟩
  refine NameTree.walk_mono_of_passes (fun c m j hp => h c m j ?_) hw
  obtain ⟨us, _, _, hu⟩ := hp
  exact ⟨us, hu⟩

/-- The tables only know inodes that were handed out, and an open entry is an entry. -/
structure WellFormed (t : InodeTable) : Prop where
  root : rootInode + 1 < t.nextInode
  known : ∀ a n i, t.getInode a n = some i → a < t.nextInode ∧ i < t.nextInode
  listed : ∀ i p, p ∈ t.toPaths i → i < t.nextInode
  opened : ∀ a n v, t.openInodes.getValue (a, n) = some v → (t.getInode a n).isSome

theorem WellFormed.addEntryWith {t : InodeTable} (h : t.WellFormed) {a i : Nat}
    (ha : a < t.nextInode) (hi : i < t.nextInode) (n : String) (p : Path) :
    (t.addEntryWith a n p i).WellFormed where
  root := h.root
  known b m j hj := by
    rw [getInode_addEntryWith] at hj
    split at hj
    · rename_i he
      cases he
      cases hj
      exact ⟨ha, hi⟩
    · exact h.known b m j hj
  listed j q hq := by
    rcases mem_toPaths_addEntryWith.mp hq with ⟨rfl, _⟩ | hq
    · exact hi
    · exact h.listed j q hq
  opened b m v hv := by
    rw [getInode_addEntryWith]
    split
    · rfl
    · exact h.opened b m v hv

theorem WellFormed.addEntry {t : InodeTable} (h : t.WellFormed) {a : Nat}
    (ha : a < t.nextInode) (n : String) (p : Path) : (t.addEntry a n p).WellFormed where
  root := Nat.lt_succ_of_lt h.root
  known b m j hj := by
    rw [getInode_addEntry] at hj
    rw [nextInode_addEntry]
    split at hj
    · rename_i he
      cases he
      cases hj
      omega
    · have := h.known b m j hj
      omega
  listed j q hq := by
    rw [nextInode_addEntry]
    rcases mem_toPaths_addEntry.mp hq with ⟨rfl, _⟩ | hq
    · exact Nat.lt_succ_self _
    · exact Nat.lt_succ_of_lt (h.listed j q hq)
  opened b m v hv := by
    rw [getInode_addEntry]
    split
    · rfl
    · exact h.opened b m v hv

theorem wellFormed_init : init.WellFormed where
  root := by decide
  known a n i h := by
    unfold init at h
    rw [getInode_addEntry] at h
    split at h
    · rename_i he
      cases he
      cases h
      decide
    · simp [getInode] at h
  listed i p h := by
    rcases mem_toPaths_addEntry.mp h with ⟨rfl, _⟩ | h
    · exact Nat.lt_succ_self _
    · unfold toPaths at h
      simp at h
  opened a n v h := by simp [init] at h

theorem WellFormed.walk_lt {t : InodeTable} (h : t.WellFormed) {ns : List String} {i : Nat}
    (hw : t.walk ns = some i) : i < t.nextInode :=
  NameTree.walk_closed (P := fun j => j < t.nextInode) (fun a n j hj => (h.known a n j hj).2)
    h.root hw

/-! ## 2. `ToInode` -/

theorem toInodeLoop_root {t : InodeTable} {p : Path} (h : p.Rooted []) (k : Nat) :
    t.toInodeLoop (k + 1) p = some (rootInode + 1, t) := by
  rw [toInodeLoop, if_pos (Path.rooted_nil_iff.mp h)]

theorem toInodeLoop_snoc {t : InodeTable} {p : Path} {ns : List String} {n : String}
    (h : p.Rooted (ns ++ [n])) (k : Nat) : t.toInodeLoop (k + 1) p =
      (t.toInodeLoop k (Path.ofNames ns)).map fun r =>
        match r.2.getInode r.1 n with
        | some i => (i, r.2)
        | none => (r.2.nextInode, r.2.addEntry r.1 n p) := by
  have hne : p.native ≠ "/" := by
    intro he
    have := h.inj (Path.rooted_nil_iff.mpr he)
    simp at this
  rw [toInodeLoop, if_neg hne, h.parentPath, h.filename]
  cases t.toInodeLoop k (Path.ofNames ns) with
  | none => rfl
  | some r =>
      obtain ⟨a, t'⟩ := r
      dsimp only [Option.map_some]
      cases t'.getInode a n <;> rfl

theorem toInodeLoop_not_rooted {t : InodeTable} (k : Nat) {p : Path} (h : ∀ ns, ¬ p.Rooted ns) :
    t.toInodeLoop k p = none := by
  induction k generalizing p with
  | zero => rfl
  | succ k ih =>
      have hne : p.native ≠ "/" := fun he => h [] (Path.rooted_nil_iff.mpr he)
      rw [toInodeLoop, if_neg hne, ih (Path.parentPath_not_rooted h)]

/-- **A path that is not rooted sends `ToInode` into an endless recursion.** -/
theorem toInode_not_rooted {t : InodeTable} {p : Path} (h : ∀ ns, ¬ p.Rooted ns) :
    t.toInode p = none :=
  toInodeLoop_not_rooted _ h

/-- What a lookup of the names `ns` in `t` leaves. -/
structure LookedUp (t : InodeTable) (ns : List String) (i : Nat) (t' : InodeTable) : Prop where
  found : t'.walk ns = some i
  same : (t.walk ns).isSome → t' = t
  wellFormed : t'.WellFormed
  grows : NameTree.Grows (t.nextInode ≤ ·) (rootInode + 1) t.getInode t'.getInode
  openInodes : t'.openInodes = t.openInodes
  nextInode : t.nextInode ≤ t'.nextInode
  childless : t.nextInode ≤ i → ∀ n, t'.getInode i n = none
  added : ∀ a n j, t'.getInode a n = some j → t.getInode a n = some j ∨
    NameTree.Passes t'.getInode (rootInode + 1) ns a n
  paths : ∀ j q, q ∈ t'.toPaths j ↔ q ∈ t.toPaths j ∨
    ∃ ms, ms <+: ns ∧ t.walk ms = none ∧ t'.walk ms = some j ∧ q.Rooted ms

theorem LookedUp.refl {t : InodeTable} (h : t.WellFormed) {ns : List String} {i : Nat}
    (hw : t.walk ns = some i) : t.LookedUp ns i t where
  found := hw
  same _ := rfl
  wellFormed := h
  grows := .refl (Nat.not_le.mpr h.root) fun a n j hj =>
    ⟨Nat.not_le.mpr (h.known a n j hj).1, Nat.not_le.mpr (h.known a n j hj).2⟩
  openInodes := rfl
  nextInode := le_rfl
  childless hle := absurd (h.walk_lt hw) (Nat.not_lt.mpr hle)
  added _ _ _ hj := .inl hj
  paths j q := by
    refine ⟨.inl, fun hq => hq.resolve_right fun ⟨ms, hms, hnone, hsome, _⟩ => ?_⟩
    rw [hnone] at hsome
    cases hsome

theorem LookedUp.of_some {t t' : InodeTable} {ns : List String} {i j : Nat}
    (h : t.LookedUp ns i t') (hw : t.walk ns = some j) : t' = t ∧ i = j := by
  have ht := h.same (Option.isSome_iff_exists.mpr ⟨j, hw⟩)
  subst ht
  exact ⟨rfl, Option.some.inj (h.found.symm.trans hw)⟩

theorem LookedUp.of_none {t t' : InodeTable} {ns : List String} {i : Nat}
    (h : t.LookedUp ns i t') (hn : t.walk ns = none) : t.nextInode ≤ i := by
  by_contra hold
  have hw : t.walk ns = some i := h.grows.walk_old h.found hold
  rw [hn] at hw
  cases hw

/-- A name under the inode that was found: it is there afterwards iff it was before. -/
theorem LookedUp.getInode_eq {t t' : InodeTable} {ns : List String} {a : Nat}
    (h : t.LookedUp ns a t') (n : String) : t'.getInode a n = t.walk (ns ++ [n]) := by
  rw [walk_snoc]
  cases hw : t.walk ns with
  | some b =>
      obtain ⟨rfl, rfl⟩ := h.of_some hw
      rfl
  | none => exact h.childless (h.of_none hw) n

/-- A new inode under a name that is free. -/
theorem WellFormed.grows_addEntry {t : InodeTable} (hw : t.WellFormed) {a : Nat} {n : String}
    (hc : t.getInode a n = none) (p : Path) :
    NameTree.Grows (t.nextInode ≤ ·) (rootInode + 1) t.getInode (t.addEntry a n p).getInode := by
  refine ⟨fun b m j hj => ?_, fun b m j hj => ?_, Nat.not_le.mpr hw.root, fun b m j hj => ?_,
    fun b b' m m' j h1 h2 hj => ?_⟩
  · rw [getInode_addEntry, if_neg, hj]
    intro he
    cases he
    rw [hc] at hj
    cases hj
  · rw [getInode_addEntry] at hj
    split at hj
    · cases hj
      exact .inr le_rfl
    · exact .inl hj
  · have := hw.known b m j hj
    omega
  · have hnew : ∀ b m, (t.addEntry a n p).getInode b m = some j → (a, n) = (b, m) := by
      intro b m hb
      rw [getInode_addEntry] at hb
      split at hb
      · assumption
      · have := (hw.known b m j hb).2
        omega
    have he := (hnew b m h1).symm.trans (hnew b' m' h2)
    cases he
    exact ⟨rfl, rfl⟩

/-- One more name: it is there, or it gets a new inode. -/
theorem LookedUp.snoc {t t' : InodeTable} {ns : List String} {a : Nat}
    (hw : t.WellFormed) (h : t.LookedUp ns a t') {n : String} {p : Path}
    (hp : p.Rooted (ns ++ [n])) :
    match t.walk (ns ++ [n]) with
    | some i => t.LookedUp (ns ++ [n]) i t'
    | none => t.LookedUp (ns ++ [n]) t'.nextInode (t'.addEntry a n p) := by
  have hc := h.getInode_eq n
  cases hn : t.walk (ns ++ [n]) with
  | some i =>
      obtain ⟨b, hb, _⟩ := NameTree.walk_snoc_eq_some.mp hn
      obtain ⟨rfl, _⟩ := h.of_some hb
      exact .refl hw hn
  | none =>
      rw [hn] at hc
      have hgrow := h.wellFormed.grows_addEntry hc p
      have hfound : (t'.addEntry a n p).walk (ns ++ [n]) = some t'.nextInode := by
        refine NameTree.walk_snoc_eq_some.mpr ⟨a, NameTree.walk_mono hgrow.keeps h.found, ?_⟩
        rw [getInode_addEntry, if_pos rfl]
      refine ⟨hfound, fun hs => ?_, h.wellFormed.addEntry (h.wellFormed.walk_lt h.found) n p,
        h.grows.trans hgrow fun j hj => h.nextInode.trans hj, h.openInodes,
        h.nextInode.trans (Nat.le_succ _), fun _ m => ?_, fun b m j hj => ?_, fun j q => ?_⟩
      · rw [hn] at hs
        cases hs
      · rw [getInode_addEntry, if_neg]
        · cases hm : t'.getInode t'.nextInode m with
          | none => rfl
          | some j =>
              have := (h.wellFormed.known _ _ _ hm).1
              omega
        · intro he
          cases he
          have := h.wellFormed.walk_lt h.found
          omega
      · by_cases hbm : (a, n) = (b, m)
        · cases hbm
          exact .inr ⟨ns, [], rfl, NameTree.walk_mono hgrow.keeps h.found⟩
        · rw [getInode_addEntry, if_neg hbm] at hj
          refine (h.added b m j hj).imp_right fun hp => ?_
          obtain ⟨xs, ys, he, hx⟩ := hp.append_right [n]
          exact ⟨xs, ys, he, NameTree.walk_mono hgrow.keeps hx⟩
      · have hbelow : ∀ ms, ms <+: ns → (t'.addEntry a n p).walk ms = t'.walk ms := by
          intro ms hms
          obtain ⟨b, hb⟩ := NameTree.walk_of_prefix h.found hms
          rw [show t'.walk ms = some b from hb]
          exact NameTree.walk_mono hgrow.keeps hb
        rw [mem_toPaths_addEntry, h.paths]
        refine ⟨fun hq => ?_, fun hq => ?_⟩
        · rcases hq with ⟨rfl, hq⟩ | hq | ⟨ms, hms, h1, h2, h3⟩
          · exact .inr ⟨_, List.prefix_refl _, hn, hfound,
              (Path.cmp_eq_iff.mp hq).symm.trans hp⟩
          · exact .inl hq
          · exact .inr ⟨ms, hms.trans (List.prefix_append _ _), h1, (hbelow ms hms).trans h2, h3⟩
        · rcases hq with hq | ⟨ms, hms, h1, h2, h3⟩
          · exact .inr (.inl hq)
          · rcases List.prefix_concat_iff.mp hms with rfl | hms
            · rw [hfound] at h2
              exact .inl ⟨Option.some.inj h2, Path.cmp_eq_iff.mpr (hp.trans h3.symm)⟩
            · exact .inr (.inr ⟨ms, hms, h1, (hbelow ms hms).symm.trans h2, h3⟩)

/-- **`ToInode` of a rooted path** returns the inode its names lead to. -/
theorem toInode_rooted {t : InodeTable} (hw : t.WellFormed) {p : Path} {ns : List String}
    (h : p.Rooted ns) : ∃ i t', t.toInode p = some (i, t') ∧ t.LookedUp ns i t' := by
  have hloop : ∀ k, ns.length < k → ∃ i t', t.toInodeLoop k p = some (i, t') ∧
      t.LookedUp ns i t' := by
    induction ns using List.reverseRecOn generalizing p with
    | nil =>
        intro k hk
        obtain ⟨k, rfl⟩ := Nat.exists_eq_succ_of_ne_zero (Nat.ne_of_gt hk)
        exact ⟨_, t, toInodeLoop_root h k, .refl hw rfl⟩
    | append_singleton ns n ih =>
        intro k hk
        obtain ⟨k, rfl⟩ := Nat.exists_eq_succ_of_ne_zero (Nat.ne_of_gt (Nat.zero_lt_of_lt hk))
        have hns : ∀ m ∈ ns, Path.IsName m := fun m hm => h.names m (by simp [hm])
        rw [List.length_append, List.length_singleton] at hk
        obtain ⟨a, t', ht, hl⟩ := ih (Path.rooted_ofNames hns) k (by omega)
        have hs := hl.snoc hw h
        rw [toInodeLoop_snoc h, ht, Option.map_some, hl.getInode_eq n]
        cases hc : t.walk (ns ++ [n]) with
        | some i =>
            rw [hc] at hs
            exact ⟨i, t', rfl, hs⟩
        | none =>
            rw [hc] at hs
            exact ⟨_, _, rfl, hs⟩
  exact hloop _ (by rw [h]; simp)

/-- A path that leads to an inode is looked up without a change. -/
theorem toInode_of_walk {t : InodeTable} (hw : t.WellFormed) {p : Path} {ns : List String} {i : Nat}
    (hp : p.Rooted ns) (h : t.walk ns = some i) : t.toInode p = some (i, t) := by
  obtain ⟨j, t', ht, hl⟩ := toInode_rooted hw hp
  obtain ⟨rfl, rfl⟩ := hl.of_some h
  exact ht

/-- A way that does not come to an entry is not changed with it. -/
theorem walk_addEntryWith {t : InodeTable} {a i : Nat} {n : String} {p : Path} {ns : List String}
    (h : ¬ NameTree.Passes t.getInode (rootInode + 1) ns a n) :
    (t.addEntryWith a n p i).walk ns = t.walk ns :=
  NameTree.walk_of_not_passes (fun _ _ => getInode_addEntryWith_of_ne) h

/-- `ToInode` returns for rooted paths only. -/
theorem toInode_spec {t t' : InodeTable} (hw : t.WellFormed) {p : Path} {i : Nat}
    (h : t.toInode p = some (i, t')) : ∃ ns, p.Rooted ns ∧ t.LookedUp ns i t' := by
  by_cases hr : ∃ ns, p.Rooted ns
  · obtain ⟨ns, hr⟩ := hr
    obtain ⟨j, u, hu, hl⟩ := toInode_rooted hw hr
    rw [hu] at h
    cases h
    exact ⟨ns, hr, hl⟩
  · rw [toInode_not_rooted (not_exists.mp hr)] at h
    cases h

/-- `ToInode` of a parent path returns for paths with a name only. -/
theorem toInode_parent_spec {t t' : InodeTable} (hw : t.WellFormed) {p : Path} {a : Nat}
    (h : t.toInode p.parentPath = some (a, t')) :
    ∃ ns n, p.Rooted (ns ++ [n]) ∧ p.filename.native = n ∧ t.LookedUp ns a t' := by
  obtain ⟨ms, hm, hl⟩ := toInode_spec hw h
  by_cases hr : ∃ ns, p.Rooted ns
  · obtain ⟨ns, hr⟩ := hr
    rcases List.eq_nil_or_concat ns with rfl | ⟨ns, n, rfl⟩
    · have hempty : p.parentPath = .empty := by
        unfold Path.parentPath
        rw [hr, if_pos (by simp)]
      rw [hempty] at hm
      exact absurd hm Path.relative_empty.not_rooted
    · rw [List.concat_eq_append] at hr
      have hns : ∀ m ∈ ns, Path.IsName m := fun m hm => hr.names m (by simp [hm])
      rw [hr.parentPath] at hm
      rw [hm.inj (Path.rooted_ofNames hns)] at hl
      exact ⟨ns, n, hr, by rw [hr.filename], hl⟩
  · exact absurd hm (Path.parentPath_not_rooted (not_exists.mp hr) _)

theorem toInode_parent_isSome {t : InodeTable} (hw : t.WellFormed) {p : Path} (h : p.Named) :
    ∃ a t', t.toInode p.parentPath = some (a, t') := by
  obtain ⟨ns, n, hr⟩ := Path.named_iff.mp h
  have hns : ∀ m ∈ ns, Path.IsName m := fun m hm => hr.names m (by simp [hm])
  obtain ⟨a, t', ht, _⟩ := toInode_rooted hw (Path.rooted_ofNames hns)
  rw [hr.parentPath]
  exact ⟨a, t', ht⟩

theorem LookedUp.lt {t t' : InodeTable} {ns : List String} {i : Nat} (h : t.LookedUp ns i t') :
    i < t'.nextInode := h.wellFormed.walk_lt h.found

/-- Two lookups, one after the other. -/
theorem LookedUp.grows₂ {t t₁ t₂ : InodeTable} {ms ns : List String} {i a : Nat}
    (h₁ : t.LookedUp ms i t₁) (h₂ : t₁.LookedUp ns a t₂) :
    NameTree.Grows (t.nextInode ≤ ·) (rootInode + 1) t.getInode t₂.getInode :=
  h₁.grows.trans h₂.grows fun _ hj => h₁.nextInode.trans hj

/-- After the lookups of a path and of the directory of another one, both have one inode iff both
    were one place before. -/
theorem sameEntry_iff {t t₁ t₂ : InodeTable} {ms ns : List String} {k : String} {i a : Nat}
    (h₁ : t.LookedUp ms i t₁) (h₂ : t₁.LookedUp ns a t₂) :
    t₂.getInode a k = some i ↔ t.locate (ns ++ [k]) = t.locate ms := by
  rw [h₂.getInode_eq k]
  refine ⟨fun h => NameTree.locate_eq_of_walk_eq h₁.grows h h₁.found, fun h => ?_⟩
  exact (NameTree.walk_eq_of_locate_eq h₁.grows.keeps h).trans h₁.found

/-! ## 3. `ToPath` -/

/-- `ToPath` returns the path of an inode that has no other. -/
theorem toPath_eq_some {t : InodeTable} {i : Nat} {p : Path} (h : t.toPath i = some p) :
    p ∈ t.toPaths i ∧ ∀ q ∈ t.toPaths i, Path.cmp p q = .eq := by
  unfold toPath at h
  split at h
  · rename_i p' hl
    cases h
    refine ⟨Std.TreeSet.mem_of_mem_toList (by rw [hl]; exact List.mem_singleton_self p), ?_⟩
    intro q hq
    obtain ⟨p', hp', hcmp⟩ := Ordered.exists_mem_toList hq
    rw [hl, List.mem_singleton] at hp'
    rwa [← hp']
  · cases h

theorem toPath_isSome {t : InodeTable} {i : Nat} {p : Path} (hp : p ∈ t.toPaths i)
    (h : ∀ q ∈ t.toPaths i, Path.cmp p q = .eq) : ∃ q, t.toPath i = some q := by
  obtain ⟨p', hp', _⟩ := Ordered.exists_mem_toList hp
  have hdistinct := Std.TreeSet.distinct_toList (t := t.toPaths i)
  unfold toPath
  rcases hl : (t.toPaths i).toList with _ | ⟨q, _ | ⟨r, rs⟩⟩
  · rw [hl] at hp'
    cases hp'
  · exact ⟨q, rfl⟩
  · -- two paths in the list differ, and both are the one path of the inode
    rw [hl] at hdistinct
    have hmem : ∀ x ∈ q :: r :: rs, Path.cmp p x = .eq := fun x hx =>
      h x (Std.TreeSet.mem_of_mem_toList (by rw [hl]; exact hx))
    have hq := hmem q List.mem_cons_self
    have hr := hmem r (List.mem_cons_of_mem _ List.mem_cons_self)
    exact absurd (Std.TransCmp.eq_trans (Std.OrientedCmp.eq_symm hq) hr)
      ((List.pairwise_cons.mp hdistinct).1 r List.mem_cons_self)

/-- A lookup gives no path to an inode that was there. -/
theorem LookedUp.toPaths_known {t t' : InodeTable} {ns : List String} {i j : Nat}
    (h : t.LookedUp ns i t') (hj : j < t.nextInode) (q : Path) :
    q ∈ t'.toPaths j ↔ q ∈ t.toPaths j := by
  rw [h.paths]
  refine or_iff_left fun ⟨ms, _, hnone, hsome, _⟩ => ?_
  have hw : t.walk ms = some j := h.grows.walk_old hsome (Nat.not_le.mpr hj)
  rw [hnone] at hw
  cases hw

/-! ## 4. Removing, opening and closing entries -/

section Entries

variable {t t' : InodeTable} {a b j : Nat} {m n : String}

/-- `rev_table` without the path `p` of an inode. -/
def revWithout (t : InodeTable) (inode : Nat) (p : Path) :
    Std.TreeMap Nat (Std.TreeSet Path Path.cmp) :=
  match t.revTable[inode]? with
  | none => t.revTable
  | some paths =>
      if (paths.erase p).isEmpty then t.revTable.erase inode
      else t.revTable.insert inode (paths.erase p)

/-- The table without an entry and its path. -/
def dropEntry (t : InodeTable) (inodeP : Nat) (basename : String) (inode : Nat) (p : Path) :
    InodeTable :=
  { t with table := t.table.erase (inodeP, basename), revTable := t.revWithout inode p }

/-- The table with an open entry marked as unlinked. -/
def markUnlinked (t : InodeTable) (inodeP : Nat) (basename : String) (counter : Nat) :
    InodeTable :=
  { t with openInodes := t.openInodes.addEntry (inodeP, basename) (.unlinked, counter) }

/-- `RemoveEntry`, case by case. -/
theorem removeEntry_eq : t.removeEntry a n =
    match t.toPath a with
    | none => some t
    | some pathP =>
        match t.openInodes.getValue (a, n) with
        | none => (t.getInode a n).map fun i => t.dropEntry a n i (pathP.append ⟨n⟩)
        | some (.linked, counter) => some (t.markUnlinked a n counter)
        | some (.unlinked, _) => some t := by
  unfold removeEntry
  cases t.toPath a with
  | none => rfl
  | some pathP =>
      dsimp only
      rcases t.openInodes.getValue (a, n) with _ | ⟨_ | _, counter⟩
      · dsimp only
        unfold getInode
        cases hp : t.table.popEntry (a, n) with
        | none => rw [Table.popEntry_eq_none.mp hp]; rfl
        | some r =>
            obtain ⟨hv, ht⟩ := Table.popEntry_eq_some.mp hp
            rw [hv, Option.map_some]
            dsimp only
            unfold dropEntry revWithout
            rw [ht]
            cases t.revTable[r.1]? <;> rfl
      · rfl
      · rfl

theorem getInode_dropEntry {i : Nat} {p : Path} : (t.dropEntry a n i p).getInode b m =
    if (a, n) = (b, m) then none else t.getInode b m := by
  unfold getInode dropEntry
  rw [Table.getValue_erase]
  simp only [Std.LawfulEqCmp.compare_eq_iff_eq]

@[simp] theorem getInode_dropEntry_self {i : Nat} {p : Path} :
    (t.dropEntry a n i p).getInode a n = none := by
  rw [getInode_dropEntry, if_pos rfl]

theorem getInode_dropEntry_of_ne {i : Nat} {p : Path} (h : (b, m) ≠ (a, n)) :
    (t.dropEntry a n i p).getInode b m = t.getInode b m := by
  rw [getInode_dropEntry, if_neg (Ne.symm h)]

theorem getInode_of_dropEntry {i : Nat} {p : Path}
    (h : (t.dropEntry a n i p).getInode b m = some j) : t.getInode b m = some j := by
  rw [getInode_dropEntry] at h
  split at h
  · cases h
  · exact h

/-- An entry that is dropped leaves its path without an inode. -/
theorem resolve_dropEntry {p q : Path} {ms : List String} {i : Nat} (hp : p.Rooted (ms ++ [n]))
    (ha : t.walk ms = some a) : (t.dropEntry a n i q).resolve p = none := by
  rw [resolve_rooted hp]
  cases hu : (t.dropEntry a n i q).walk (ms ++ [n]) with
  | none => rfl
  | some j =>
      obtain ⟨c, hc, hj⟩ := NameTree.walk_snoc_eq_some.mp hu
      cases (NameTree.walk_mono (fun _ _ _ => getInode_of_dropEntry) hc).symm.trans ha
      rw [getInode_dropEntry_self] at hj
      cases hj

theorem mem_toPaths_iff {q : Path} : q ∈ t.toPaths j ↔ ∃ paths, t.revTable[j]? = some paths ∧
    q ∈ paths := by
  unfold toPaths
  cases t.revTable[j]? with
  | none => simp
  | some paths => simp

theorem mem_toPaths_dropEntry {i : Nat} {p q : Path} : q ∈ (t.dropEntry a n i p).toPaths j ↔
    q ∈ t.toPaths j ∧ ¬ (i = j ∧ Path.cmp p q = .eq) := by
  rw [mem_toPaths_iff, mem_toPaths_iff]
  unfold dropEntry revWithout
  dsimp only
  cases hr : t.revTable[i]? with
  | none =>
      refine ⟨fun ⟨paths, h1, h2⟩ => ⟨⟨paths, h1, h2⟩, fun ⟨he, _⟩ => ?_⟩, fun h => h.1⟩
      rw [← he, hr] at h1
      cases h1
  | some paths =>
      dsimp only
      by_cases h : i = j
      · subst h
        rw [hr]
        split
        · rename_i hempty
          have hno : q ∉ paths.erase p := by
            intro hq
            rw [Std.TreeSet.isEmpty_eq_false_iff_exists_mem.mpr ⟨q, hq⟩] at hempty
            cases hempty
          rw [Std.TreeSet.mem_erase] at hno
          simpa [Std.TreeMap.getElem?_erase, and_comm] using hno
        · simp [Std.TreeSet.mem_erase, and_comm]
      · split
        · simp [Std.TreeMap.getElem?_erase, h]
        · simp [Std.TreeMap.getElem?_insert, h]

/-- `RemoveEntry` misses its key. -/
theorem removeEntry_eq_none : t.removeEntry a n = none ↔
    (t.toPath a).isSome ∧ t.openInodes.getValue (a, n) = none ∧ t.getInode a n = none := by
  rw [removeEntry_eq]
  cases t.toPath a with
  | none => simp
  | some pathP =>
      rcases t.openInodes.getValue (a, n) with _ | ⟨_ | _, counter⟩ <;> simp

/-- What `RemoveEntry` does when it returns. -/
theorem removeEntry_cases (h : t.removeEntry a n = some t') :
    (t' = t ∧ (t.toPath a = none ∨ ∃ c, t.openInodes.getValue (a, n) = some (.unlinked, c))) ∨
    (∃ c, t.openInodes.getValue (a, n) = some (.linked, c) ∧ t' = t.markUnlinked a n c) ∨
    ∃ pathP i, t.toPath a = some pathP ∧ t.openInodes.getValue (a, n) = none ∧
      t.getInode a n = some i ∧ t' = t.dropEntry a n i (pathP.append ⟨n⟩) := by
  rw [removeEntry_eq] at h
  cases hp : t.toPath a with
  | none =>
      rw [hp] at h
      exact .inl ⟨(Option.some.inj h).symm, .inl rfl⟩
  | some pathP =>
      rw [hp] at h
      dsimp only at h
      rcases ho : t.openInodes.getValue (a, n) with _ | ⟨_ | _, c⟩ <;> rw [ho] at h
      · obtain ⟨i, hi, ht⟩ := Option.map_eq_some_iff.mp h
        exact .inr (.inr ⟨pathP, i, rfl, rfl, hi, ht.symm⟩)
      · exact .inr (.inl ⟨c, rfl, (Option.some.inj h).symm⟩)
      · exact .inl ⟨(Option.some.inj h).symm, .inr ⟨c, rfl⟩⟩

/-- `RemoveEntry` leaves the other entries alone. -/
theorem getInode_removeEntry (h : t.removeEntry a n = some t') (hne : (a, n) ≠ (b, m)) :
    t'.getInode b m = t.getInode b m := by
  rcases removeEntry_cases h with ⟨rfl, _⟩ | ⟨c, _, rfl⟩ | ⟨_, i, _, _, _, rfl⟩
  · rfl
  · rfl
  · exact getInode_dropEntry_of_ne (Ne.symm hne)

/-- `RemoveEntry` adds nothing. -/
theorem getInode_of_removeEntry (h : t.removeEntry a n = some t') (hj : t'.getInode b m = some j) :
    t.getInode b m = some j := by
  rcases removeEntry_cases h with ⟨rfl, _⟩ | ⟨c, _, rfl⟩ | ⟨_, i, _, _, _, rfl⟩
  · exact hj
  · exact hj
  · exact getInode_of_dropEntry hj

theorem nextInode_removeEntry (h : t.removeEntry a n = some t') : t'.nextInode = t.nextInode := by
  rcases removeEntry_cases h with ⟨rfl, _⟩ | ⟨c, _, rfl⟩ | ⟨_, i, _, _, _, rfl⟩ <;> rfl

theorem getValue_markUnlinked {c : Nat} : (t.markUnlinked a n c).openInodes.getValue (b, m) =
    if (a, n) = (b, m) then some (.unlinked, c) else t.openInodes.getValue (b, m) := by
  unfold markUnlinked
  rw [Table.getValue_addEntry]
  simp only [Std.LawfulEqCmp.compare_eq_iff_eq]

theorem WellFormed.removeEntry (hw : t.WellFormed) (h : t.removeEntry a n = some t') :
    t'.WellFormed := by
  rcases removeEntry_cases h with ⟨rfl, _⟩ | ⟨c, ho, rfl⟩ | ⟨_, i, _, ho, _, rfl⟩
  · exact hw
  · refine ⟨hw.root, hw.known, hw.listed, fun b m v hv => ?_⟩
    rw [getValue_markUnlinked] at hv
    split at hv
    · rename_i he
      cases he
      exact hw.opened _ _ _ ho
    · exact hw.opened b m v hv
  · refine ⟨hw.root, fun b m j hj => hw.known b m j (getInode_of_dropEntry hj), fun j q hq => ?_,
      fun b m v hv => ?_⟩
    · exact hw.listed j q (mem_toPaths_dropEntry.mp hq).1
    · rw [getInode_dropEntry_of_ne]
      · exact hw.opened b m v hv
      · intro he
        cases he
        rw [show t.openInodes.getValue (a, n) = some v from hv] at ho
        cases ho

/-- The table without an open entry. -/
def dropOpen (t : InodeTable) (inodeP : Nat) (basename : String) : InodeTable :=
  { t with openInodes := t.openInodes.erase (inodeP, basename) }

/-- The table with another counter of an open entry. -/
def setOpen (t : InodeTable) (inodeP : Nat) (basename : String) (v : INodeType × Nat) :
    InodeTable :=
  { t with openInodes := t.openInodes.addEntry (inodeP, basename) v }

theorem getValue_dropOpen : (t.dropOpen a n).openInodes.getValue (b, m) =
    if (a, n) = (b, m) then none else t.openInodes.getValue (b, m) := by
  unfold dropOpen
  rw [Table.getValue_erase]
  simp only [Std.LawfulEqCmp.compare_eq_iff_eq]

theorem getValue_setOpen {v : INodeType × Nat} :
    (t.setOpen a n v).openInodes.getValue (b, m) =
      if (a, n) = (b, m) then some v else t.openInodes.getValue (b, m) := by
  unfold setOpen
  rw [Table.getValue_addEntry]
  simp only [Std.LawfulEqCmp.compare_eq_iff_eq]

/-- `OpenInode`. -/
theorem openInode_eq : t.openInode a n =
    t.setOpen a n (.linked, (t.openInodes.getValue (a, n)).elim 0 (·.2) + 1) := by
  unfold openInode setOpen
  dsimp only
  cases t.openInodes.getValue (a, n) <;> rfl

theorem getInode_openInode : (t.openInode a n).getInode b m = t.getInode b m := by
  rw [openInode_eq]
  rfl

@[simp] theorem nextInode_openInode : (t.openInode a n).nextInode = t.nextInode := by
  rw [openInode_eq]
  rfl

/-- `CloseInode`, case by case. -/
theorem closeInode_eq : t.closeInode a n =
    match t.openInodes.getValue (a, n) with
    | none => some t
    | some (_, 0) => some t
    | some (.linked, 1) => some (t.dropOpen a n)
    | some (.unlinked, 1) => (t.dropOpen a n).removeEntry a n
    | some (inodeType, counter + 2) => some (t.setOpen a n (inodeType, counter + 1)) := by
  have hpop : ∀ v, t.openInodes.getValue (a, n) = some v →
      t.openInodes.removeEntry (a, n) = some (t.openInodes.erase (a, n)) := fun v hv =>
    Table.removeEntry_eq_some.mpr ⟨by rw [hv]; rfl, rfl⟩
  unfold closeInode
  dsimp only
  rcases ho : t.openInodes.getValue (a, n) with _ | ⟨_ | _, _ | _ | c⟩
  · rfl
  · rfl
  · dsimp only
    rw [hpop _ ho]
    rfl
  · rfl
  · rfl
  · dsimp only
    rw [hpop _ ho]
    rfl
  · rfl

/-- What `CloseInode` does when it returns. -/
theorem closeInode_cases (h : t.closeInode a n = some t') :
    (t' = t ∧ (t.openInodes.getValue (a, n) = none ∨
      ∃ ty, t.openInodes.getValue (a, n) = some (ty, 0))) ∨
    (t.openInodes.getValue (a, n) = some (.linked, 1) ∧ t' = t.dropOpen a n) ∨
    (t.openInodes.getValue (a, n) = some (.unlinked, 1) ∧
      (t.dropOpen a n).removeEntry a n = some t') ∨
    ∃ ty c, t.openInodes.getValue (a, n) = some (ty, c + 2) ∧ t' = t.setOpen a n (ty, c + 1) := by
  rw [closeInode_eq] at h
  rcases ho : t.openInodes.getValue (a, n) with _ | ⟨ty, _ | _ | c⟩ <;> rw [ho] at h
  · exact .inl ⟨(Option.some.inj h).symm, .inl rfl⟩
  · exact .inl ⟨(Option.some.inj h).symm, .inr ⟨ty, rfl⟩⟩
  · cases ty with
    | linked => exact .inr (.inl ⟨rfl, (Option.some.inj h).symm⟩)
    | unlinked => exact .inr (.inr (.inl ⟨rfl, h⟩))
  · exact .inr (.inr (.inr ⟨ty, c, rfl, (Option.some.inj h).symm⟩))

theorem nextInode_closeInode (h : t.closeInode a n = some t') : t'.nextInode = t.nextInode := by
  rcases closeInode_cases h with ⟨rfl, _⟩ | ⟨_, rfl⟩ | ⟨_, h⟩ | ⟨ty, c, _, rfl⟩
  · rfl
  · rfl
  · have hn := nextInode_removeEntry h
    exact hn
  · rfl

theorem WellFormed.dropOpen (hw : t.WellFormed) : (t.dropOpen a n).WellFormed := by
  refine ⟨hw.root, hw.known, hw.listed, fun b m v hv => ?_⟩
  rw [getValue_dropOpen] at hv
  split at hv
  · cases hv
  · exact hw.opened b m v hv

theorem WellFormed.setOpen (hw : t.WellFormed) (he : (t.getInode a n).isSome)
    (v : INodeType × Nat) : (t.setOpen a n v).WellFormed := by
  refine ⟨hw.root, hw.known, hw.listed, fun b m w hw' => ?_⟩
  rw [getValue_setOpen] at hw'
  split at hw'
  · rename_i heq
    cases heq
    exact he
  · exact hw.opened b m w hw'

theorem WellFormed.openInode (hw : t.WellFormed) (he : (t.getInode a n).isSome) :
    (t.openInode a n).WellFormed := by
  rw [openInode_eq]
  exact hw.setOpen he _

theorem WellFormed.closeInode (hw : t.WellFormed) (h : t.closeInode a n = some t') :
    t'.WellFormed := by
  rcases closeInode_cases h with ⟨rfl, _⟩ | ⟨_, rfl⟩ | ⟨_, h⟩ | ⟨ty, c, ho, rfl⟩
  · exact hw
  · exact hw.dropOpen
  · exact hw.dropOpen.removeEntry h
  · exact hw.setOpen (hw.opened _ _ _ ho) _

/-- **The last close of an unlinked entry finds it**: an open entry is in the table. -/
theorem closeInode_ne_none (hw : t.WellFormed) : t.closeInode a n ≠ none := by
  rw [closeInode_eq]
  rcases ho : t.openInodes.getValue (a, n) with _ | ⟨_ | _, _ | _ | c⟩
  · exact Option.some_ne_none _
  · exact Option.some_ne_none _
  · exact Option.some_ne_none _
  · exact Option.some_ne_none _
  · exact Option.some_ne_none _
  · intro h
    have hnone : t.getInode a n = none := (removeEntry_eq_none.mp h).2.2
    have := hw.opened _ _ _ ho
    rw [hnone] at this
    cases this
  · exact Option.some_ne_none _

end Entries

end InodeTable

end Fsracer

/-
  File:      Fsracer/ReverseTable.lean
  Subject:   IS `rev_table` THE INVERSE OF THE INODE TABLE?

  `AddEntry` lists the one path it is given, and `RemoveEntry` takes the one path away that it
  computes from the directory. Both are right as long as the directory has one path and the inode
  has nothing below it, and as long as no entry is overwritten.

  * `Inverse` -- a path leads to an inode iff it is listed for it;
  * `Inverse.lookedUp`, `Inverse.addEntryWith`, `Inverse.removeEntry` -- what keeps it;
  * **`inverseIn_of_keeps`** -- it holds in every state of a run whose steps meet `KeepsInverse`.

  A rename of a directory with a path below it is enough to break it (`inverseIn_fails`).
-/
import Mathlib
import Fsracer.PoppedKeys

namespace Fsracer

namespace InodeTable

/-! ## 1. The inverse -/

/-- **The reverse table is the inverse of the forward one.** -/
def Inverse (t : InodeTable) : Prop := ∀ p i, p ∈ t.toPaths i ↔ t.resolve p = some i

/-- One list of names leads to an inode. -/
def OneWay (t : InodeTable) (i : Nat) : Prop :=
  ∀ us vs, (∀ m ∈ us, Path.IsName m) → (∀ m ∈ vs, Path.IsName m) →
    t.walk us = some i → t.walk vs = some i → us = vs

/-- Nothing is below an inode. -/
def Leaf (t : InodeTable) (i : Nat) : Prop := ∀ n, t.getInode i n = none

section Inverse

variable {t t' t₁ t₂ : InodeTable} {p q : Path} {ms ns os : List String} {n k : String}
  {a i j : Nat}

/-- **`ToPath` returns the path by which an inode is reachable now**, and there is no other. -/
theorem Inverse.toPath (h : t.Inverse) (hp : t.toPath i = some p) :
    t.resolve p = some i ∧ ∀ q, t.resolve q = some i → Path.cmp p q = .eq := by
  obtain ⟨hmem, huniq⟩ := toPath_eq_some hp
  exact ⟨(h p i).mp hmem, fun q hq => huniq q ((h q i).mpr hq)⟩

/-- An inode with one path is reached by one list of names. -/
theorem Inverse.oneWay (h : t.Inverse) (hp : (t.toPath i).isSome) : t.OneWay i := by
  obtain ⟨p, hp⟩ := Option.isSome_iff_exists.mp hp
  obtain ⟨_, huniq⟩ := h.toPath hp
  intro us vs hus hvs hu hv
  have hus' := Path.rooted_ofNames hus
  have hvs' := Path.rooted_ofNames hvs
  have hcu := Path.cmp_eq_iff.mp (huniq _ ((resolve_rooted hus').trans hu))
  have hcv := Path.cmp_eq_iff.mp (huniq _ ((resolve_rooted hvs').trans hv))
  exact hus'.inj ((hcu.symm.trans hcv).trans hvs')

/-- The path of a directory with one path is the one that names lead along. -/
theorem Inverse.rooted_toPath (h : t.Inverse) (hp : t.toPath a = some p)
    (hns : ∀ m ∈ ns, Path.IsName m) (ha : t.walk ns = some a) : p.Rooted ns := by
  have hroot := Path.rooted_ofNames hns
  have hcmp := (h.toPath hp).2 _ ((resolve_rooted hroot).trans ha)
  exact (Path.cmp_eq_iff.mp hcmp).trans hroot

theorem Inverse.congr (h : t.Inverse) (hg : t'.getInode = t.getInode)
    (hp : ∀ j q, q ∈ t'.toPaths j ↔ q ∈ t.toPaths j) : t'.Inverse := by
  intro q j
  rw [hp, h q j]
  unfold resolve walk
  rw [hg]

/-- Nothing is below the root directory of a new table. -/
theorem leaf_init : init.Leaf (rootInode + 1) := by
  intro m
  unfold init
  rw [getInode_addEntry, if_neg fun he => by cases he]
  simp [getInode]

theorem locate_init : init.locate ns = (rootInode + 1, ns) := by
  unfold locate
  cases ns with
  | nil => rfl
  | cons m ns => rw [NameTree.locate_cons, leaf_init m]

theorem walk_init : init.walk ns = some j ↔ ns = [] ∧ j = rootInode + 1 := by
  have hloc : NameTree.locate init.getInode (rootInode + 1) ns = (rootInode + 1, ns) :=
    locate_init
  rw [walk, ← NameTree.locate_eq_nil_iff, hloc, Prod.mk.injEq, eq_comm (a := j), and_comm]

theorem inverse_init : init.Inverse := by
  intro p i
  have hlisted : p ∈ init.toPaths i ↔ i = rootInode + 1 ∧ p.Rooted [] := by
    refine mem_toPaths_addEntry.trans ?_
    have hempty : p ∉ (⟨∅, ∅, ∅, 1⟩ : InodeTable).toPaths i := by
      unfold toPaths
      simp
    rw [or_iff_left hempty, Path.cmp_eq_iff]
    exact ⟨fun ⟨h1, h2⟩ => ⟨h1.symm, h2.symm⟩, fun ⟨h1, h2⟩ => ⟨h1.symm, h2.symm⟩⟩
  rw [hlisted, resolve_eq_some]
  constructor
  · intro h
    obtain ⟨rfl, hr⟩ := h
    exact ⟨[], hr, rfl⟩
  · intro h
    obtain ⟨ns, hr, hw⟩ := h
    obtain ⟨rfl, rfl⟩ := walk_init.mp hw
    exact ⟨rfl, hr⟩

/-! ## 2. Lookups -/

/-- An inode that was there has one path as before. -/
theorem OneWay.known (h : t.OneWay j) (hg : NameTree.Grows (t.nextInode ≤ ·) (rootInode + 1)
    t.getInode t'.getInode) (hj : j < t.nextInode) : t'.OneWay j := by
  intro us vs hus hvs hu hv
  exact h us vs hus hvs (hg.walk_old hu (Nat.not_le.mpr hj)) (hg.walk_old hv (Nat.not_le.mpr hj))

/-- The inodes that a lookup creates have one path, if the directory that they are created in
    has. -/
theorem LookedUp.oneWay_new (hl : t.LookedUp ns i t')
    (hc : (t.locate ns).2 = [] ∨ t.OneWay (t.locate ns).1) (hj : t.nextInode ≤ j) :
    t'.OneWay j := by
  intro us vs hus hvs hu hv
  refine NameTree.unique_of_fresh hl.grows (fun b n k hk hfresh hold xs ys hxs hys hx hy => ?_)
    hus hvs hu hv hj
  rcases hl.added b n k hk with hknown | ⟨zs, rest, he, hz⟩
  · exact absurd hfresh (hl.grows.old b n k hknown).2
  · have hz : t.walk zs = some b := hl.grows.walk_old hz hold
    have hfree : t.getInode b n = none := by
      by_contra hsome
      obtain ⟨k', hk'⟩ := Option.ne_none_iff_exists'.mp hsome
      cases (hl.grows.keeps b n k' hk').symm.trans hk
      exact absurd hfresh (hl.grows.old b n k hk').2
    have hloc : t.locate ns = (b, n :: rest) := by
      rw [he]
      exact NameTree.locate_of_missing hz hfree
    rw [hloc] at hc
    exact hc.resolve_left (List.cons_ne_nil _ _) xs ys hxs hys hx hy

/-- A way to an inode that a lookup creates is part of the way of the lookup. -/
theorem LookedUp.new_on_way (hl : t.LookedUp ns i t')
    (hc : (t.locate ns).2 = [] ∨ t.OneWay (t.locate ns).1) (hns : ∀ m ∈ ns, Path.IsName m)
    (hms : ∀ m ∈ ms, Path.IsName m) (hw : t'.walk ms = some j) (hj : t.nextInode ≤ j) :
    ms <+: ns ∧ t.walk ms = none := by
  have hpre : ms <+: ns := by
    rcases List.eq_nil_or_concat ms with rfl | ⟨us, n, rfl⟩
    · exact List.nil_prefix
    · rw [List.concat_eq_append] at hw hms ⊢
      obtain ⟨b, _, hbj⟩ := NameTree.walk_snoc_eq_some.mp hw
      rcases hl.added b n j hbj with hknown | ⟨zs, rest, he, hz⟩
      · exact absurd hj (hl.grows.old b n j hknown).2
      · -- the entry lies on the way of the lookup, and there is no other way to its inode
        have hway : t'.walk (zs ++ [n]) = some j := NameTree.walk_snoc_eq_some.mpr ⟨b, hz, hbj⟩
        have hzs : zs ++ [n] <+: ns := ⟨rest, by rw [he]; simp⟩
        rw [hl.oneWay_new hc hj _ _ hms (fun m hm => hns m (hzs.subset hm)) hw hway]
        exact hzs
  refine ⟨hpre, ?_⟩
  by_contra hsome
  obtain ⟨k, hk⟩ := Option.ne_none_iff_exists'.mp hsome
  have hk' : t'.walk ms = some k := NameTree.walk_mono hl.grows.keeps hk
  cases hk'.symm.trans hw
  exact absurd (NameTree.walk_closed (P := fun k => ¬ t.nextInode ≤ k)
    (fun a n k h => (hl.grows.old a n k h).2) hl.grows.root hk) (not_not.mpr hj)

/-- **A lookup keeps the inverse** if it creates nothing, or creates it below a directory with one
    path. -/
theorem Inverse.lookedUp (h : t.Inverse) (hl : t.LookedUp ns i t')
    (hns : ∀ m ∈ ns, Path.IsName m)
    (hc : (t.locate ns).2 = [] ∨ t.OneWay (t.locate ns).1) : t'.Inverse := by
  intro p j
  rw [hl.paths, h p j, resolve_eq_some, resolve_eq_some]
  constructor
  · intro hs
    rcases hs with ⟨xs, hr, hx⟩ | ⟨xs, _, _, hx, hr⟩
    · exact ⟨xs, hr, NameTree.walk_mono hl.grows.keeps hx⟩
    · exact ⟨xs, hr, hx⟩
  · intro hs
    obtain ⟨xs, hr, hx⟩ := hs
    by_cases hj : t.nextInode ≤ j
    · obtain ⟨hpre, hnone⟩ := hl.new_on_way hc hns hr.names hx hj
      exact .inr ⟨xs, hpre, hnone, hx, hr⟩
    · exact .inl ⟨xs, hr, hl.grows.walk_old hx hj⟩

/-! ## 3. Entries -/

/-- An entry is added to a directory with one path, and nothing is below its inode: one way is
    new. -/
theorem walk_addEntryWith_iff (hns : ∀ m ∈ ns, Path.IsName m) (ha : t.walk ns = some a)
    (hone : t.OneWay a) (hfree : t.getInode a k = none) (hleaf : t.Leaf i) (hai : a ≠ i)
    {xs : List String} (hxs : ∀ m ∈ xs, Path.IsName m) :
    (t.addEntryWith a k q i).walk xs = some j ↔
      t.walk xs = some j ∨ (xs = ns ++ [k] ∧ j = i) := by
  have hkeep : ∀ b m j, t.getInode b m = some j →
      (t.addEntryWith a k q i).getInode b m = some j := fun b m j =>
    getInode_addEntryWith_of_free hfree
  induction xs using List.reverseRecOn generalizing j with
  | nil => exact ⟨fun hx => .inl hx, fun hx => hx.resolve_right fun he => by simp at he⟩
  | append_singleton us n ih =>
      have hus : ∀ m ∈ us, Path.IsName m := fun m hm => hxs m (by simp [hm])
      constructor
      · intro hx
        obtain ⟨b, hb, hbj⟩ := NameTree.walk_snoc_eq_some.mp hx
        rw [getInode_addEntryWith] at hbj
        rcases (ih hus).mp hb with hb | ⟨_, rfl⟩
        · split at hbj
          · rename_i he
            cases he
            cases hbj
            exact .inr ⟨by rw [hone us ns hus hns hb ha], rfl⟩
          · exact .inl (NameTree.walk_snoc_eq_some.mpr ⟨b, hb, hbj⟩)
        · -- nothing is below the inode of the new entry
          rw [if_neg fun he => hai (Prod.mk.inj he).1, hleaf n] at hbj
          cases hbj
      · intro hs
        rcases hs with hx | ⟨he, rfl⟩
        · exact NameTree.walk_mono hkeep hx
        · rw [he]
          exact NameTree.walk_snoc_eq_some.mpr
            ⟨a, NameTree.walk_mono hkeep ha, getInode_addEntryWith_self⟩

/-- **A new entry keeps the inverse** if its directory has one path, the name is free and nothing
    is below the inode. -/
theorem Inverse.addEntryWith (h : t.Inverse) (hq : q.Rooted (ns ++ [k])) (ha : t.walk ns = some a)
    (hone : t.OneWay a) (hfree : t.getInode a k = none) (hleaf : t.Leaf i) (hai : a ≠ i) :
    (t.addEntryWith a k q i).Inverse := by
  have hns : ∀ m ∈ ns, Path.IsName m := fun m hm => hq.names m (by simp [hm])
  intro p j
  rw [mem_toPaths_addEntryWith, h p j, resolve_eq_some, resolve_eq_some, Path.cmp_eq_iff]
  constructor
  · intro hs
    rcases hs with ⟨rfl, hc⟩ | ⟨xs, hr, hx⟩
    · have hr : p.Rooted (ns ++ [k]) := hc.symm.trans hq
      refine ⟨_, hr, ?_⟩
      exact (walk_addEntryWith_iff hns ha hone hfree hleaf hai hr.names).mpr (.inr ⟨rfl, rfl⟩)
    · exact ⟨xs, hr, (walk_addEntryWith_iff hns ha hone hfree hleaf hai hr.names).mpr (.inl hx)⟩
  · intro hs
    obtain ⟨xs, hr, hx⟩ := hs
    rcases (walk_addEntryWith_iff hns ha hone hfree hleaf hai hr.names).mp hx with hx | ⟨rfl, rfl⟩
    · exact .inr ⟨xs, hr, hx⟩
    · exact .inl ⟨rfl, hq.trans hr.symm⟩

/-- An entry that is entered again. -/
theorem Inverse.addEntryWith_same (h : t.Inverse) (hq : q.Rooted (ns ++ [k]))
    (ha : t.walk ns = some a) (hi : t.getInode a k = some i) :
    (t.addEntryWith a k q i).Inverse := by
  refine h.congr ?_ fun j p => ?_
  · funext b m
    rw [getInode_addEntryWith]
    split
    · rename_i he
      cases he
      exact hi.symm
    · rfl
  · rw [mem_toPaths_addEntryWith]
    refine ⟨fun hp => hp.elim (fun ⟨he, hc⟩ => ?_) id, .inr⟩
    have hr : p.Rooted (ns ++ [k]) := (Path.cmp_eq_iff.mp hc).symm.trans hq
    rw [← he, h p i, resolve_rooted hr]
    exact NameTree.walk_snoc_eq_some.mpr ⟨a, ha, hi⟩

/-- An entry of a directory with one path is taken away, and nothing is below its inode: one way
    is lost. -/
theorem walk_dropEntry_iff {us xs : List String} (hone : t.OneWay a) (hus : ∀ m ∈ us, Path.IsName m)
    (hu : t.walk us = some a) (hi : t.getInode a n = some i) (hleaf : t.Leaf i)
    (hxs : ∀ m ∈ xs, Path.IsName m) :
    (t.dropEntry a n i q).walk xs = some j ↔ t.walk xs = some j ∧ xs ≠ us ++ [n] := by
  constructor
  · intro hx
    refine ⟨NameTree.walk_mono (fun _ _ _ => getInode_of_dropEntry) hx, ?_⟩
    intro hs
    subst hs
    obtain ⟨b, hb, hbj⟩ := NameTree.walk_snoc_eq_some.mp hx
    have hb : t.walk us = some b := NameTree.walk_mono (fun _ _ _ => getInode_of_dropEntry) hb
    cases hu.symm.trans hb
    rw [getInode_dropEntry_self] at hbj
    cases hbj
  · intro hs
    obtain ⟨hx, hne⟩ := hs
    have hpass : ¬ NameTree.Passes t.getInode (rootInode + 1) xs a n := by
      intro hs
      obtain ⟨zs, rest, he, hz⟩ := hs
      have hzs : zs = us := hone zs us (fun m hm => hxs m (by rw [he]; simp [hm])) hus hz hu
      subst hzs
      cases rest with
      | nil => exact hne he
      | cons y rest =>
          -- the way would lead on below the inode of the entry
          have hw : NameTree.walk t.getInode (rootInode + 1) (zs ++ n :: y :: rest) = some j := by
            rw [← he]
            exact hx
          rw [NameTree.walk_append, hz, Option.bind_some, NameTree.walk_cons, hi,
            Option.bind_some, NameTree.walk_cons, hleaf] at hw
          cases hw
    exact (NameTree.walk_of_not_passes (fun _ _ => getInode_dropEntry_of_ne) hpass).trans hx

/-- **An entry that is taken away keeps the inverse** if nothing is below its inode and its
    directory is not spelled with a slash at the end. -/
theorem Inverse.dropEntry (h : t.Inverse) (hpath : t.toPath a = some p)
    (hdot : p.components.getLast? ≠ some ".") (hi : t.getInode a n = some i) (hleaf : t.Leaf i)
    (hn : Path.IsName n) : (t.dropEntry a n i (p.append ⟨n⟩)).Inverse := by
  obtain ⟨us, hus, hu⟩ := resolve_eq_some.mp (h.toPath hpath).1
  have hone : t.OneWay a := h.oneWay (by rw [hpath]; rfl)
  have hlast : us.getLast? ≠ some "." := by
    intro hl
    refine hdot ?_
    rw [hus]
    cases us with
    | nil => cases hl
    | cons x us => rwa [List.getLast?_cons_cons]
  have hroot := hus.append hlast hn
  intro q j
  rw [mem_toPaths_dropEntry, h q j, resolve_eq_some, resolve_eq_some, Path.cmp_eq_iff]
  constructor
  · intro hs
    obtain ⟨⟨xs, hr, hx⟩, hno⟩ := hs
    refine ⟨xs, hr, (walk_dropEntry_iff hone hus.names hu hi hleaf hr.names).mpr ⟨hx, ?_⟩⟩
    intro hs
    subst hs
    refine hno ⟨?_, hroot.trans hr.symm⟩
    have hxi : t.walk (us ++ [n]) = some i := NameTree.walk_snoc_eq_some.mpr ⟨a, hu, hi⟩
    exact Option.some.inj (hxi.symm.trans hx)
  · intro hs
    obtain ⟨xs, hr, hx⟩ := hs
    obtain ⟨hx, hne⟩ := (walk_dropEntry_iff hone hus.names hu hi hleaf hr.names).mp hx
    refine ⟨⟨xs, hr, hx⟩, fun ⟨_, hc⟩ => hne ?_⟩
    exact hr.inj (hc.symm.trans hroot)

/-- The entry leads to an inode with nothing below it, if `RemoveEntry` takes it away. -/
def RemovesLeaf (t : InodeTable) (a : Nat) (n : String) : Prop :=
  t.openInodes.getValue (a, n) = none → ∀ i p, t.getInode a n = some i → t.toPath a = some p →
    t.Leaf i ∧ p.components.getLast? ≠ some "."

/-- **`RemoveEntry` keeps the inverse.** -/
theorem Inverse.removeEntry (h : t.Inverse) (hn : Path.IsName n) (hc : t.RemovesLeaf a n)
    (hr : t.removeEntry a n = some t') : t'.Inverse := by
  rcases removeEntry_cases hr with ⟨rfl, _⟩ | ⟨c, _, rfl⟩ | ⟨p, i, hp, ho, hi, rfl⟩
  · exact h
  · exact h.congr rfl fun j q => Iff.rfl
  · obtain ⟨hleaf, hdot⟩ := hc ho i p hi hp
    exact h.dropEntry hp hdot hi hleaf hn

theorem removesLeaf_of_walk (h : t.Inverse) (hns : ∀ m ∈ ns, Path.IsName m)
    (ha : t.walk ns = some a) (hdot : ns.getLast? ≠ some ".")
    (hleaf : ∀ i, t.getInode a n = some i → t.openInodes.getValue (a, n) = none →
      (t.toPath a).isSome → t.Leaf i) : t.RemovesLeaf a n := by
  intro ho i p hi hp
  refine ⟨hleaf i hi ho (by rw [hp]; rfl), ?_⟩
  rw [h.rooted_toPath hp hns ha]
  cases ns with
  | nil => simp
  | cons x ns => rwa [List.getLast?_cons_cons]

theorem Inverse.openInode (h : t.Inverse) : (t.openInode a n).Inverse := by
  rw [openInode_eq]
  exact h.congr rfl fun j q => Iff.rfl

/-- `CloseInode` keeps it if the last close of an unlinked entry does. -/
theorem Inverse.closeInode (h : t.Inverse) (hn : Path.IsName n)
    (hc : t.openInodes.getValue (a, n) = some (.unlinked, 1) →
      (t.dropOpen a n).RemovesLeaf a n) (hr : t.closeInode a n = some t') : t'.Inverse := by
  rcases closeInode_cases hr with ⟨rfl, _⟩ | ⟨_, rfl⟩ | ⟨ho, hr⟩ | ⟨ty, c, _, rfl⟩
  · exact h
  · exact h.congr rfl fun j q => Iff.rfl
  · have hdrop : (t.dropOpen a n).Inverse := h.congr rfl fun j q => Iff.rfl
    exact hdrop.removeEntry hn (hc ho) hr
  · exact h.congr rfl fun j q => Iff.rfl

/-! ## 4. Two paths -/

/-- The second of two lookups also creates below a directory with one path: one that the first
    lookup made, or the one where it would have ended before. -/
theorem LookedUp.oneWay_second (h₁ : t.LookedUp ms i t₁)
    (hc₁ : (t.locate ms).2 = [] ∨ t.OneWay (t.locate ms).1)
    (hc₂ : (t.locate (ns ++ [k])).2 = [] ∨ t.OneWay (t.locate (ns ++ [k])).1) :
    (t₁.locate ns).2 = [] ∨ t₁.OneWay (t₁.locate ns).1 := by
  rcases hloc : t₁.locate ns with ⟨d, _ | ⟨x, xs⟩⟩
  · exact .inl rfl
  · refine .inr ?_
    obtain ⟨us, hus, hu, hx⟩ := NameTree.locate_cons_spec hloc
    by_cases hd : t.nextInode ≤ d
    · exact h₁.oneWay_new hc₁ hd
    · have hu : t.walk us = some d := h₁.grows.walk_old hu hd
      have hx : t.getInode d x = none := by
        by_contra hsome
        obtain ⟨y, hy⟩ := Option.ne_none_iff_exists'.mp hsome
        rw [h₁.grows.keeps d x y hy] at hx
        cases hx
      have hbefore : t.locate (ns ++ [k]) = (d, x :: (xs ++ [k])) := by
        rw [hus, List.append_assoc]
        exact NameTree.locate_of_missing hu hx
      rw [hbefore] at hc₂
      exact (hc₂.resolve_left (List.cons_ne_nil _ _)).known h₁.grows (Nat.not_le.mp hd)

/-- The directory that the second lookup finds has one path. -/
theorem LookedUp.oneWay_dir (h₁ : t.LookedUp ms i t₁) (h₂ : t₁.LookedUp ns a t₂)
    (hc₁ : (t.locate ms).2 = [] ∨ t.OneWay (t.locate ms).1)
    (hc₂ : (t.locate (ns ++ [k])).2 = [] ∨ t.OneWay (t.locate (ns ++ [k])).1)
    (hfree : t.walk (ns ++ [k]) = none) : t₂.OneWay a := by
  by_cases ha₁ : t₁.nextInode ≤ a
  · exact h₂.oneWay_new (h₁.oneWay_second hc₁ hc₂) ha₁
  · by_cases ha : t.nextInode ≤ a
    · exact (h₁.oneWay_new hc₁ ha).known h₂.grows (Nat.not_le.mp ha₁)
    · have hns : t.walk ns = some a := (h₁.grows₂ h₂).walk_old h₂.found ha
      have hk : t.getInode a k = none := by
        rw [walk_snoc, hns] at hfree
        exact hfree
      have hloc : t.locate (ns ++ [k]) = (a, [k]) := NameTree.locate_of_missing hns hk
      rw [hloc] at hc₂
      exact (hc₂.resolve_left (List.cons_ne_nil _ _)).known (h₁.grows₂ h₂) (Nat.not_le.mp ha)

end Inverse

/-- The entries that a lookup of the path creates lie below a directory with one path. -/
def BelowOnePath (t : InodeTable) (p : Path) : Prop :=
  ∀ ns, p.Rooted ns → (t.locate ns).2 = [] ∨ (t.toPath (t.locate ns).1).isSome

/-- The new path of a link or a rename is the entry of the old one, or it is free and apart from
    it: neither path is on the way to the other, and nothing is below the inode of the old one. -/
def FreeAndApart (t : InodeTable) (p q : Path) : Prop :=
  ∀ os ns k, p.Rooted os → q.Rooted (ns ++ [k]) → t.locate (ns ++ [k]) = t.locate os ∨
    (t.walk (ns ++ [k]) = none ∧ (∀ i, t.walk os = some i → t.Leaf i) ∧
      (∀ xs, xs <+: ns → t.locate xs ≠ t.locate os) ∧
      ∀ xs, xs <+: os → t.locate xs ≠ t.locate (ns ++ [k]))

/-- The directory of the path is not spelled with a slash at the end. -/
def DirSpelled (p : Path) : Prop := ∀ ns n, p.Rooted (ns ++ [n]) → ns.getLast? ≠ some "."

/-- The entry of the path leads to an inode with nothing below it, if an unlink takes it away. -/
def RemovesLeafAt (t : InodeTable) (p : Path) : Prop :=
  DirSpelled p ∧ ∀ ns n a i, p.Rooted (ns ++ [n]) → t.walk ns = some a →
    t.getInode a n = some i → t.openInodes.getValue (a, n) = none → (t.toPath a).isSome → t.Leaf i

section TwoPaths

variable {t t₁ t₂ u : InodeTable} {p q : Path} {ns os : List String} {n k : String} {a b i : Nat}

theorem Inverse.below (h : t.Inverse) (hb : t.BelowOnePath p) (hp : p.Rooted os) :
    (t.locate os).2 = [] ∨ t.OneWay (t.locate os).1 :=
  (hb os hp).imp_right h.oneWay

/-- A new name that was free and is not on the way to the old path is free after the lookups. -/
theorem LookedUp.free_second (h₁ : t.LookedUp os i t₁) (h₂ : t₁.LookedUp ns a t₂)
    (hnone : t.walk (ns ++ [k]) = none)
    (hoff : ∀ xs, xs <+: os → t.locate xs ≠ t.locate (ns ++ [k])) : t₂.getInode a k = none := by
  by_contra hsome
  obtain ⟨x, hx⟩ := Option.ne_none_iff_exists'.mp hsome
  rw [h₂.getInode_eq k] at hx
  obtain ⟨c, hc, hcx⟩ := NameTree.walk_snoc_eq_some.mp hx
  rcases h₁.added c k x hcx with hknown | ⟨xs, ys, he, hxs⟩
  · have hcold := (h₁.grows.old c k x hknown).1
    have hw : t.walk (ns ++ [k]) = some x :=
      NameTree.walk_snoc_eq_some.mpr ⟨c, h₁.grows.walk_old hc hcold, hknown⟩
    rw [hnone] at hw
    cases hw
  · have hway : t₁.walk (xs ++ [k]) = some x :=
      NameTree.walk_snoc_eq_some.mpr ⟨c, hxs, hcx⟩
    exact hoff (xs ++ [k]) ⟨ys, by rw [he]; simp⟩
      (NameTree.locate_eq_of_walk_eq h₁.grows hway hx)

/-- Nothing is below the inode of the old path after the lookups, if nothing was and it is not on
    the way to the new one. -/
theorem LookedUp.leaf_second (h₁ : t.LookedUp os i t₁) (h₂ : t₁.LookedUp ns a t₂)
    (hleaf : ∀ j, t.walk os = some j → t.Leaf j)
    (hoff : ∀ xs, xs <+: ns → t.locate xs ≠ t.locate os) : t₂.Leaf i := by
  intro n
  by_contra hsome
  obtain ⟨x, hx⟩ := Option.ne_none_iff_exists'.mp hsome
  rcases h₂.added i n x hx with hknown | ⟨xs, ys, he, hxs⟩
  · have hnochild : t₁.getInode i n = none := by
      cases ho : t.walk os with
      | none => exact h₁.childless (h₁.of_none ho) n
      | some j =>
          obtain ⟨rfl, rfl⟩ := h₁.of_some ho
          exact hleaf i ho n
    rw [hnochild] at hknown
    cases hknown
  · have hold : t₂.walk os = some i := NameTree.walk_mono h₂.grows.keeps h₁.found
    exact hoff xs ⟨n :: ys, he.symm⟩ (NameTree.locate_eq_of_walk_eq (h₁.grows₂ h₂) hxs hold)

/-- **The two lookups and the new entry of a link or a rename keep the inverse.** -/
theorem Inverse.linked (h : t.Inverse) (hp : p.Rooted os) (hq : q.Rooted (ns ++ [k]))
    (hbp : t.BelowOnePath p) (hbq : t.BelowOnePath q) (hfree : t.FreeAndApart p q)
    (h₁ : t.LookedUp os i t₁) (h₂ : t₁.LookedUp ns a t₂) :
    (t₂.addEntryWith a k q i).Inverse ∧
      (t₂.getInode a k = some i ∧ t₂ = t₁ ∨
        t₂.getInode a k = none ∧ (t₂.addEntryWith a k q i).walk os = some i ∧
          (t₂.addEntryWith a k q i).Leaf i) := by
  have hns : ∀ m ∈ ns, Path.IsName m := fun m hm => hq.names m (by simp [hm])
  have hc₁ := h.below hbp hp
  have hinv₁ := h.lookedUp h₁ hp.names hc₁
  have hc₂ := h.below hbq hq
  rcases hfree os ns k hp hq with hsame | ⟨hnone, hleaf, hoff, hoff'⟩
  · -- one place: the lookup of the old path has found or made the new one too
    have hent := (sameEntry_iff h₁ h₂).mpr hsame
    have hfull : t₁.walk (ns ++ [k]) = some i :=
      (NameTree.walk_eq_of_locate_eq h₁.grows.keeps hsame).trans h₁.found
    obtain ⟨c, hc, _⟩ := NameTree.walk_snoc_eq_some.mp hfull
    obtain ⟨rfl, rfl⟩ := h₂.of_some hc
    exact ⟨hinv₁.addEntryWith_same hq hc hent, .inl ⟨hent, rfl⟩⟩
  · have hinv₂ := hinv₁.lookedUp h₂ hns (h₁.oneWay_second hc₁ hc₂)
    have hone := h₁.oneWay_dir h₂ hc₁ hc₂ hnone
    have hfree₂ := h₁.free_second h₂ hnone hoff'
    have hold₂ : t₂.walk os = some i := NameTree.walk_mono h₂.grows.keeps h₁.found
    have hleaf₂ := h₁.leaf_second h₂ hleaf hoff
    have hai : a ≠ i := by
      intro hs
      subst hs
      exact hoff ns (List.prefix_refl _)
        (NameTree.locate_eq_of_walk_eq (h₁.grows₂ h₂) h₂.found hold₂)
    have hleaf₃ : (t₂.addEntryWith a k q i).Leaf i := by
      intro n
      rw [getInode_addEntryWith_of_ne fun he => hai (Prod.mk.inj he).1.symm]
      exact hleaf₂ n
    have hold₃ : (t₂.addEntryWith a k q i).walk os = some i :=
      NameTree.walk_mono (fun _ _ _ => getInode_addEntryWith_of_free hfree₂) hold₂
    exact ⟨hinv₂.addEntryWith hq h₂.found hone hfree₂ hleaf₂ hai,
      .inr ⟨hfree₂, hold₃, hleaf₃⟩⟩

end TwoPaths

end InodeTable

open FSAnalyzer InodeTable

/-! ## 5. One step -/

/-- The path that an `hpath` comes to: the target of a known link, or the path itself. -/
def dereferenced (st : FsState) (p : Path) : Path :=
  match st.inodeTable.resolve p with
  | some i => followed st.symlinkTable i p
  | none => p

/-- The path that `AnalyzeHpath` follows is known before the lookup. -/
theorem followed_eq {st : FsState} (hw : st.tables.WellFormed) {p : Path} {ns : List String}
    (hp : p.Rooted ns) {i : Nat} {t : InodeTable} (hl : st.inodeTable.LookedUp ns i t) :
    followed st.symlinkTable i p = dereferenced st p := by
  unfold dereferenced
  rw [InodeTable.resolve_rooted hp]
  cases hwalk : st.inodeTable.walk ns with
  | some j =>
      obtain ⟨_, rfl⟩ := hl.of_some hwalk
      rfl
  | none =>
      unfold followed
      cases hv : st.symlinkTable.getValue i with
      | none => rfl
      | some r => exact absurd (hw.links i r hv) (Nat.not_lt.mpr (hl.of_none hwalk))

/-- **A step keeps the reverse table the inverse of the forward one.** -/
def KeepsInverse (st : FsState) : FsAction → Prop
  | .charge _ | .newEvent _ => True
  | .operation op =>
      match op.kind with
      | .newFd dirfd path fd =>
          0 ≤ fd → ∀ p, getAbsolutePath st dirfd ⟨path⟩ = some p → p.Named →
            st.inodeTable.resolve p = none ∧ st.inodeTable.BelowOnePath p
      | .delFd fd =>
          ∀ a n, st.fdTable.getValue (st.mainProcess, fd) = some (a, n) →
            st.inodeTable.openInodes.getValue (a, n) = some (.unlinked, 1) →
            (st.inodeTable.dropOpen a n).RemovesLeaf a n
      | .hpath dirfd path effect =>
          ∀ p, getAbsolutePath st dirfd ⟨path⟩ = some p → st.inodeTable.BelowOnePath p ∧
            (effect = .expunged → st.inodeTable.RemovesLeafAt (dereferenced st p))
      | .hpathSym dirfd path effect =>
          effect = .expunged → ∀ p, getAbsolutePath st dirfd ⟨path⟩ = some p →
            st.inodeTable.RemovesLeafAt p
      | .link oldDirfd oldPath newDirfd newPath =>
          ∀ p q, getAbsolutePath st oldDirfd ⟨oldPath⟩ = some p →
            getAbsolutePath st newDirfd ⟨newPath⟩ = some q →
            st.inodeTable.BelowOnePath p ∧ st.inodeTable.BelowOnePath q ∧
              st.inodeTable.FreeAndApart p q
      | .rename oldDirfd oldPath newDirfd newPath =>
          ∀ p q, getAbsolutePath st oldDirfd ⟨oldPath⟩ = some p →
            getAbsolutePath st newDirfd ⟨newPath⟩ = some q →
            st.inodeTable.BelowOnePath p ∧ st.inodeTable.BelowOnePath q ∧
              st.inodeTable.FreeAndApart p q ∧ DirSpelled p
      | .symlink dirfd path _ =>
          ∀ p, getAbsolutePath st dirfd ⟨path⟩ = some p → st.inodeTable.BelowOnePath p

/-- The invariant of a run: the inverse, and descriptors of entries under names. -/
structure Mirrored (f : FileTables) : Prop where
  inverse : f.inodes.Inverse
  names : ∀ d a n, f.fds.getValue d = some (a, n) → Path.IsName n

section Steps

variable {st : FsState} {t t' u : InodeTable} {p : Path} {a : Nat}

/-- The unlink of a path whose directory is there. -/
theorem inverse_unlink (hw : t.WellFormed) (h : t.Inverse)
    (hc : t.RemovesLeafAt p) (ht : t.toInode p.parentPath = some (a, t'))
    (hr : t'.removeEntry a p.filename.native = some u) : u.Inverse := by
  obtain ⟨ns, n, hp, hn, hl⟩ := toInode_parent_spec hw ht
  have hns : ∀ m ∈ ns, Path.IsName m := fun m hm => hp.names m (by simp [hm])
  -- an unlink in a directory that it has to create misses its key
  have hunlink : t.Unlinkable p := by
    by_contra hno
    obtain ⟨b, t'', ht'', hnone⟩ := (unlink_misses_iff hw).mpr hno
    cases ht.symm.trans ht''
    rw [hr] at hnone
    cases hnone
  obtain ⟨b, hb, _⟩ := hunlink (Path.named_iff.mpr ⟨ns, n, hp⟩)
  rw [hp.parentPath, resolve_rooted (Path.rooted_ofNames hns)] at hb
  obtain ⟨rfl, rfl⟩ := hl.of_some hb
  rw [hn] at hr
  refine h.removeEntry (hp.names n (by simp)) ?_ hr
  exact removesLeaf_of_walk h hns hb (hc.1 ns n hp) fun i => hc.2 ns n a i hp hb

/-- The lookup of a path changes nothing for the unlink of what the path comes to. -/
theorem removesLeafAt_followed {ns : List String} {i : Nat} (hw : st.tables.WellFormed)
    (hr : p.Rooted ns) (hl : st.inodeTable.LookedUp ns i t)
    (hc : st.inodeTable.RemovesLeafAt (dereferenced st p)) :
    t.RemovesLeafAt (followed st.symlinkTable i p) := by
  unfold dereferenced at hc
  rw [resolve_rooted hr] at hc
  cases hwalk : st.inodeTable.walk ns with
  | some j =>
      obtain ⟨rfl, rfl⟩ := hl.of_some hwalk
      rw [hwalk] at hc
      exact hc
  | none =>
      -- the path is new: it is no link, and nothing is below it
      rw [hwalk] at hc
      have hnew := hl.of_none hwalk
      have hfollow : followed st.symlinkTable i p = p := by
        unfold followed
        cases hlink : st.symlinkTable.getValue i with
        | none => rfl
        | some target => exact absurd hnew (Nat.not_le.mpr (hw.links i target hlink))
      rw [hfollow]
      refine ⟨hc.1, fun ms m b j hm hb hj _ _ => ?_⟩
      cases hr.inj hm
      have hfound : t.walk (ms ++ [m]) = some j := NameTree.walk_snoc_eq_some.mpr ⟨b, hb, hj⟩
      cases hl.found.symm.trans hfound
      exact hl.childless hnew

end Steps

/-- **A step that meets the condition keeps the invariant.** -/
theorem Outcome.mirrored {st : FsState} {act : FsAction} {f : FileTables}
    (hw : st.tables.WellFormed) (h : Mirrored st.tables) (hc : KeepsInverse st act)
    (ho : Outcome st act f) : Mirrored f := by
  have hinv : st.inodeTable.Inverse := h.inverse
  have hwt : st.inodeTable.WellFormed := hw.inodes
  cases ho with
  | idle _ => exact h
  | @newFd op dirfd path fd p a t hop hfd hp ht =>
      unfold KeepsInverse at hc
      simp only [hop] at hc
      obtain ⟨ns, n, hr, hn, hl⟩ := toInode_parent_spec hwt ht
      obtain ⟨hnone, hbelow⟩ := hc hfd p hp (Path.named_iff.mpr ⟨ns, n, hr⟩)
      rw [resolve_rooted hr] at hnone
      have hnew := hl.snoc hwt hr
      rw [hnone] at hnew
      rw [hn]
      refine ⟨(hinv.lookedUp hnew hr.names (hinv.below hbelow hr)).openInode, fun d b m hd => ?_⟩
      rw [Table.getValue_addEntry] at hd
      split at hd
      · cases hd
        exact hr.names n (by simp)
      · exact h.names d b m hd
  | @delFd op fd key t hop hk ht =>
      unfold KeepsInverse at hc
      simp only [hop] at hc
      refine ⟨hinv.closeInode (h.names _ key.1 key.2 hk) (hc key.1 key.2 hk) ht,
        fun d b m hd => ?_⟩
      rw [Table.getValue_erase] at hd
      split at hd
      · cases hd
      · exact h.names d b m hd
  | @lookup op dirfd path effect p i t hop _ hp ht =>
      unfold KeepsInverse at hc
      simp only [hop] at hc
      obtain ⟨ns, hr, hl⟩ := toInode_spec hwt ht
      exact ⟨hinv.lookedUp hl hr.names (hinv.below (hc p hp).1 hr), h.names⟩
  | @expunge op dirfd path p i a t t' t'' hop hp ht ht' hrem =>
      unfold KeepsInverse at hc
      simp only [hop] at hc
      obtain ⟨hbelow, hleaf⟩ := hc p hp
      obtain ⟨ns, hr, hl⟩ := toInode_spec hwt ht
      have hinv₁ := hinv.lookedUp hl hr.names (hinv.below hbelow hr)
      have hafter := removesLeafAt_followed hw hr hl (hleaf trivial)
      exact ⟨inverse_unlink hl.wellFormed hinv₁ hafter ht' hrem, h.names⟩
  | @expungeSym op dirfd path p a t t' hop hp ht hrem =>
      unfold KeepsInverse at hc
      simp only [hop] at hc
      exact ⟨inverse_unlink hwt hinv (hc trivial p hp) ht hrem, h.names⟩
  | @link op od nd op' np p q i a t t' hop hp hq ht ht' =>
      unfold KeepsInverse at hc
      simp only [hop] at hc
      obtain ⟨hbp, hbq, hfree⟩ := hc p q hp hq
      obtain ⟨os, hr, hl⟩ := toInode_spec hwt ht
      obtain ⟨ns, k, hr', hk, hl'⟩ := toInode_parent_spec hl.wellFormed ht'
      rw [hk]
      exact ⟨(hinv.linked hr hr' hbp hbq hfree hl hl').1, h.names⟩
  | @renameSame op od nd op' np p q i a t t' hop hp hq ht ht' hs =>
      unfold KeepsInverse at hc
      simp only [hop] at hc
      obtain ⟨hbp, hbq, hfree, _⟩ := hc p q hp hq
      obtain ⟨os, hr, hl⟩ := toInode_spec hwt ht
      obtain ⟨ns, k, hr', hk, hl'⟩ := toInode_parent_spec hl.wellFormed ht'
      rw [hk] at hs
      rcases (hinv.linked hr hr' hbp hbq hfree hl hl').2 with ⟨_, rfl⟩ | ⟨hnone, _⟩
      · exact ⟨hinv.lookedUp hl hr.names (hinv.below hbp hr), h.names⟩
      · rw [hnone] at hs
        cases hs
  | @rename op od nd op' np p q i a b t t' t'' u hop hp hq ht ht' hs ht'' hrem =>
      unfold KeepsInverse at hc
      simp only [hop] at hc
      obtain ⟨hbp, hbq, hfree, hspell⟩ := hc p q hp hq
      obtain ⟨os, hr, hl⟩ := toInode_spec hwt ht
      obtain ⟨ns, k, hr', hk, hl'⟩ := toInode_parent_spec hl.wellFormed ht'
      rw [hk] at hs ht''
      obtain ⟨hinv₃, hcase⟩ := hinv.linked hr hr' hbp hbq hfree hl hl'
      obtain ⟨_, hold, hleaf⟩ := hcase.resolve_left fun h => hs h.1
      have hw₃ := hl'.wellFormed.addEntryWith hl'.lt (hl.lt.trans_le hl'.nextInode) k q
      refine ⟨inverse_unlink hw₃ hinv₃ ⟨hspell, fun ms m c j hm hwalk hj _ _ => ?_⟩ ht'' hrem,
        h.names⟩
      cases hr.inj hm
      have hfound := NameTree.walk_snoc_eq_some.mpr ⟨c, hwalk, hj⟩
      cases hold.symm.trans hfound
      exact hleaf
  | @symlink op dirfd path target p i t hop hp ht =>
      unfold KeepsInverse at hc
      simp only [hop] at hc
      obtain ⟨ns, hr, hl⟩ := toInode_spec hwt ht
      exact ⟨hinv.lookedUp hl hr.names (hinv.below (hc p hp) hr), h.names⟩

/-! ## 6. Runs -/

/-- `ToPath` finds the path of every inode that one path leads to. -/
def ToPathCurrent (t : InodeTable) : Prop :=
  ∀ p i, t.resolve p = some i → (∀ q, t.resolve q = some i → Path.cmp p q = .eq) →
    ∃ q, t.toPath i = some q ∧ Path.cmp p q = .eq

theorem toPathCurrent_of_inverse {t : InodeTable} (h : t.Inverse) : ToPathCurrent t := by
  intro p i hp huniq
  have hmem := (h p i).mpr hp
  obtain ⟨q, hq⟩ := toPath_isSome hmem fun r hr => huniq r ((h r i).mp hr)
  exact ⟨q, hq, huniq q (h.toPath hq).1⟩

/-- **The reverse table of a run**: in every state that a list of actions comes to after the
    set-up for `t`, it is the inverse of the forward one, and `ToPath` goes by it. -/
def InverseIn (t : Trace) (as : List FsAction) : Prop :=
  ∀ st₀ bs st, setUp t = .ok st₀ → bs <+: as → fsRun st₀ bs = .ok st →
    st.inodeTable.Inverse ∧ ToPathCurrent st.inodeTable

theorem mirrored_setUp {t : Trace} {st : FsState} (h : setUp t = .ok st) :
    Mirrored st.tables := by
  obtain ⟨i, u, hu, ht, _, _⟩ := setUp_eq_ok h
  obtain ⟨ns, hr, hl⟩ := toInode_spec wellFormed_init hu
  have hroot : init.OneWay (rootInode + 1) := by
    refine inverse_init.oneWay ?_
    decide
  rw [ht]
  refine ⟨inverse_init.lookedUp hl hr.names (.inr ?_), fun d a n hd => by simp at hd⟩
  rw [locate_init]
  exact hroot

/-- **The reverse table is the inverse in every state of a run whose steps keep it.** -/
theorem inverseIn_of_keeps {t : Trace} {as : List FsAction}
    (h : ∀ st₀, setUp t = .ok st₀ → EachStep KeepsInverse st₀ as) : InverseIn t as := by
  intro st₀ bs st h0 hbs hrun
  have hinit : st₀.tables.WellFormed ∧ Mirrored st₀.tables :=
    ⟨wellFormed_setUp h0, mirrored_setUp h0⟩
  have hkeep : ∀ st₁ a st₂, KeepsInverse st₁ a → fsStep st₁ a = .ok st₂ →
      st₁.tables.WellFormed ∧ Mirrored st₁.tables →
      st₂.tables.WellFormed ∧ Mirrored st₂.tables := by
    intro st₁ a st₂ hc hstep hboth
    obtain ⟨hw, hm⟩ := hboth
    have hout := (outcome_step hstep).2
    exact ⟨hout.wellFormed hw, hout.mirrored hw hm hc⟩
  have hend := fsRun_invariant (P := fun st => st.tables.WellFormed ∧ Mirrored st.tables)
    hkeep hinit ((h st₀ h0).mono hbs) hrun
  exact ⟨hend.2.inverse, toPathCurrent_of_inverse hend.2.inverse⟩

/-- A directory with a file in it is renamed. -/
def renamedDir : Trace where
  threadId := 1
  cwd := "/home"
  execOps := [⟨"sync_1", [⟨.hpath atFdcwd "/d/x" .produced, false, "open"⟩,
    ⟨.rename atFdcwd "/d" atFdcwd "/e", false, "rename"⟩]⟩]
  blocks := [⟨1, .MAIN, [.submitOp ⟨"sync_1", none, ["node_rename"]⟩]⟩]

theorem inverseIn_of_keeps_firstLookup :
    InverseIn renamedDir [.operation ⟨.hpath atFdcwd "/d/x" .produced, false, "open"⟩] := by
  refine inverseIn_of_keeps fun st₀ h0 bs a st hp hrun => ?_
  have hlen := hp.length_le
  rw [List.length_append, List.length_singleton, List.length_singleton] at hlen
  have hbs : bs = [] := List.length_eq_zero_iff.mp (by omega)
  subst hbs
  cases List.singleton_prefix_cons_iff.mp hp
  cases hrun
  have hset : ((setUp renamedDir).toOption.map fun st =>
      (st.inodeTable.toPath (st.inodeTable.locate ["d", "x"]).1).isSome) = some true := by
    decide +kernel
  obtain ⟨st, hst, hpath⟩ := Option.map_eq_some_iff.mp hset
  cases (toOption_eq_some.mp hst).symm.trans h0
  have habs : getAbsolutePath st₀ atFdcwd ⟨"/d/x"⟩ = some ⟨"/d/x"⟩ := rfl
  intro p hp
  cases hp.symm.trans habs
  refine ⟨fun ns hns => ?_, nofun⟩
  have hnames : Path.Rooted ⟨"/d/x"⟩ ["d", "x"] := by decide
  cases hns.inj hnames
  exact .inr hpath

/-- After a trace that the parser accepts, "/e/x" leads to an inode that does not list it. -/
theorem inverseIn_fails :
    ¬ ∀ t, TraceParser.Accepts t → InverseIn t t.fsActions := by
  intro h
  have hp : TraceParser.parse (dump renamedDir) = .ok renamedDir := by decide +kernel
  have hrun : ((analyzeTrace .init renamedDir).toOption.map fun st =>
      (st.inodeTable.resolve ⟨"/e/x"⟩, decide (⟨"/e/x"⟩ ∈ st.inodeTable.toPaths 4))) =
      some (some 4, false) := by decide +kernel
  obtain ⟨st, hst, hall⟩ := Option.map_eq_some_iff.mp hrun
  obtain ⟨hres, hlisted⟩ := Prod.mk.inj hall
  obtain ⟨st₀, h0, hrun⟩ := analyzeTrace_eq_ok.mp (toOption_eq_some.mp hst)
  obtain ⟨hinv, _⟩ := h renamedDir ⟨_, hp⟩ st₀ _ st h0 (List.prefix_refl _) hrun
  exact of_decide_eq_false hlisted ((hinv _ _).mpr hres)

end Fsracer

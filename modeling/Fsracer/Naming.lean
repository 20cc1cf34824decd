/-
  File:      Fsracer/Naming.lean
  Subject:   INODE NUMBERS AS NAMES OF PATHS: the tables that lookups and removals alone lead to.

  A run of `ToInode` on normalised paths and of `RemoveEntry` on paths that are there keeps, for
  every list of names that leads to an inode, exactly one path at that inode, spelled as the names
  are (`Naming`). Entries below a removed directory stay behind under the number of the directory,
  which is not handed out again. **`faithfulNaming`** collects what follows for the four ways in
  which the numbers are used.
-/
import Mathlib
import Fsracer.ReverseTable

namespace Fsracer

/-- An absolute path without empty names, "." and "..". -/
def Path.Normalised (p : Path) : Prop :=
  ∃ ns, (∀ n ∈ ns, Path.IsName n ∧ n ≠ "." ∧ n ≠ "..") ∧ p = Path.ofNames ns

namespace InodeTable

/-! ## 1. The runs and their invariant -/

/-- The tables that the calls lead to from a new one, with the inodes that `ToInode` has
    returned. -/
inductive Issued : InodeTable → List Nat → Prop where
  | start : Issued .init []
  | toInode {t t' : InodeTable} {is : List Nat} {p : Path} {i : Nat} (h : Issued t is)
      (hp : p.Normalised) (ht : t.toInode p = some (i, t')) : Issued t' (is ++ [i])
  | removeEntry {t t' t'' : InodeTable} {is : List Nat} {p : Path} {a : Nat} (h : Issued t is)
      (hp : p.Normalised) (hroot : p ≠ ⟨"/"⟩) (hpresent : (t.resolve p).isSome)
      (ht : t.toInode p.parentPath = some (a, t'))
      (hclosed : t'.openInodes.getValue (a, p.filename.native) = none)
      (hr : t'.removeEntry a p.filename.native = some t'') : Issued t'' (is ++ [a])

/-- **The numbers name the paths.** -/
structure Naming (t : InodeTable) : Prop where
  wellFormed : t.WellFormed
  closed : ∀ key, t.openInodes.getValue key = none
  paths : ∀ ns i, (∀ n ∈ ns, Path.IsName n) → t.walk ns = some i →
    ∀ q, q ∈ t.toPaths i ↔ q.Rooted ns
  spelled : ∀ i q, q ∈ (t.toPaths i).toList →
    ∃ ns, (∀ n ∈ ns, Path.IsName n) ∧ q = Path.ofNames ns

section Facts

variable {t t' : InodeTable} {ns ms : List String} {p : Path} {i : Nat}

/-- One list of names leads to an inode. -/
theorem Naming.oneWay (h : t.Naming) (i : Nat) : t.OneWay i := by
  intro us vs hus hvs hu hv
  have hmem := (h.paths us i hus hu (Path.ofNames us)).mpr (Path.rooted_ofNames hus)
  exact (Path.rooted_ofNames hus).inj ((h.paths vs i hvs hv _).mp hmem)

/-- `ToPath` returns the path as it is spelled. -/
theorem mem_toList_of_toPath (h : t.toPath i = some p) : p ∈ (t.toPaths i).toList := by
  unfold toPath at h
  split at h
  · rename_i hl
    cases h
    rw [hl]
    exact List.mem_singleton_self _
  · cases h

/-- `ToPath` spells the path as its names are. -/
theorem Naming.toPath (h : t.Naming) (hns : ∀ n ∈ ns, Path.IsName n) (hw : t.walk ns = some i) :
    t.toPath i = some (Path.ofNames ns) := by
  have hmem := (h.paths ns i hns hw _).mpr (Path.rooted_ofNames hns)
  have honly : ∀ q ∈ t.toPaths i, Path.cmp (Path.ofNames ns) q = .eq := fun q hq =>
    Path.cmp_eq_iff.mpr ((Path.rooted_ofNames hns).trans ((h.paths ns i hns hw q).mp hq).symm)
  obtain ⟨q, hq⟩ := toPath_isSome hmem honly
  obtain ⟨ms, hms, rfl⟩ := h.spelled i q (mem_toList_of_toPath hq)
  have hrooted := (h.paths ns i hns hw _).mp (toPath_eq_some hq).1
  rw [hq, (Path.rooted_ofNames hms).inj hrooted]

/-- The paths of an inode as they are spelled, after an entry. -/
theorem mem_toList_addEntryWith {a j : Nat} {n : String} {q : Path}
    (h : q ∈ ((t.addEntryWith a n p i).toPaths j).toList) :
    (i = j ∧ q = p) ∨ q ∈ (t.toPaths j).toList := by
  rw [toPaths_addEntryWith] at h
  split at h
  · rename_i hij
    subst hij
    exact (Ordered.mem_toList_insert h).imp_left fun he => ⟨rfl, he⟩
  · exact .inr h

/-- The paths of an inode as they are spelled, after an entry is dropped. -/
theorem mem_toList_dropEntry {a j : Nat} {n : String} {q : Path}
    (h : q ∈ ((t.dropEntry a n i p).toPaths j).toList) : q ∈ (t.toPaths j).toList := by
  have hsets : (t.dropEntry a n i p).toPaths j = t.toPaths j ∨
      (t.dropEntry a n i p).toPaths j = (t.toPaths j).erase p ∨
      (t.dropEntry a n i p).toPaths j = ∅ := by
    unfold dropEntry revWithout toPaths
    dsimp only
    cases hi : t.revTable[i]? with
    | none => exact .inl rfl
    | some paths =>
        dsimp only
        by_cases hempty : (paths.erase p).isEmpty = true
        · rw [if_pos hempty, Std.TreeMap.getElem?_erase]
          by_cases hij : compare i j = .eq
          · rw [if_pos hij]
            exact .inr (.inr rfl)
          · rw [if_neg hij]
            exact .inl rfl
        · rw [if_neg hempty, Std.TreeMap.getElem?_insert]
          by_cases hij : compare i j = .eq
          · rw [if_pos hij, ← Std.compare_eq_iff_eq.mp hij, hi]
            exact .inr (.inl rfl)
          · rw [if_neg hij]
            exact .inl rfl
  rcases hsets with hsame | hless | hnone
  · rwa [hsame] at h
  · rw [hless] at h
    exact Ordered.mem_toList_of_erase h
  · rw [hnone] at h
    cases h

theorem naming_init : init.Naming where
  wellFormed := wellFormed_init
  closed key := by simp [init]
  paths ns i hns hw q := by
    obtain ⟨rfl, rfl⟩ := walk_init.mp hw
    rw [inverse_init q (rootInode + 1), resolve_eq_some]
    constructor
    · intro h
      obtain ⟨ms, hq, hms⟩ := h
      rwa [(walk_init.mp hms).1] at hq
    · intro hq
      exact ⟨[], hq, rfl⟩
  spelled i q hq := by
    rcases mem_toList_addEntryWith (a := rootInode) (n := "/") (t := ⟨∅, ∅, ∅, 1⟩) hq
      with ⟨_, rfl⟩ | hq
    · refine ⟨[], ?_, by decide⟩
      intro m hm
      cases hm
    · simp only [toPaths, Std.TreeMap.getElem?_emptyc] at hq
      cases hq

end Facts

/-! ## 2. Lookups -/

section Lookups

variable {t t' : InodeTable} {ns : List String} {i : Nat}

/-- A lookup spells the new paths as their names are. -/
theorem spelled_toInodeLoop (k : Nat) (hns : ∀ n ∈ ns, Path.IsName n)
    (h : t.toInodeLoop k (Path.ofNames ns) = some (i, t')) {j : Nat} {q : Path}
    (hq : q ∈ (t'.toPaths j).toList) : q ∈ (t.toPaths j).toList ∨
      ∃ ms, (∀ n ∈ ms, Path.IsName n) ∧ q = Path.ofNames ms := by
  induction ns using List.reverseRecOn generalizing k i t' with
  | nil =>
      cases k with
      | zero => cases h
      | succ k =>
          rw [toInodeLoop_root (Path.rooted_ofNames hns)] at h
          cases h
          exact .inl hq
  | append_singleton ns n ih =>
      cases k with
      | zero => cases h
      | succ k =>
          rw [toInodeLoop_snoc (Path.rooted_ofNames hns)] at h
          obtain ⟨r, hr, he⟩ := Option.map_eq_some_iff.mp h
          have ih := fun hq => ih k (fun m hm => hns m (by simp [hm])) hr hq
          split at he
          · cases he
            exact ih hq
          · cases he
            rcases mem_toList_addEntryWith (a := r.1) (n := n) hq with ⟨_, rfl⟩ | hq
            · exact .inr ⟨_, hns, rfl⟩
            · exact ih hq

/-- **A lookup keeps the naming.** -/
theorem Naming.lookedUp (h : t.Naming) (hns : ∀ n ∈ ns, Path.IsName n)
    (ht : t.toInode (Path.ofNames ns) = some (i, t')) : t'.Naming ∧ t.LookedUp ns i t' := by
  obtain ⟨ms, hr, hl⟩ := toInode_spec h.wellFormed ht
  cases (Path.rooted_ofNames hns).inj hr
  have hone : (t.locate ns).2 = [] ∨ t.OneWay (t.locate ns).1 := .inr (h.oneWay _)
  refine ⟨⟨hl.wellFormed, fun key => by rw [hl.openInodes]; exact h.closed key, ?_, ?_⟩, hl⟩
  · intro ms j hms hw q
    by_cases hj : t.nextInode ≤ j
    · have hnew : q ∉ t.toPaths j := fun hq =>
        absurd (h.wellFormed.listed j q hq) (Nat.not_lt.mpr hj)
      rw [hl.paths, or_iff_right hnew]
      constructor
      · intro hc
        obtain ⟨us, hus, _, hu, hq⟩ := hc
        rwa [hl.oneWay_new hone hj ms us hms (fun m hm => hns m (hus.subset hm)) hw hu]
      · intro hq
        obtain ⟨hpre, hnone⟩ := hl.new_on_way hone hns hms hw hj
        exact ⟨ms, hpre, hnone, hw, hq⟩
    · rw [hl.toPaths_known (Nat.not_le.mp hj)]
      exact h.paths ms j hms (hl.grows.walk_old hw hj) q
  · intro j q hq
    exact (spelled_toInodeLoop _ hns ht hq).elim (h.spelled j q) id

end Lookups

/-! ## 3. Removals -/

section Removals

variable {t t' : InodeTable} {ns : List String} {n : String} {a i : Nat}

/-- **A removal of a path that is there keeps the naming**; the path is gone then. -/
theorem Naming.removeEntry (h : t.Naming) (hns : ∀ m ∈ ns ++ [n], Path.IsName m)
    (ha : t.walk ns = some a) (hi : t.getInode a n = some i) :
    ∃ t', t.removeEntry a n = some t' ∧ t'.Naming ∧ t'.walk (ns ++ [n]) = none := by
  have hns' : ∀ m ∈ ns, Path.IsName m := fun m hm => hns m (by simp [hm])
  have hpath : t.toPath a = some (Path.ofNames ns) := h.toPath hns' ha
  have hdir : (Path.ofNames ns).append ⟨n⟩ = Path.ofNames (ns ++ [n]) := by simp [Path.ofNames]
  have hrem : t.removeEntry a n = some (t.dropEntry a n i (Path.ofNames (ns ++ [n]))) := by
    rw [removeEntry_eq, hpath]
    dsimp only
    rw [h.closed, hi, hdir]
    rfl
  have hfound : t.walk (ns ++ [n]) = some i := NameTree.walk_snoc_eq_some.mpr ⟨a, ha, hi⟩
  have hgone : (t.dropEntry a n i (Path.ofNames (ns ++ [n]))).walk (ns ++ [n]) = none := by
    rw [← resolve_rooted (Path.rooted_ofNames hns)]
    exact resolve_dropEntry (Path.rooted_ofNames hns) ha
  refine ⟨_, hrem, ⟨h.wellFormed.removeEntry hrem, fun key => h.closed key, ?_, ?_⟩, hgone⟩
  · intro ms j hms hw q
    have hold : t.walk ms = some j :=
      NameTree.walk_mono (fun c m k hk => getInode_of_removeEntry hrem hk) hw
    rw [mem_toPaths_dropEntry, h.paths ms j hms hold]
    refine and_iff_left fun hsame => ?_
    -- the inode of the entry has no other path
    rw [← hsame.1] at hold
    rw [h.oneWay i ms (ns ++ [n]) hms hns hold hfound, hgone] at hw
    cases hw
  · intro j q hq
    exact h.spelled j q (mem_toList_dropEntry hq)

end Removals

/-! ## 4. Runs -/

section Runs

variable {t : InodeTable} {is : List Nat} {p q : Path}

theorem normalised_names (hp : p.Normalised) :
    ∃ ns, (∀ n ∈ ns, Path.IsName n) ∧ p = Path.ofNames ns := by
  obtain ⟨ns, hns, he⟩ := hp
  exact ⟨ns, fun n hn => (hns n hn).1, he⟩

/-- A path that is not "/" and its directory. -/
theorem normalised_dir (hp : p.Normalised) (hroot : p ≠ ⟨"/"⟩) :
    ∃ ns n, (∀ m ∈ ns ++ [n], Path.IsName m) ∧ p = Path.ofNames (ns ++ [n]) ∧
      p.parentPath = Path.ofNames ns ∧ p.filename.native = n := by
  obtain ⟨ms, hms, rfl⟩ := normalised_names hp
  rcases List.eq_nil_or_concat ms with rfl | ⟨ns, n, rfl⟩
  · exact absurd (by decide) hroot
  · rw [List.concat_eq_append] at hms ⊢
    have hr := Path.rooted_ofNames hms
    exact ⟨ns, n, hms, rfl, hr.parentPath, by rw [hr.filename]⟩

/-- A lookup of a normalised path returns, and keeps the naming. -/
theorem Naming.toInode (h : t.Naming) {ns : List String} (hns : ∀ n ∈ ns, Path.IsName n) :
    ∃ i t', t.toInode (Path.ofNames ns) = some (i, t') ∧ t'.Naming ∧ t.LookedUp ns i t' := by
  obtain ⟨i, t', ht, _⟩ := toInode_rooted h.wellFormed (Path.rooted_ofNames hns)
  exact ⟨i, t', ht, h.lookedUp hns ht⟩

/-- The directory of a path that is there is found without a change, and the removal returns. -/
theorem Naming.remove_present (h : t.Naming) {ns : List String} {n : String}
    (hns : ∀ m ∈ ns ++ [n], Path.IsName m)
    (hpresent : (t.resolve (Path.ofNames (ns ++ [n]))).isSome) :
    ∃ a t', t.toInode (Path.ofNames ns) = some (a, t) ∧ t.removeEntry a n = some t' ∧
      t'.Naming ∧ t'.resolve (Path.ofNames (ns ++ [n])) = none := by
  have hns' : ∀ m ∈ ns, Path.IsName m := fun m hm => hns m (by simp [hm])
  rw [resolve_rooted (Path.rooted_ofNames hns)] at hpresent
  obtain ⟨i, hi⟩ := Option.isSome_iff_exists.mp hpresent
  obtain ⟨a, ha, hai⟩ := NameTree.walk_snoc_eq_some.mp hi
  obtain ⟨t', hr, hnaming, hgone⟩ := h.removeEntry hns ha hai
  refine ⟨a, t', toInode_of_walk h.wellFormed (Path.rooted_ofNames hns') ha, hr, hnaming, ?_⟩
  rw [resolve_rooted (Path.rooted_ofNames hns), hgone]

/-- **Every table of a run names its paths**, and its counter is above every inode that was
    returned. -/
theorem Issued.naming (h : Issued t is) : t.Naming ∧ ∀ i ∈ is, i < t.nextInode := by
  induction h with
  | start => exact ⟨naming_init, nofun⟩
  | toInode h hp ht ih =>
      obtain ⟨hnaming, hissued⟩ := ih
      obtain ⟨ns, hns, rfl⟩ := normalised_names hp
      obtain ⟨hnaming', hl⟩ := hnaming.lookedUp hns ht
      refine ⟨hnaming', fun j hj => ?_⟩
      rcases List.mem_append.mp hj with hj | hj
      · exact (hissued j hj).trans_le hl.nextInode
      · rw [List.mem_singleton.mp hj]
        exact hl.lt
  | removeEntry h hp hroot hpresent ht _ hr ih =>
      obtain ⟨hnaming, hissued⟩ := ih
      obtain ⟨ns, n, hns, rfl, hdir, hname⟩ := normalised_dir hp hroot
      obtain ⟨a, t', ht', hr', hnaming', _⟩ := hnaming.remove_present hns hpresent
      rw [hdir, ht'] at ht
      cases ht
      rw [hname, hr'] at hr
      cases hr
      have hns' : ∀ m ∈ ns, Path.IsName m := fun m hm => hns m (by simp [hm])
      obtain ⟨_, hl⟩ := hnaming.lookedUp hns' ht'
      refine ⟨hnaming', fun j hj => ?_⟩
      rw [nextInode_removeEntry hr']
      rcases List.mem_append.mp hj with hj | hj
      · exact hissued j hj
      · rw [List.mem_singleton.mp hj]
        exact hl.lt

/-- Two lookups, one after the other, return one inode for one path only. -/
theorem Naming.toInode_eq_iff (h : t.Naming) (hp : p.Normalised) (hq : q.Normalised) :
    ∃ i t₁ j t₂, t.toInode p = some (i, t₁) ∧ t₁.toInode q = some (j, t₂) ∧ (i = j ↔ p = q) := by
  obtain ⟨ns, hns, rfl⟩ := normalised_names hp
  obtain ⟨ms, hms, rfl⟩ := normalised_names hq
  obtain ⟨i, t₁, ht, h₁, hl⟩ := h.toInode hns
  obtain ⟨j, t₂, ht', h₂, hl'⟩ := h₁.toInode hms
  refine ⟨i, t₁, j, t₂, ht, ht', ?_⟩
  have hi : t₂.walk ns = some i := NameTree.walk_mono hl'.grows.keeps hl.found
  constructor
  · intro he
    rw [he] at hi
    rw [h₂.oneWay j ns ms hns hms hi hl'.found]
  · intro he
    have hsame := (Path.rooted_ofNames hns).inj (he ▸ Path.rooted_ofNames hms)
    rw [hsame, hl'.found] at hi
    exact (Option.some.inj hi).symm

/-- A path that is not there gets the number of a new inode. -/
theorem Issued.toInode_new (h : Issued t is) {i : Nat} {t' : InodeTable} (hp : p.Normalised)
    (habsent : t.resolve p = none) (ht : t.toInode p = some (i, t')) :
    t.nextInode ≤ i ∧ i ∉ is := by
  obtain ⟨hnaming, hissued⟩ := h.naming
  obtain ⟨ns, hns, rfl⟩ := normalised_names hp
  obtain ⟨_, hl⟩ := hnaming.lookedUp hns ht
  rw [resolve_rooted (Path.rooted_ofNames hns)] at habsent
  have hnew := hl.of_none habsent
  exact ⟨hnew, fun hi => absurd (hissued i hi) (Nat.not_lt.mpr hnew)⟩

/-- **Inode numbers are faithful names of paths**, in every table that lookups and removals lead
    to: `ToPath` undoes `ToInode`; different paths have different numbers; a lookup moves no path
    and changes nothing when it is repeated; a removed path is gone and gets a number that was
    never handed out, as every path that is not there. -/
theorem faithfulNaming (h : Issued t is) :
    (∀ p, p.Normalised → ∃ i t', t.toInode p = some (i, t') ∧ t'.toPath i = some p) ∧
    (∀ p q, p.Normalised → q.Normalised → ∃ i t₁ j t₂, t.toInode p = some (i, t₁) ∧
      t₁.toInode q = some (j, t₂) ∧ (i = j ↔ p = q)) ∧
    (∀ p i t', p.Normalised → t.toInode p = some (i, t') →
      (∀ q j, t.resolve q = some j → t'.resolve q = some j) ∧ t'.toInode p = some (i, t')) ∧
    (∀ p, p.Normalised → p ≠ ⟨"/"⟩ → (t.resolve p).isSome →
      ∃ a t₁ i t₂, t.toInode p.parentPath = some (a, t) ∧
        t.removeEntry a p.filename.native = some t₁ ∧ t₁.toInode p = some (i, t₂) ∧
        t.nextInode ≤ i ∧ i ∉ is) ∧
    (∀ p i t', p.Normalised → t.resolve p = none → t.toInode p = some (i, t') →
      t.nextInode ≤ i ∧ i ∉ is) := by
  obtain ⟨hnaming, hissued⟩ := h.naming
  refine ⟨fun p hp => ?_, fun p q hp hq => hnaming.toInode_eq_iff hp hq, fun p i t' hp ht => ?_,
    fun p hp hroot hpresent => ?_, fun p i t' hp habsent ht => h.toInode_new hp habsent ht⟩
  · obtain ⟨ns, hns, rfl⟩ := normalised_names hp
    obtain ⟨i, t', ht, hnaming', hl⟩ := hnaming.toInode hns
    exact ⟨i, t', ht, hnaming'.toPath hns hl.found⟩
  · obtain ⟨ns, hns, rfl⟩ := normalised_names hp
    obtain ⟨hnaming', hl⟩ := hnaming.lookedUp hns ht
    refine ⟨fun q j hq => resolve_mono (fun c m k _ hk => hl.grows.keeps c m k hk) hq, ?_⟩
    exact toInode_of_walk hl.wellFormed (Path.rooted_ofNames hns) hl.found
  · obtain ⟨ns, n, hns, rfl, hdir, hname⟩ := normalised_dir hp hroot
    obtain ⟨a, t₁, ht, hr, hnaming₁, hgone⟩ := hnaming.remove_present hns hpresent
    obtain ⟨i, t₂, ht₂, _, hl⟩ := hnaming₁.toInode hns
    rw [resolve_rooted (Path.rooted_ofNames hns)] at hgone
    have hnew := hl.of_none hgone
    rw [nextInode_removeEntry hr] at hnew
    rw [hdir, hname]
    exact ⟨a, t₁, i, t₂, ht, hr, ht₂, hnew, fun hi =>
      absurd (hissued i hi) (Nat.not_lt.mpr hnew)⟩

end Runs

/-- "/a/b" is entered and "/a" is removed: "b" is left behind under the number of "/a". -/
theorem issued_orphan : ∃ t, Issued t [3, 1] ∧ t.resolve ⟨"/a/b"⟩ = none ∧
    t.getInode 2 "b" = some 3 := by
  have hab : Path.Normalised ⟨"/a/b"⟩ := ⟨["a", "b"], by simp [Path.IsName], by decide⟩
  have ha : Path.Normalised ⟨"/a"⟩ := ⟨["a"], by simp [Path.IsName], by decide⟩
  have hrun : ((init.toInode ⟨"/a/b"⟩).bind fun r => (r.2.toInode (Path.mk "/a").parentPath).bind
      fun s => (s.2.removeEntry s.1 (Path.mk "/a").filename.native).map fun t =>
        ((r.1, s.1, (r.2.resolve ⟨"/a"⟩).isSome,
          (s.2.openInodes.getValue (s.1, (Path.mk "/a").filename.native)).isNone),
          t.resolve ⟨"/a/b"⟩, t.getInode 2 "b")) =
      some ((3, 1, true, true), none, some 3) := by decide +kernel
  obtain ⟨⟨i, t₁⟩, ht₁, hrun⟩ := Option.bind_eq_some_iff.mp hrun
  obtain ⟨⟨a, t₂⟩, ht₂, hrun⟩ := Option.bind_eq_some_iff.mp hrun
  obtain ⟨t, ht, hvalues⟩ := Option.map_eq_some_iff.mp hrun
  obtain ⟨hissued, hafter⟩ := Prod.mk.inj hvalues
  obtain ⟨rfl, hissued⟩ := Prod.mk.inj hissued
  obtain ⟨rfl, hissued⟩ := Prod.mk.inj hissued
  obtain ⟨hpresent, hclosed⟩ := Prod.mk.inj hissued
  obtain ⟨habsent, horphan⟩ := Prod.mk.inj hafter
  have hentered : Issued t₁ ([] ++ [3]) := .toInode .start hab ht₁
  exact ⟨t, .removeEntry hentered ha (by decide) hpresent ht₂
    (Option.isNone_iff_eq_none.mp hclosed) ht, habsent, horphan⟩

/-- The orphan does not name its path any more. -/
theorem faithfulNaming_orphan : ∃ t, Issued t [3, 1] ∧ t.getInode 2 "b" = some 3 ∧
    ∃ i t', t.toInode ⟨"/a/b"⟩ = some (i, t') ∧ t'.toPath i = some ⟨"/a/b"⟩ ∧ i ∉ [3, 1] := by
  obtain ⟨t, h, habsent, horphan⟩ := issued_orphan
  have hab : Path.Normalised ⟨"/a/b"⟩ := ⟨["a", "b"], by simp [Path.IsName], by decide⟩
  obtain ⟨i, t', ht, hpath⟩ := (faithfulNaming h).1 _ hab
  exact ⟨t, h, horphan, i, t', ht, hpath, ((faithfulNaming h).2.2.2.2 _ i t' hab habsent ht).2⟩

end InodeTable

end Fsracer

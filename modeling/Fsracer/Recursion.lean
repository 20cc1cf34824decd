/-
  File:      Fsracer/Recursion.lean
  Subject:   WHEN `ToInode` ENDS.

  `ToInode` recurses on `parent_path` until it meets "/", and has no guard for a path whose
  parents never come there: a relative path, the empty path, two slashes or more, and a path with
  a root name, such as "//tmp/x". The analyzer makes the path of every operation absolute first,
  but "//tmp/x" is absolute already; and it does not look at the target of a symbolic link, which
  is stored as it is written, nor at the cwd.

  * `ends_iff_rooted` -- the parents of a path come to "/" iff the path is rooted, which can be
    read off its characters (`exists_rooted_iff`, `exists_rooted_parentPath`);
  * `fsStep_eq_endlessRecursion` -- a step recurses without end iff it is not `Grounded`;
  * **`recursionEnds_iff`** -- a trace is analysed without an endless recursion iff its cwd and
    every step of its run are grounded.
-/
import Mathlib
import Fsracer.ReverseTable

namespace Fsracer

/-! ## 1. Chains of parents -/

namespace Path

/-- A path of slashes only; from two slashes on it is one component, whose parent is empty. -/
def Slashes (p : Path) : Prop := ∀ c ∈ p.native.toList, c = '/'

instance (p : Path) : Decidable p.Slashes := inferInstanceAs (Decidable (∀ c ∈ _, _))

/-- **The parents of a path come to "/" iff it is rooted.** -/
theorem ends_iff_rooted {p : Path} :
    (∃ k, (parentPath^[k] p).native = "/") ↔ ∃ ns, p.Rooted ns := by
  constructor
  · intro h
    obtain ⟨k, hk⟩ := h
    induction k generalizing p with
    | zero => exact ⟨[], rooted_nil_iff.mpr hk⟩
    | succ k ih =>
        obtain ⟨ns, hns⟩ := ih hk
        by_contra hno
        exact parentPath_not_rooted (not_exists.mp hno) ns hns
  · intro h
    obtain ⟨ns, hns⟩ := h
    induction ns using List.reverseRecOn generalizing p with
    | nil => exact ⟨0, rooted_nil_iff.mp hns⟩
    | append_singleton ns n ih =>
        have hnames : ∀ m ∈ ns, IsName m := fun m hm => hns.names m (by simp [hm])
        obtain ⟨k, hk⟩ := ih (rooted_ofNames hnames)
        refine ⟨k + 1, ?_⟩
        rw [Function.iterate_succ_apply, hns.parentPath]
        exact hk

/-- A path that begins with one slash, or with three or more, and has another character. -/
def BelowRoot (p : Path) : Prop :=
  p.native.toList.head? = some '/' ∧ p.hasRootName = false ∧ ¬ p.Slashes

instance (p : Path) : Decidable p.BelowRoot := inferInstanceAs (Decidable (_ ∧ _))

theorem all_slash_iff {p : Path} : p.native.toList.all (· = '/') = true ↔ p.Slashes := by
  simp [Slashes]

/-- The names of such a path. -/
theorem belowRoot_iff {p : Path} : p.BelowRoot ↔ ∃ ns n, p.Rooted (ns ++ [n]) := by
  constructor
  · intro h
    obtain ⟨hhead, hroot, hs⟩ := h
    have hcomp := components_of_head hroot hhead
    rw [if_neg (mt all_slash_iff.mp hs)] at hcomp
    generalize hns : names [] p.native.toList ++ _ = ns at hcomp
    rcases List.eq_nil_or_concat ns with rfl | ⟨ms, m, rfl⟩
    · exact absurd (all_slash_iff.mp (all_slash_of_names (List.append_eq_nil_iff.mp hns).1).2) hs
    · exact ⟨ms, m, List.concat_eq_append ▸ hcomp⟩
  · intro h
    obtain ⟨ns, n, hr⟩ := h
    refine ⟨hr.head, hr.hasRootName, fun hs => ?_⟩
    have hcomp : p.components = "/" :: (ns ++ [n]) := hr
    rw [components_of_head hr.hasRootName hr.head, if_pos (all_slash_iff.mpr hs)] at hcomp
    exact absurd (List.cons.inj hcomp).2 (by simp)

/-- **Which paths are rooted.** -/
theorem exists_rooted_iff {p : Path} : (∃ ns, p.Rooted ns) ↔ p.native = "/" ∨ p.BelowRoot := by
  rw [belowRoot_iff, ← rooted_nil_iff]
  constructor
  · intro h
    obtain ⟨ns, hns⟩ := h
    rcases List.eq_nil_or_concat ns with rfl | ⟨ms, m, rfl⟩
    · exact .inl hns
    · exact .inr ⟨ms, m, List.concat_eq_append ▸ hns⟩
  · intro h
    rcases h with h | ⟨ms, m, h⟩
    · exact ⟨[], h⟩
    · exact ⟨_, h⟩

/-- **Which paths have a rooted parent.** -/
theorem exists_rooted_parentPath {p : Path} : (∃ ns, p.parentPath.Rooted ns) ↔ p.BelowRoot := by
  rw [belowRoot_iff]
  constructor
  · intro h
    obtain ⟨ms, hms⟩ := h
    have hr : ∃ ns, p.Rooted ns := by
      by_contra hno
      exact parentPath_not_rooted (not_exists.mp hno) ms hms
    obtain ⟨ns, hns⟩ := hr
    rcases List.eq_nil_or_concat ns with rfl | ⟨ns, n, rfl⟩
    · have hempty : p.parentPath = empty := by
        unfold parentPath
        rw [hns, if_pos (by simp)]
      rw [hempty] at hms
      exact absurd hms relative_empty.not_rooted
    · exact ⟨ns, n, List.concat_eq_append ▸ hns⟩
  · intro h
    obtain ⟨ns, n, hns⟩ := h
    have hnames : ∀ x ∈ ns, IsName x := fun x hx => hns.names x (by simp [hx])
    exact ⟨ns, hns.parentPath ▸ rooted_ofNames hnames⟩

end Path

namespace InodeTable

/-- **`ToInode` does not end iff the parents of the path never come to "/".** -/
theorem toInode_eq_none {t : InodeTable} (hw : t.WellFormed) {p : Path} :
    t.toInode p = none ↔ ¬ ∃ k, (Path.parentPath^[k] p).native = "/" := by
  rw [Path.ends_iff_rooted]
  constructor
  · intro h hr
    obtain ⟨ns, hns⟩ := hr
    obtain ⟨i, t', ht, _⟩ := toInode_rooted hw hns
    rw [h] at ht
    cases ht
  · intro h
    exact toInode_not_rooted (not_exists.mp h)

end InodeTable

open FSAnalyzer InodeTable

/-! ## 2. One step -/

/-- **A step looks up paths whose parents come to "/".** The target of a link is looked up as it
    was written. -/
def Grounded (st : FsState) : FsAction → Prop
  | .charge _ | .newEvent _ => True
  | .operation op =>
      match op.kind with
      | .newFd dirfd path fd =>
          0 ≤ fd → ∀ p, getAbsolutePath st dirfd ⟨path⟩ = some p → p.BelowRoot
      | .delFd _ => True
      | .hpath dirfd path effect =>
          ∀ p, getAbsolutePath st dirfd ⟨path⟩ = some p → (p.native = "/" ∨ p.BelowRoot) ∧
            (effect = .expunged → (tagsOf st).isSome → (dereferenced st p).BelowRoot)
      | .hpathSym dirfd path effect =>
          effect = .expunged → (tagsOf st).isSome → ∀ p,
            getAbsolutePath st dirfd ⟨path⟩ = some p → p.BelowRoot
      | .link oldDirfd oldPath newDirfd newPath =>
          ∀ p q, getAbsolutePath st oldDirfd ⟨oldPath⟩ = some p →
            getAbsolutePath st newDirfd ⟨newPath⟩ = some q →
            (p.native = "/" ∨ p.BelowRoot) ∧ q.BelowRoot
      | .rename oldDirfd oldPath newDirfd newPath =>
          -- the root has no parent to be unlinked from, unless the new path is the root as well
          ∀ p q, getAbsolutePath st oldDirfd ⟨oldPath⟩ = some p →
            getAbsolutePath st newDirfd ⟨newPath⟩ = some q → q.BelowRoot ∧
              (p.BelowRoot ∨ p.native = "/" ∧ st.inodeTable.resolve q = some (rootInode + 1))
      | .symlink dirfd path _ =>
          ∀ p, getAbsolutePath st dirfd ⟨path⟩ = some p → p.native = "/" ∨ p.BelowRoot

section Functions

variable {st : FsState} {p : Path}

theorem toInode_eq_endless (hw : st.inodeTable.WellFormed) :
    FSAnalyzer.toInode st p = .error .endlessRecursion ↔ ¬ ∃ ns, p.Rooted ns := by
  rw [← Path.ends_iff_rooted, ← toInode_eq_none hw]
  unfold FSAnalyzer.toInode
  cases st.inodeTable.toInode p with
  | none => exact iff_of_true rfl rfl
  | some r => exact iff_of_false nofun nofun

/-- A lookup, and what follows it. -/
theorem toInode_bind_eq_endless {α : Type} (hw : st.inodeTable.WellFormed)
    {f : Nat × FsState → Except Abort α} :
    (FSAnalyzer.toInode st p >>= f) = .error .endlessRecursion ↔ (¬ ∃ ns, p.Rooted ns) ∨
      ∃ ns i t, p.Rooted ns ∧ st.inodeTable.toInode p = some (i, t) ∧
        st.inodeTable.LookedUp ns i t ∧
        f (i, { st with inodeTable := t }) = .error .endlessRecursion := by
  rw [bind_eq_error, toInode_eq_endless hw]
  refine or_congr_right ⟨fun h => ?_, fun h => ?_⟩
  · obtain ⟨⟨i, st₁⟩, h1, h2⟩ := h
    obtain ⟨t, ht, rfl⟩ := toInode_eq_ok.mp h1
    obtain ⟨ns, hns, hl⟩ := toInode_spec hw ht
    exact ⟨ns, i, t, hns, ht, hl, h2⟩
  · obtain ⟨ns, i, t, hns, ht, hl, h2⟩ := h
    exact ⟨_, toInode_eq_ok.mpr ⟨t, ht, rfl⟩, h2⟩

/-- A lookup that nothing but an assignment follows. -/
theorem toInode_then_eq_endless {α : Type} (hw : st.inodeTable.WellFormed)
    {f : Nat × FsState → α} : (FSAnalyzer.toInode st p >>= fun r => pure (f r)) =
      .error .endlessRecursion ↔ ¬ ∃ ns, p.Rooted ns := by
  rw [toInode_bind_eq_endless hw, or_iff_left]
  intro h
  obtain ⟨_, _, _, _, _, _, h⟩ := h
  cases h

theorem unlinkResource_ne_endless {a : Nat} {n : String} :
    unlinkResource st a n ≠ .error .endlessRecursion := by
  unfold unlinkResource
  cases st.inodeTable.removeEntry a n with
  | none => exact nofun
  | some t => exact nofun

/-- An unlink recurses without end iff the path is not below the root. -/
theorem unlink_eq_endless (hw : st.inodeTable.WellFormed) (upd : FsState → FsState) {n : String} :
    (FSAnalyzer.toInode st p.parentPath >>= fun r => unlinkResource (upd r.2) r.1 n) =
      .error .endlessRecursion ↔ ¬ p.BelowRoot := by
  rw [toInode_bind_eq_endless hw, Path.exists_rooted_parentPath, or_iff_left]
  intro h
  obtain ⟨_, _, _, _, _, _, h⟩ := h
  exact unlinkResource_ne_endless h

theorem processPathEffect_eq_endless (hw : st.inodeTable.WellFormed) {effect : EffectType}
    {name : String} : processPathEffect st p effect name = .error .endlessRecursion ↔
      effect = .expunged ∧ (tagsOf st).isSome ∧ ¬ p.BelowRoot := by
  unfold processPathEffect
  rw [eventTags_eq]
  cases tagsOf st with
  | none => exact iff_of_false nofun fun h => nomatch h.2.1
  | some debugInfo =>
      cases effect with
      | consumed => exact iff_of_false nofun fun h => nomatch h.1
      | produced => exact iff_of_false nofun fun h => nomatch h.1
      | expunged =>
          have hunlink := unlink_eq_endless (p := p) hw
            (fun st' => { st' with
              blockAccesses := addPathEffect st'.blockAccesses p
                ⟨st.blockId, .expunged, debugInfo, name⟩ }) (n := p.filename.native)
          exact hunlink.trans ⟨fun h => ⟨rfl, rfl, h⟩, fun h => h.2.2⟩

/-- What holds of every path that the base gives is said of the one that it gives. -/
theorem forall_path {p : Path} {R : Path → Prop} : (∀ q, some p = some q → R q) ↔ R p := by
  simp only [Option.some.injEq, forall_eq']

theorem forall_two_paths {p q : Path} {R : Path → Path → Prop} :
    (∀ p' q', some p = some p' → some q = some q' → R p' q') ↔ R p q := by
  refine ⟨fun h => h p q rfl rfl, fun h p' q' hp hq => ?_⟩
  cases hp
  cases hq
  exact h

variable {dirfd : Nat} {path name : String}

theorem analyzeNewFd_eq_endless (hw : st.inodeTable.WellFormed) {fd : Int} :
    analyzeNewFd st dirfd path fd = .error .endlessRecursion ↔
      ¬ (0 ≤ fd → ∀ p, getAbsolutePath st dirfd ⟨path⟩ = some p → p.BelowRoot) := by
  unfold analyzeNewFd
  split
  · rename_i hfd
    exact iff_of_false nofun fun h => h fun h0 => absurd hfd (not_lt.mpr h0)
  · rename_i hfd
    cases hp : getAbsolutePath st dirfd ⟨path⟩ with
    | none => exact iff_of_false nofun fun h => h fun _ p hp => nomatch hp
    | some p =>
        refine (toInode_then_eq_endless hw).trans ?_
        rw [Path.exists_rooted_parentPath, forall_path]
        exact not_congr ⟨fun h _ => h, fun h => h (not_lt.mp hfd)⟩

theorem analyzeDelFd_ne_endless {fd : Nat} : analyzeDelFd st fd ≠ .error .endlessRecursion := by
  unfold analyzeDelFd
  split
  · exact nofun
  · split
    · exact nofun
    · exact nofun

theorem analyzeHpath_eq_endless (hw : st.tables.WellFormed) {effect : EffectType} :
    analyzeHpath st dirfd path effect name = .error .endlessRecursion ↔
      ¬ ∀ p, getAbsolutePath st dirfd ⟨path⟩ = some p → (p.native = "/" ∨ p.BelowRoot) ∧
        (effect = .expunged → (tagsOf st).isSome → (dereferenced st p).BelowRoot) := by
  have hwi : st.inodeTable.WellFormed := hw.inodes
  unfold analyzeHpath
  cases hp : getAbsolutePath st dirfd ⟨path⟩ with
  | none => exact iff_of_false nofun fun h => h fun p hp => nomatch hp
  | some p =>
      rw [forall_path, ← Path.exists_rooted_iff]
      dsimp only
      rw [toInode_bind_eq_endless hwi]
      constructor
      · intro h hgood
        obtain ⟨ns, i, t, hns, ht, hl, h⟩ := h.resolve_left (not_not.mpr hgood.1)
        have h : processPathEffect { st with inodeTable := t } (followed st.symlinkTable i p)
          effect name = .error .endlessRecursion := h
        rw [processPathEffect_eq_endless hl.wellFormed, followed_eq hw hns hl] at h
        exact h.2.2 (hgood.2 h.1 h.2.1)
      · intro h
        by_cases hr : ∃ ns, p.Rooted ns
        · refine .inr ?_
          obtain ⟨ns, hns⟩ := hr
          obtain ⟨i, t, ht, hl⟩ := toInode_rooted hwi hns
          refine ⟨ns, i, t, hns, ht, hl, ?_⟩
          show processPathEffect { st with inodeTable := t } (followed st.symlinkTable i p)
            effect name = .error .endlessRecursion
          rw [processPathEffect_eq_endless hl.wellFormed, followed_eq hw hns hl]
          by_contra hno
          refine h ⟨⟨ns, hns⟩, fun he htags => ?_⟩
          by_contra hbad
          exact hno ⟨he, htags, hbad⟩
        · exact .inl hr

theorem analyzeHpathSym_eq_endless (hw : st.inodeTable.WellFormed) {effect : EffectType} :
    analyzeHpathSym st dirfd path effect name = .error .endlessRecursion ↔
      ¬ (effect = .expunged → (tagsOf st).isSome → ∀ p,
        getAbsolutePath st dirfd ⟨path⟩ = some p → p.BelowRoot) := by
  unfold analyzeHpathSym
  cases hp : getAbsolutePath st dirfd ⟨path⟩ with
  | none => exact iff_of_false nofun fun h => h fun _ _ p hp => nomatch hp
  | some p =>
      dsimp only
      rw [processPathEffect_eq_endless hw, forall_path]
      constructor
      · intro h hall
        exact h.2.2 (hall h.1 h.2.1)
      · intro h
        by_contra hno
        exact h fun he htags => by_contra fun hbad => hno ⟨he, htags, hbad⟩

theorem analyzeSymlink_eq_endless (hw : st.inodeTable.WellFormed) {target : String} :
    analyzeSymlink st dirfd path target = .error .endlessRecursion ↔
      ¬ ∀ p, getAbsolutePath st dirfd ⟨path⟩ = some p → p.native = "/" ∨ p.BelowRoot := by
  unfold analyzeSymlink
  cases hp : getAbsolutePath st dirfd ⟨path⟩ with
  | none => exact iff_of_false nofun fun h => h fun p hp => nomatch hp
  | some p =>
      refine (toInode_then_eq_endless hw).trans ?_
      rw [Path.exists_rooted_iff, forall_path]

variable {od nd : Nat} {oldPath newPath : String}

theorem analyzeLink_eq_endless (hw : st.inodeTable.WellFormed) :
    FSAnalyzer.analyzeLink st od oldPath nd newPath = .error .endlessRecursion ↔
      ¬ ∀ p q, getAbsolutePath st od ⟨oldPath⟩ = some p →
        getAbsolutePath st nd ⟨newPath⟩ = some q →
        (p.native = "/" ∨ p.BelowRoot) ∧ q.BelowRoot := by
  unfold FSAnalyzer.analyzeLink
  split
  · rename_i p q hp hq
    rw [hp, hq, forall_two_paths, ← Path.exists_rooted_iff, ← Path.exists_rooted_parentPath,
      toInode_bind_eq_endless hw, not_and_or]
    refine or_congr_right' fun hr => ?_
    constructor
    · intro h
      obtain ⟨ns, i, t, _, _, hl, h⟩ := h
      exact (toInode_then_eq_endless hl.wellFormed).mp h
    · intro h
      obtain ⟨ns, hns⟩ := not_not.mp hr
      obtain ⟨i, t, ht, hl⟩ := toInode_rooted hw hns
      exact ⟨ns, i, t, hns, ht, hl, (toInode_then_eq_endless hl.wellFormed).mpr h⟩
  · rename_i hno
    exact iff_of_false nofun fun h => h fun p q hp hq => absurd hq (hno p q hp)

/-- The inode of the root is the inode of the new path iff that leads to it. -/
theorem renamesRoot_iff {t t' : InodeTable} {q : Path} {ns : List String} {k : String} {i a : Nat}
    (hq : q.Rooted (ns ++ [k])) (hl : t.LookedUp [] i t') {u : InodeTable}
    (hl' : t'.LookedUp ns a u) :
    u.getInode a k = some i ↔ t.resolve q = some (rootInode + 1) := by
  have hwalk : t.walk [] = some (rootInode + 1) := rfl
  obtain ⟨rfl, rfl⟩ := hl.of_some hwalk
  rw [hl'.getInode_eq, resolve_rooted hq]

theorem analyzeRename_eq_endless (hw : st.inodeTable.WellFormed) :
    analyzeRename st od oldPath nd newPath = .error .endlessRecursion ↔
      ¬ ∀ p q, getAbsolutePath st od ⟨oldPath⟩ = some p →
        getAbsolutePath st nd ⟨newPath⟩ = some q → q.BelowRoot ∧
        (p.BelowRoot ∨ p.native = "/" ∧ st.inodeTable.resolve q = some (rootInode + 1)) := by
  unfold analyzeRename
  split
  · rename_i p q hp hq
    rw [hp, hq, forall_two_paths]
    by_cases hr : ∃ os, p.Rooted os
    · obtain ⟨os, hos⟩ := hr
      obtain ⟨i, t, ht, hl⟩ := toInode_rooted hw hos
      rw [toInode_eq_ok.mpr ⟨t, ht, rfl⟩]
      by_cases hqb : q.BelowRoot
      · obtain ⟨ns, k, hq'⟩ := Path.belowRoot_iff.mp hqb
        have hns : ∀ x ∈ ns, Path.IsName x := fun x hx => hq'.names x (by simp [hx])
        obtain ⟨a, t', ht', hl'⟩ :=
          toInode_rooted hl.wellFormed (Path.rooted_ofNames hns)
        rw [← hq'.parentPath] at ht'
        have hin : FSAnalyzer.toInode { st with inodeTable := t } q.parentPath =
            .ok (a, { st with inodeTable := t' }) := toInode_eq_ok.mpr ⟨t', ht', rfl⟩
        show (FSAnalyzer.toInode { st with inodeTable := t } q.parentPath >>= _) = _ ↔ _
        rw [hin]
        show (if t'.getInode a q.filename.native = some i then _ else _) = _ ↔ _
        rw [hq'.filename, and_iff_right hqb]
        have hroot : p.native = "/" →
            (t'.getInode a k = some i ↔ st.inodeTable.resolve q = some (rootInode + 1)) := by
          intro he
          obtain rfl : os = [] := hos.inj (Path.rooted_nil_iff.mpr he)
          exact renamesRoot_iff hq' hl hl'
        split
        · rename_i hsame
          refine iff_of_false nofun fun h => h ?_
          rcases Path.exists_rooted_iff.mp ⟨os, hos⟩ with he | hb
          · exact .inr ⟨he, (hroot he).mp hsame⟩
          · exact .inl hb
        · rename_i hne'
          have hw₃ : ({ st with
              inodeTable := t'.addEntryWith a k q i } : FsState).inodeTable.WellFormed :=
            hl'.wellFormed.addEntryWith hl'.lt (hl.lt.trans_le hl'.nextInode) k q
          refine (unlink_eq_endless hw₃ id).trans (not_congr ⟨.inl, fun h => ?_⟩)
          rcases h with hb | ⟨he, hres⟩
          · exact hb
          · exact absurd ((hroot he).mpr hres) hne'
      · -- the parent of the new path is looked up in vain
        refine iff_of_true ?_ fun h => hqb h.1
        refine (toInode_bind_eq_endless hl.wellFormed).mpr (.inl ?_)
        rwa [Path.exists_rooted_parentPath]
    · refine iff_of_true ((toInode_bind_eq_endless hw).mpr (.inl hr)) fun h => hr ?_
      refine Path.exists_rooted_iff.mpr ?_
      rcases h.2 with hb | ⟨he, -⟩
      · exact .inr hb
      · exact .inl he
  · rename_i hno
    exact iff_of_false nofun fun h => h fun p q hp hq => absurd hq (hno p q hp)

end Functions

/-- **A step recurses without end iff it is not grounded.** -/
theorem fsStep_eq_endlessRecursion {st : FsState} (hw : st.tables.WellFormed) {a : FsAction} :
    fsStep st a = .error .endlessRecursion ↔ ¬ Grounded st a := by
  have hwi : st.inodeTable.WellFormed := hw.inodes
  cases a with
  | charge blockId => exact iff_of_false nofun fun h => h trivial
  | newEvent e => exact iff_of_false nofun fun h => h trivial
  | operation op =>
      show analyzeOperation st op = _ ↔ _
      unfold analyzeOperation Grounded
      cases hop : op.kind with
      | newFd dirfd path fd =>
          simp only [hop]
          exact analyzeNewFd_eq_endless hwi
      | delFd fd => exact iff_of_false analyzeDelFd_ne_endless fun h => h (by simp only [hop])
      | hpath dirfd path effect =>
          simp only [hop]
          exact analyzeHpath_eq_endless hw
      | hpathSym dirfd path effect =>
          simp only [hop]
          exact analyzeHpathSym_eq_endless hwi
      | link od oldPath nd newPath =>
          simp only [hop]
          exact analyzeLink_eq_endless hwi
      | rename od oldPath nd newPath =>
          simp only [hop]
          exact analyzeRename_eq_endless hwi
      | symlink dirfd path target =>
          simp only [hop]
          exact analyzeSymlink_eq_endless hwi

/-! ## 3. Traces -/

/-- **Every `ToInode` ends** while `t` is analysed: the cwd, the paths of the operations, their
    parents and the targets of links are all on a chain of parents that comes to "/". -/
def RecursionEnds (t : Trace) : Prop := analyzeTrace .init t ≠ .error .endlessRecursion

theorem setUp_eq_endless {t : Trace} : setUp t = .error .endlessRecursion ↔
    ¬ (t.cwd = "/" ∨ (⟨t.cwd⟩ : Path).BelowRoot) := by
  unfold setUp
  refine (toInode_then_eq_endless wellFormed_init).trans ?_
  rw [Path.exists_rooted_iff]

/-- **Path-to-inode resolution ends iff the cwd is "/" or below it and every step of the run is
    grounded.** -/
theorem recursionEnds_iff (t : Trace) : RecursionEnds t ↔
    (t.cwd = "/" ∨ (⟨t.cwd⟩ : Path).BelowRoot) ∧
      ∀ st₀, setUp t = .ok st₀ → EachStep Grounded st₀ t.fsActions := by
  unfold RecursionEnds
  rw [analyzeTrace_eq_run, ne_eq, bind_eq_error, setUp_eq_endless, not_or, not_not]
  refine and_congr_right fun _ => ⟨fun h st₀ h0 as a st₁ hp h1 => ?_, fun h hc => ?_⟩
  · have hw := wellFormed_run (wellFormed_setUp h0) h1
    by_contra hno
    exact h ⟨st₀, h0, fsRun_eq_missingKey.mpr
      ⟨as, a, st₁, hp, h1, (fsStep_eq_endlessRecursion hw).mpr hno⟩⟩
  · obtain ⟨st₀, h0, hrun⟩ := hc
    obtain ⟨as, a, st₁, hp, h1, h2⟩ := fsRun_eq_missingKey.mp hrun
    have hw := wellFormed_run (wellFormed_setUp h0) h1
    exact (fsStep_eq_endlessRecursion hw).mp h2 (h st₀ h0 as a st₁ hp h1)

/-- A relative symbolic link is made and removed again. -/
def relativeLink : Trace where
  threadId := 1
  cwd := "/home"
  execOps := [⟨"sync_1", [⟨.symlink atFdcwd "/l" "t", false, "symlinkat"⟩,
    ⟨.hpath atFdcwd "/l" .expunged, false, "unlink"⟩]⟩]
  blocks := [⟨1, .MAIN, [.submitOp ⟨"sync_1", none, ["node_unlink"]⟩]⟩]

/-- In a trace that the parser accepts, `ToInode` is called for the parent of "t". -/
theorem recursionEnds_fails : ¬ ∀ t, TraceParser.Accepts t → RecursionEnds t := by
  intro h
  have hp : TraceParser.parse (dump relativeLink) = .ok relativeLink := by decide +kernel
  have hrun : abortOf (analyzeTrace .init relativeLink) = some .endlessRecursion := by
    decide +kernel
  exact h relativeLink ⟨_, hp⟩ (abortOf_eq_some.mp hrun)

end Fsracer

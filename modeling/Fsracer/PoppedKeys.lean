/-
  File:      Fsracer/PoppedKeys.lean
  Subject:   WHEN `PopEntry` MISSES ITS KEY.

  `PopEntry` falls off its end where the key is missing. Three tables are popped: the descriptors
  by `AnalyzeDelFd`, the entries of the inode table by `RemoveEntry`, the open entries by
  `CloseInode`. The last close always finds its keys (`closeInode_ne_none`); the others depend on
  the trace. **`popsFind_iff`** says when: every step of the analysis finds what it pops
  (`KeysFound`), which is a condition on the operation and the tables before it.
-/
import Mathlib
import Fsracer.FsRun
import Fsracer.TraceParser
import Fsracer.Dump

namespace Fsracer

/-! ## 1. Unlinking a path -/

namespace InodeTable

/-- An entry that `RemoveEntry` does not miss: its directory is there and has lost its one path,
    or the entry is open, or it is in the table. -/
def Unlinkable (t : InodeTable) (p : Path) : Prop :=
  p.Named → ∃ a, t.resolve p.parentPath = some a ∧
    (t.toPath a = none ∨ (t.openInodes.getValue (a, p.filename.native)).isSome ∨
      (t.getInode a p.filename.native).isSome)

/-- A directory that a lookup has just created has one path. -/
theorem LookedUp.toPath_of_new {t t' : InodeTable} {ns : List String} {a : Nat} (hw : t.WellFormed)
    (hns : ∀ m ∈ ns, Path.IsName m) (h : t.LookedUp ns a t') (hnone : t.walk ns = none) :
    ∃ q, t'.toPath a = some q := by
  have hnew := h.of_none hnone
  have hroot := Path.rooted_ofNames hns
  refine toPath_isSome (p := Path.ofNames ns)
    ((h.paths a _).mpr (.inr ⟨ns, List.prefix_refl _, hnone, h.found, hroot⟩)) fun q hq => ?_
  rcases (h.paths a q).mp hq with hq | ⟨ms, hms, _, hms', hr⟩
  · exact absurd (hw.listed a q hq) (Nat.not_lt.mpr hnew)
  · -- nothing is below the new directory, so no shorter way leads to it
    obtain ⟨xs, rfl⟩ := hms
    have hxs : xs = [] := by
      cases xs with
      | nil => rfl
      | cons x xs =>
          have hwalk := h.found
          rw [walk_append, hms', Option.bind_some, NameTree.walk_cons,
            h.childless hnew] at hwalk
          cases hwalk
    rw [hxs, List.append_nil] at hroot
    rw [hxs, List.append_nil]
    exact Path.cmp_eq_iff.mpr (hroot.trans hr.symm)

/-- **The two steps of an unlink miss the key iff the path is not unlinkable.** -/
theorem unlink_misses_iff {t : InodeTable} (hw : t.WellFormed) {p : Path} :
    (∃ a t', t.toInode p.parentPath = some (a, t') ∧
      t'.removeEntry a p.filename.native = none) ↔ ¬ t.Unlinkable p := by
  constructor
  · intro h hu
    obtain ⟨a, t', ht, hr⟩ := h
    obtain ⟨ns, n, hp, hn, hl⟩ := toInode_parent_spec hw ht
    obtain ⟨b, hb, hcase⟩ := hu (Path.named_iff.mpr ⟨ns, n, hp⟩)
    have hns : ∀ m ∈ ns, Path.IsName m := fun m hm => hp.names m (by simp [hm])
    rw [hp.parentPath, resolve_rooted (Path.rooted_ofNames hns)] at hb
    obtain ⟨rfl, rfl⟩ := hl.of_some hb
    obtain ⟨h1, h2, h3⟩ := removeEntry_eq_none.mp hr
    rcases hcase with hc | hc | hc
    · rw [hc] at h1
      cases h1
    · rw [h2] at hc
      cases hc
    · rw [h3] at hc
      cases hc
  · intro hu
    unfold Unlinkable at hu
    obtain ⟨hnamed, hno⟩ := Classical.not_imp.mp hu
    obtain ⟨a, t', ht⟩ := toInode_parent_isSome hw hnamed
    obtain ⟨ns, n, hp, hn, hl⟩ := toInode_parent_spec hw ht
    have hns : ∀ m ∈ ns, Path.IsName m := fun m hm => hp.names m (by simp [hm])
    refine ⟨a, t', ht, removeEntry_eq_none.mpr ?_⟩
    rw [hn]
    rw [hn] at hno
    cases hwalk : t.walk ns with
    | some b =>
        obtain ⟨rfl, rfl⟩ := hl.of_some hwalk
        have hres : t'.resolve p.parentPath = some a := by
          rw [hp.parentPath, resolve_rooted (Path.rooted_ofNames hns)]
          exact hl.found
        have hno := not_exists.mp hno a
        rw [not_and] at hno
        obtain ⟨h1, h2, h3⟩ := (not_or.trans (and_congr_right fun _ => not_or)).mp (hno hres)
        exact ⟨Option.ne_none_iff_isSome.mp h1, Option.not_isSome_iff_eq_none.mp h2,
          Option.not_isSome_iff_eq_none.mp h3⟩
    | none =>
        have hchild : t'.getInode a n = none := by
          rw [hl.getInode_eq, walk_snoc, hwalk]
          rfl
        obtain ⟨q, hq⟩ := hl.toPath_of_new hw hns hwalk
        refine ⟨by rw [hq]; rfl, ?_, hchild⟩
        cases ho : t'.openInodes.getValue (a, n) with
        | none => rfl
        | some v =>
            have := hl.wellFormed.opened a n v ho
            rw [hchild] at this
            cases this

/-! ## 2. Renaming a path -/

/-- The entry that a rename takes away is found. The new path is the same entry as the old one,
    or its entry is not on the way to the old path; where it is, and the old path was there, the
    old path can still be unlinked after its inode took the place of that directory; where it is,
    and the old path was not there, it is the directory of the old path. -/
def RenameFinds (t : InodeTable) (p q : Path) : Prop :=
  ∀ os m ns k, p.Rooted (os ++ [m]) → q.Rooted (ns ++ [k]) →
    t.locate (ns ++ [k]) = t.locate (os ++ [m]) ∨
    ∀ xs ys, os = xs ++ k :: ys → t.locate xs = t.locate ns →
      match t.walk (os ++ [m]) with
      | some i => ∃ a, t.walk ns = some a ∧ (t.addEntryWith a k q i).Unlinkable p
      | none => ys = []

section Rename

variable {t t₁ t₂ : InodeTable} {os ns : List String} {m k : String} {i a : Nat} {p q : Path}

/-- A new entry off the way to the old path: the old path is there. -/
theorem unlinkable_of_off (h₁ : t.LookedUp (os ++ [m]) i t₁) (h₂ : t₁.LookedUp ns a t₂)
    (hp : p.Rooted (os ++ [m])) (hne : t₂.getInode a k ≠ some i)
    (hoff : ∀ xs ys, os = xs ++ k :: ys → t.locate xs ≠ t.locate ns) :
    (t₂.addEntryWith a k q i).Unlinkable p := by
  intro _
  have hos : ∀ x ∈ os, Path.IsName x := fun x hx => hp.names x (by simp [hx])
  have hwalk : t₂.walk (os ++ [m]) = some i := NameTree.walk_mono h₂.grows.keeps h₁.found
  obtain ⟨b, hb, hbm⟩ := NameTree.walk_snoc_eq_some.mp hwalk
  have hpass : ¬ NameTree.Passes t₂.getInode (rootInode + 1) os a k := by
    intro h
    obtain ⟨xs, ys, he, hx⟩ := h
    exact hoff xs ys he (NameTree.locate_eq_of_walk_eq (h₁.grows₂ h₂) hx h₂.found)
  refine ⟨b, ?_, .inr (.inr ?_)⟩
  · rw [hp.parentPath, resolve_rooted (Path.rooted_ofNames hos)]
    exact (walk_addEntryWith hpass).trans hb
  · rw [hp.filename, getInode_addEntryWith_of_ne, hbm]
    · rfl
    · intro he
      cases he
      exact hne hbm

/-- The directory of the new entry lies on the way to the old path: the first lookup made it. -/
theorem LookedUp.on_way (h₂ : t₁.LookedUp ns a t₂) (hold : t₁.walk (os ++ [m]) = some i)
    {xs ys : List String} (he : os = xs ++ k :: ys) (hl : t₁.walk xs = t₁.walk ns) :
    t₂ = t₁ ∧ t₁.walk xs = some a := by
  have hxs : xs <+: os ++ [m] := by
    rw [he]
    exact ⟨k :: ys ++ [m], by simp⟩
  obtain ⟨c, hc⟩ := NameTree.walk_of_prefix hold hxs
  obtain ⟨ht, hac⟩ := h₂.of_some (hl.symm.trans hc)
  exact ⟨ht, hac ▸ hc⟩

/-- A directory on the way to a new path is not its inode, which has nothing below it. -/
theorem LookedUp.ne_of_on_way (h₁ : t.LookedUp (os ++ [m]) i t₁)
    (hnone : t.walk (os ++ [m]) = none) {xs ys : List String} (he : os = xs ++ k :: ys)
    (hx : t₁.walk xs = some a) : a ≠ i := by
  intro hai
  have hxs : xs ++ [k] <+: os ++ [m] := by
    rw [he]
    exact ⟨ys ++ [m], by simp⟩
  obtain ⟨b, hb⟩ := NameTree.walk_of_prefix h₁.found hxs
  obtain ⟨c, hc, hcb⟩ := NameTree.walk_snoc_eq_some.mp hb
  cases hx.symm.trans hc
  rw [hai, h₁.childless (h₁.of_none hnone)] at hcb
  cases hcb

/-- The new entry is on the way to a new path and not its directory: the way is cut. -/
theorem not_unlinkable_of_beyond (h₁ : t.LookedUp (os ++ [m]) i t₁) (hp : p.Rooted (os ++ [m]))
    (hnone : t.walk (os ++ [m]) = none) {xs ys : List String} (he : os = xs ++ k :: ys)
    (hx : t₁.walk xs = some a) (hys : ys ≠ []) : ¬ (t₁.addEntryWith a k q i).Unlinkable p := by
  intro hu
  have hos : ∀ x ∈ os, Path.IsName x := fun x hx => hp.names x (by simp [hx])
  have hai : a ≠ i := h₁.ne_of_on_way hnone he hx
  have hleaf : ∀ n, (t₁.addEntryWith a k q i).getInode i n = none := by
    intro n
    rw [getInode_addEntryWith_of_ne fun h => hai (Prod.mk.inj h).1.symm]
    exact h₁.childless (h₁.of_none hnone) n
  have hlost : (t₁.addEntryWith a k q i).walk os = none := by
    rw [he]
    exact NameTree.walk_into_leaf (fun _ _ => getInode_addEntryWith_of_ne)
      getInode_addEntryWith_self hleaf hx hys
  obtain ⟨b, hb, _⟩ := hu (Path.named_iff.mpr ⟨os, m, hp⟩)
  rw [hp.parentPath, resolve_rooted (Path.rooted_ofNames hos), hlost] at hb
  cases hb

/-- The new entry is the directory of a new path: the inode then has two paths, and the old path
    is looked for in it. -/
theorem unlinkable_of_end (h₁ : t.LookedUp (os ++ [m]) i t₁) (hp : p.Rooted (os ++ [m]))
    (hq : q.Rooted (ns ++ [k])) (hnone : t.walk (os ++ [m]) = none) {xs : List String}
    (he : os = xs ++ [k]) (hx : t₁.walk xs = some a)
    (hpass : ¬ NameTree.Passes t₁.getInode (rootInode + 1) xs a k)
    (hnames : os ++ [m] ≠ ns ++ [k]) : (t₁.addEntryWith a k q i).Unlinkable p := by
  intro _
  have hos : ∀ x ∈ os, Path.IsName x := fun x hx => hp.names x (by simp [hx])
  refine ⟨i, ?_, .inl ?_⟩
  · rw [hp.parentPath, resolve_rooted (Path.rooted_ofNames hos), he]
    exact NameTree.walk_snoc_eq_some.mpr
      ⟨a, (walk_addEntryWith hpass).trans hx, getInode_addEntryWith_self⟩
  · cases hpath : (t₁.addEntryWith a k q i).toPath i with
    | none => rfl
    | some r =>
        obtain ⟨_, huniq⟩ := toPath_eq_some hpath
        have hp' : p ∈ (t₁.addEntryWith a k q i).toPaths i :=
          mem_toPaths_addEntryWith.mpr (.inr ((h₁.paths i p).mpr
            (.inr ⟨_, List.prefix_refl _, hnone, h₁.found, hp⟩)))
        have hq' : q ∈ (t₁.addEntryWith a k q i).toPaths i :=
          mem_toPaths_addEntryWith.mpr (.inl ⟨rfl, Std.ReflCmp.compare_self⟩)
        have heq : p.components = q.components :=
          (Path.cmp_eq_iff.mp (huniq p hp')).symm.trans (Path.cmp_eq_iff.mp (huniq q hq'))
        exact absurd (hp.inj (heq.trans hq)) hnames

/-- The old path is new, and the new entry is on the way to it: the inode of the old path has
    nothing below it, so the way leads on only if it ends there. -/
theorem unlinkable_new_iff (h₁ : t.LookedUp (os ++ [m]) i t₁)
    (h₂ : t₁.LookedUp ns a t₂) (hp : p.Rooted (os ++ [m])) (hq : q.Rooted (ns ++ [k]))
    (hnone : t.walk (os ++ [m]) = none) (hne : t₂.getInode a k ≠ some i) :
    (t₂.addEntryWith a k q i).Unlinkable p ↔
      ∀ xs ys, os = xs ++ k :: ys → t.locate xs = t.locate ns → ys = [] := by
  have hon : ∀ xs ys, os = xs ++ k :: ys → t.locate xs = t.locate ns →
      t₂ = t₁ ∧ t₁.walk xs = some a := fun xs ys he hl =>
    h₂.on_way h₁.found he (NameTree.walk_eq_of_locate_eq h₁.grows.keeps hl)
  constructor
  · intro hu xs ys he hl
    by_contra hys
    obtain ⟨ht, hx⟩ := hon xs ys he hl
    subst ht
    exact not_unlinkable_of_beyond h₁ hp hnone he hx hys hu
  · intro hall
    by_cases hex : ∃ xs ys, os = xs ++ k :: ys ∧ t.locate xs = t.locate ns
    · obtain ⟨xs, ys, he, hl⟩ := hex
      cases hall xs ys he hl
      obtain ⟨ht, hx⟩ := hon xs [] he hl
      subst ht
      refine unlinkable_of_end h₁ hp hq hnone he hx (fun hs => ?_) fun hnames => hne ?_
      · obtain ⟨us, vs, hxs, hu⟩ := hs
        have hvs := hall us (vs ++ [k]) (by rw [he, hxs]; simp)
          (NameTree.locate_eq_of_walk_eq h₁.grows hu h₂.found)
        simp at hvs
      · refine (sameEntry_iff h₁ h₂).mpr ?_
        rw [hnames]
    · exact unlinkable_of_off h₁ h₂ hp hne fun xs ys he hl => hex ⟨xs, ys, he, hl⟩

/-- **A rename misses no key iff it finds the old entry.** -/
theorem renameFinds_iff (h₁ : t.LookedUp (os ++ [m]) i t₁)
    (h₂ : t₁.LookedUp ns a t₂) (hp : p.Rooted (os ++ [m])) (hq : q.Rooted (ns ++ [k])) :
    t.RenameFinds p q ↔
      t₂.getInode a k = some i ∨ (t₂.addEntryWith a k q i).Unlinkable p := by
  have hfor : t.RenameFinds p q ↔ t.locate (ns ++ [k]) = t.locate (os ++ [m]) ∨
      ∀ xs ys, os = xs ++ k :: ys → t.locate xs = t.locate ns →
        match t.walk (os ++ [m]) with
        | some i => ∃ a, t.walk ns = some a ∧ (t.addEntryWith a k q i).Unlinkable p
        | none => ys = [] := by
    refine ⟨fun h => h os m ns k hp hq, fun h os' m' ns' k' hp' hq' => ?_⟩
    obtain ⟨rfl, hm⟩ := List.append_inj' (hp.inj hp') rfl
    obtain ⟨rfl, hk⟩ := List.append_inj' (hq.inj hq') rfl
    cases hm
    cases hk
    exact h
  rw [hfor, ← sameEntry_iff h₁ h₂]
  by_cases hsame : t₂.getInode a k = some i
  · exact iff_of_true (.inl hsame) (.inl hsame)
  · rw [or_iff_right hsame, or_iff_right hsame]
    cases hwalk : t.walk (os ++ [m]) with
    | none => exact (unlinkable_new_iff h₁ h₂ hp hq hwalk hsame).symm
    | some j =>
        obtain ⟨rfl, rfl⟩ := h₁.of_some hwalk
        -- the old path was there: the way to it shows the directory of the new one
        have hon : ∀ xs ys, os = xs ++ k :: ys → t₁.locate xs = t₁.locate ns →
            t₂ = t₁ ∧ t₁.walk ns = some a := by
          intro xs ys he hl
          have hw := NameTree.walk_eq_of_locate_eq (fun _ _ _ h => h) hl
          obtain ⟨ht, hx⟩ := h₂.on_way h₁.found he hw
          exact ⟨ht, hw.symm.trans hx⟩
        constructor
        · intro h
          by_cases hex : ∃ xs ys, os = xs ++ k :: ys ∧ t₁.locate xs = t₁.locate ns
          · obtain ⟨xs, ys, he, hl⟩ := hex
            obtain ⟨ht, hns⟩ := hon xs ys he hl
            obtain ⟨b, hb, hu⟩ := h xs ys he hl
            cases hns.symm.trans hb
            rw [ht]
            exact hu
          · exact unlinkable_of_off h₁ h₂ hp hsame fun xs ys he hl => hex ⟨xs, ys, he, hl⟩
        · intro hu xs ys he hl
          obtain ⟨ht, hns⟩ := hon xs ys he hl
          rw [ht] at hu
          exact ⟨a, hns, hu⟩

end Rename

end InodeTable

open FSAnalyzer

/-! ## 3. One step -/

theorem bind_eq_error {α β : Type} {x : Except Abort α} {f : α → Except Abort β} {e : Abort} :
    (x >>= f) = .error e ↔ x = .error e ∨ ∃ a, x = .ok a ∧ f a = .error e := by
  cases x with
  | error e' => simp [bind, Except.bind]
  | ok a => simp [bind, Except.bind]

section Steps

variable {st : FsState} {p : Path}

theorem toInode_ne_missingKey : toInode st p ≠ .error .missingKey := by
  unfold toInode
  cases st.inodeTable.toInode p with
  | none => exact nofun
  | some r => exact nofun

theorem unlinkResource_eq_missingKey {a : Nat} {n : String} :
    unlinkResource st a n = .error .missingKey ↔ st.inodeTable.removeEntry a n = none := by
  unfold unlinkResource
  cases st.inodeTable.removeEntry a n with
  | none => exact iff_of_true rfl rfl
  | some t => exact iff_of_false nofun nofun

/-- The unlink of a path, as a step. -/
theorem unlink_eq_missingKey (hw : st.inodeTable.WellFormed) (upd : FsState → FsState)
    (hupd : ∀ st, (upd st).inodeTable = st.inodeTable) :
    (toInode st p.parentPath >>= fun r => unlinkResource (upd r.2) r.1 p.filename.native) =
      .error .missingKey ↔ ¬ st.inodeTable.Unlinkable p := by
  rw [← InodeTable.unlink_misses_iff hw, bind_eq_error, or_iff_right toInode_ne_missingKey]
  constructor
  · intro h
    obtain ⟨⟨a, st₁⟩, h1, h2⟩ := h
    obtain ⟨t, ht, rfl⟩ := toInode_eq_ok.mp h1
    rw [unlinkResource_eq_missingKey, hupd] at h2
    exact ⟨a, t, ht, h2⟩
  · intro h
    obtain ⟨a, t, ht, hr⟩ := h
    refine ⟨(a, { st with inodeTable := t }), toInode_eq_ok.mpr ⟨t, ht, rfl⟩, ?_⟩
    rw [unlinkResource_eq_missingKey, hupd]
    exact hr

/-- An effect misses a key iff it expunges, for an event with tags, what cannot be unlinked. -/
theorem processPathEffect_eq_missingKey (hw : st.inodeTable.WellFormed) {effect : EffectType}
    {name : String} : processPathEffect st p effect name = .error .missingKey ↔
      effect = .expunged ∧ (tagsOf st).isSome ∧ ¬ st.inodeTable.Unlinkable p := by
  unfold processPathEffect
  rw [eventTags_eq]
  cases tagsOf st with
  | none => exact iff_of_false nofun fun h => nomatch h.2.1
  | some debugInfo =>
      cases effect with
      | consumed => exact iff_of_false nofun fun h => nomatch h.1
      | produced => exact iff_of_false nofun fun h => nomatch h.1
      | expunged =>
          let fsAccess : FSAccess := ⟨st.blockId, .expunged, debugInfo, name⟩
          have hunlink := unlink_eq_missingKey (p := p) hw (fun st' =>
            { st' with blockAccesses := addPathEffect st'.blockAccesses p fsAccess }) fun _ => rfl
          exact hunlink.trans ⟨fun h => ⟨rfl, rfl, h⟩, fun h => h.2.2⟩

end Steps

/-- **A step finds the keys it pops.** -/
def KeysFound (st : FsState) : FsAction → Prop
  | .charge _ | .newEvent _ => True
  | .operation op =>
      match op.kind with
      | .delFd fd => (st.fdTable.getValue (st.mainProcess, fd)).isSome
      | .hpath dirfd path effect =>
          -- a path that is no link was looked up just before; the target of a link was not
          effect = .expunged → (tagsOf st).isSome → ∀ p i target,
            getAbsolutePath st dirfd ⟨path⟩ = some p → st.inodeTable.resolve p = some i →
            st.symlinkTable.getValue i = some target → st.inodeTable.Unlinkable target
      | .hpathSym dirfd path effect =>
          effect = .expunged → (tagsOf st).isSome → ∀ p,
            getAbsolutePath st dirfd ⟨path⟩ = some p → st.inodeTable.Unlinkable p
      | .rename oldDirfd oldPath newDirfd newPath =>
          ∀ p q, getAbsolutePath st oldDirfd ⟨oldPath⟩ = some p →
            getAbsolutePath st newDirfd ⟨newPath⟩ = some q → st.inodeTable.RenameFinds p q
      | .newFd _ _ _ | .link _ _ _ _ | .symlink _ _ _ => True

section Functions

variable {st : FsState}

theorem analyzeNewFd_ne_missingKey {dirfd : Nat} {path : String} {fd : Int} :
    analyzeNewFd st dirfd path fd ≠ .error .missingKey := by
  unfold analyzeNewFd
  split
  · exact nofun
  · split
    · exact nofun
    · intro h
      rcases bind_eq_error.mp h with h | ⟨r, _, h⟩
      · exact toInode_ne_missingKey h
      · cases h

theorem analyzeDelFd_eq_missingKey (hw : st.inodeTable.WellFormed) {fd : Nat} :
    analyzeDelFd st fd = .error .missingKey ↔
      ¬ (st.fdTable.getValue (st.mainProcess, fd)).isSome := by
  unfold analyzeDelFd
  cases hk : st.fdTable.popEntry (st.mainProcess, fd) with
  | none =>
      rw [Table.popEntry_eq_none.mp hk]
      exact iff_of_true rfl nofun
  | some r =>
      rw [(Table.popEntry_eq_some.mp hk).1]
      dsimp only
      cases ht : st.inodeTable.closeInode r.1.1 r.1.2 with
      | none => exact absurd ht (InodeTable.closeInode_ne_none hw)
      | some t => exact iff_of_false nofun fun h => h rfl

/-- The path of an `hpath` has an entry by the time it is unlinked. -/
theorem unlinkable_of_lookedUp {t t' : InodeTable} {p : Path} {ns : List String} {i : Nat}
    (hl : t.LookedUp ns i t') (hp : p.Rooted ns) : t'.Unlinkable p := by
  intro hn
  obtain ⟨os, m, ho⟩ := Path.named_iff.mp hn
  cases hp.inj ho
  obtain ⟨a, ha, hm⟩ := NameTree.walk_snoc_eq_some.mp hl.found
  have hos : ∀ x ∈ os, Path.IsName x := fun x hx => ho.names x (by simp [hx])
  refine ⟨a, ?_, .inr (.inr ?_)⟩
  · rw [ho.parentPath, InodeTable.resolve_rooted (Path.rooted_ofNames hos)]
    exact ha
  · rw [ho.filename]
    exact Option.isSome_iff_exists.mpr ⟨i, hm⟩

theorem analyzeHpath_eq_missingKey (hw : st.tables.WellFormed) {dirfd : Nat} {path name : String}
    {effect : EffectType} : analyzeHpath st dirfd path effect name = .error .missingKey ↔
      ¬ (effect = .expunged → (tagsOf st).isSome → ∀ p i target,
        getAbsolutePath st dirfd ⟨path⟩ = some p → st.inodeTable.resolve p = some i →
        st.symlinkTable.getValue i = some target → st.inodeTable.Unlinkable target) := by
  unfold analyzeHpath
  cases hp : getAbsolutePath st dirfd ⟨path⟩ with
  | none => exact iff_of_false nofun fun h => h fun _ _ p i target hp => nomatch hp
  | some p =>
      dsimp only
      rw [bind_eq_error, or_iff_right toInode_ne_missingKey]
      constructor
      · intro hx hall
        obtain ⟨⟨i, st₁⟩, h1, h2⟩ := hx
        obtain ⟨t, ht, rfl⟩ := toInode_eq_ok.mp h1
        obtain ⟨ns, hr, hl⟩ := InodeTable.toInode_spec hw.inodes ht
        obtain ⟨he, htags, hu⟩ := (processPathEffect_eq_missingKey hl.wellFormed).mp h2
        cases hlink : st.symlinkTable.getValue i with
        | none =>
            refine hu ?_
            dsimp only
            rw [hlink]
            exact unlinkable_of_lookedUp hl hr
        | some target =>
            refine hu ?_
            dsimp only
            rw [hlink]
            -- the inode of a link is known, so the lookup created nothing
            have hold := hw.links i target hlink
            have hwalk : st.inodeTable.walk ns = some i :=
              hl.grows.walk_old hl.found (Nat.not_le.mpr hold)
            obtain ⟨rfl, _⟩ := hl.of_some hwalk
            exact hall he htags p i target rfl
              ((InodeTable.resolve_rooted hr).trans hwalk) hlink
      · intro hno
        have hno' : effect = .expunged ∧ (tagsOf st).isSome ∧ ∃ i target,
            st.inodeTable.resolve p = some i ∧ st.symlinkTable.getValue i = some target ∧
            ¬ st.inodeTable.Unlinkable target := by
          by_contra hc
          refine hno fun he htags p' i target hp' hi hlink => ?_
          cases hp'
          by_contra hu
          exact hc ⟨he, htags, i, target, hi, hlink, hu⟩
        obtain ⟨he, htags, i, target, hi, hlink, hu⟩ := hno'
        obtain ⟨ns, hr, hwalk⟩ := InodeTable.resolve_eq_some.mp hi
        obtain ⟨j, t, ht, hl⟩ := InodeTable.toInode_rooted hw.inodes hr
        obtain ⟨rfl, rfl⟩ := hl.of_some hwalk
        refine ⟨_, toInode_eq_ok.mpr ⟨_, ht, rfl⟩, ?_⟩
        refine (processPathEffect_eq_missingKey hl.wellFormed).mpr ⟨he, htags, ?_⟩
        dsimp only
        rw [hlink]
        exact hu

theorem analyzeHpathSym_eq_missingKey (hw : st.tables.WellFormed) {dirfd : Nat}
    {path name : String} {effect : EffectType} :
    analyzeHpathSym st dirfd path effect name = .error .missingKey ↔
      ¬ (effect = .expunged → (tagsOf st).isSome → ∀ p,
        getAbsolutePath st dirfd ⟨path⟩ = some p → st.inodeTable.Unlinkable p) := by
  unfold analyzeHpathSym
  cases hp : getAbsolutePath st dirfd ⟨path⟩ with
  | none => exact iff_of_false nofun fun h => h fun _ _ p hp => nomatch hp
  | some p =>
      dsimp only
      rw [processPathEffect_eq_missingKey hw.inodes]
      refine ⟨fun ⟨he, htags, hu⟩ hall => hu (hall he htags p rfl), fun hno => ?_⟩
      by_contra hc
      refine hno fun he htags p' hp' => ?_
      cases hp'
      by_contra hu
      exact hc ⟨he, htags, hu⟩

theorem analyzeLink_ne_missingKey {od nd : Nat} {oldPath newPath : String} :
    FSAnalyzer.analyzeLink st od oldPath nd newPath ≠ .error .missingKey := by
  unfold FSAnalyzer.analyzeLink
  split
  · intro h
    rcases bind_eq_error.mp h with h | ⟨r, _, h⟩
    · exact toInode_ne_missingKey h
    · rcases bind_eq_error.mp h with h | ⟨r', _, h⟩
      · exact toInode_ne_missingKey h
      · cases h
  · exact nofun

theorem analyzeSymlink_ne_missingKey {dirfd : Nat} {path target : String} :
    analyzeSymlink st dirfd path target ≠ .error .missingKey := by
  unfold analyzeSymlink
  split
  · exact nofun
  · intro h
    rcases bind_eq_error.mp h with h | ⟨r, _, h⟩
    · exact toInode_ne_missingKey h
    · cases h

theorem analyzeRename_eq_missingKey (hw : st.tables.WellFormed) {od nd : Nat}
    {oldPath newPath : String} : analyzeRename st od oldPath nd newPath = .error .missingKey ↔
      ¬ ∀ p q, getAbsolutePath st od ⟨oldPath⟩ = some p →
        getAbsolutePath st nd ⟨newPath⟩ = some q → st.inodeTable.RenameFinds p q := by
  unfold analyzeRename
  split
  · rename_i p q hp hq
    rw [bind_eq_error, or_iff_right toInode_ne_missingKey]
    constructor
    · intro he hall
      obtain ⟨⟨i, st₁⟩, h1, h⟩ := he
      obtain ⟨t₁, ht₁, rfl⟩ := toInode_eq_ok.mp h1
      obtain ⟨⟨a, st₂⟩, h2, h⟩ := (bind_eq_error.mp h).resolve_left toInode_ne_missingKey
      obtain ⟨t₂, ht₂, rfl⟩ := toInode_eq_ok.mp h2
      obtain ⟨xs, hx, hl₁⟩ := InodeTable.toInode_spec hw.inodes ht₁
      obtain ⟨ns, k, hq', hk, hl₂⟩ := InodeTable.toInode_parent_spec hl₁.wellFormed ht₂
      dsimp only at h
      split at h
      · cases h
      · rename_i hne
        rw [hk] at h hne
        have hw₃ := hl₂.wellFormed.addEntryWith hl₂.lt (hl₁.lt.trans_le hl₂.nextInode) k q
        have hu := (unlink_eq_missingKey hw₃ id fun _ => rfl).mp h
        obtain ⟨os, m, ho⟩ := Path.named_iff.mp (Classical.not_imp.mp hu).1
        cases hx.inj ho
        rcases (InodeTable.renameFinds_iff hl₁ hl₂ ho hq').mp (hall p q hp hq) with hs | hs
        · exact hne hs
        · exact hu hs
    · intro hno
      have hno : ¬ st.inodeTable.RenameFinds p q := by
        intro hr
        refine hno fun p' q' hp' hq' => ?_
        cases Option.some.inj (hp.symm.trans hp')
        cases Option.some.inj (hq.symm.trans hq')
        exact hr
      have hnames : ∃ os m ns k, p.Rooted (os ++ [m]) ∧ q.Rooted (ns ++ [k]) := by
        by_contra hc
        exact hno fun os m ns k ho hq' => absurd ⟨os, m, ns, k, ho, hq'⟩ hc
      obtain ⟨os, m, ns, k, ho, hq'⟩ := hnames
      have hns : ∀ x ∈ ns, Path.IsName x := fun x hx => hq'.names x (by simp [hx])
      have hw' : st.inodeTable.WellFormed := hw.inodes
      obtain ⟨i, t₁, ht₁, hl₁⟩ := InodeTable.toInode_rooted hw' ho
      obtain ⟨a, t₂, ht₂, hl₂⟩ :=
        InodeTable.toInode_rooted hl₁.wellFormed (Path.rooted_ofNames hns)
      rw [← hq'.parentPath] at ht₂
      rw [InodeTable.renameFinds_iff hl₁ hl₂ ho hq', not_or] at hno
      refine ⟨_, toInode_eq_ok.mpr ⟨t₁, ht₁, rfl⟩, bind_eq_error.mpr (.inr
        ⟨_, toInode_eq_ok.mpr ⟨t₂, ht₂, rfl⟩, ?_⟩)⟩
      dsimp only
      rw [hq'.filename, if_neg hno.1]
      let st₃ : FsState := { st with inodeTable := t₂.addEntryWith a k q i }
      have hw₃ : st₃.inodeTable.WellFormed :=
        hl₂.wellFormed.addEntryWith hl₂.lt (hl₁.lt.trans_le hl₂.nextInode) k q
      exact (unlink_eq_missingKey hw₃ id fun _ => rfl).mpr hno.2
  · rename_i hno
    exact iff_of_false nofun fun h => h fun p q hp hq => absurd hq (hno p q hp)

end Functions

/-- **A step misses a key iff it does not find what it pops.** -/
theorem fsStep_eq_missingKey {st : FsState} (hw : st.tables.WellFormed) {a : FsAction} :
    fsStep st a = .error .missingKey ↔ ¬ KeysFound st a := by
  cases a with
  | charge blockId => exact iff_of_false nofun fun h => h trivial
  | newEvent e => exact iff_of_false nofun fun h => h trivial
  | operation op =>
      show analyzeOperation st op = _ ↔ _
      unfold analyzeOperation KeysFound
      cases hop : op.kind with
      | newFd dirfd path fd =>
          exact iff_of_false analyzeNewFd_ne_missingKey fun h => h (by simp only [hop])
      | delFd fd =>
          simp only [hop]
          exact analyzeDelFd_eq_missingKey hw.inodes
      | hpath dirfd path effect =>
          simp only [hop]
          exact analyzeHpath_eq_missingKey hw
      | hpathSym dirfd path effect =>
          simp only [hop]
          exact analyzeHpathSym_eq_missingKey hw
      | link od oldPath nd newPath =>
          exact iff_of_false analyzeLink_ne_missingKey fun h => h (by simp only [hop])
      | rename od oldPath nd newPath =>
          simp only [hop]
          exact analyzeRename_eq_missingKey hw
      | symlink dirfd path target =>
          exact iff_of_false analyzeSymlink_ne_missingKey fun h => h (by simp only [hop])

/-! ## 4. Runs -/

/-- **Every pop finds its key**: whatever list of actions is analysed after the set-up for `t`,
    the analysis does not end in a missing key. -/
def PopsFind (t : Trace) (as : List FsAction) : Prop :=
  ∀ st₀, setUp t = .ok st₀ → fsRun st₀ as ≠ .error .missingKey

/-- A run that misses a key does so in one of its steps. -/
theorem fsRun_eq_missingKey {st : FsState} {as : List FsAction} {e : Abort} :
    fsRun st as = .error e ↔
      ∃ bs a st₁, bs ++ [a] <+: as ∧ fsRun st bs = .ok st₁ ∧ fsStep st₁ a = .error e := by
  induction as using List.reverseRecOn with
  | nil =>
      refine iff_of_false nofun ?_
      intro hc
      obtain ⟨bs, a, st₁, hp, _⟩ := hc
      have := hp.length_le
      simp at this
  | append_singleton as a ih =>
      rw [fsRun_append, bind_eq_error]
      simp only [fsRun_singleton]
      constructor
      · intro hc
        rcases hc with h | ⟨st₁, h1, h2⟩
        · obtain ⟨bs, b, st₁, hp, hrest⟩ := ih.mp h
          exact ⟨bs, b, st₁, hp.trans (List.prefix_append _ _), hrest⟩
        · exact ⟨as, a, st₁, List.prefix_refl _, h1, h2⟩
      · intro hc
        obtain ⟨bs, b, st₁, hp, h1, h2⟩ := hc
        rcases List.prefix_concat_iff.mp hp with he | hp
        · obtain ⟨rfl, hb⟩ := List.append_inj' he rfl
          cases hb
          exact .inr ⟨st₁, h1, h2⟩
        · exact .inl (ih.mpr ⟨bs, b, st₁, hp, h1, h2⟩)

/-- **Every pop of a run finds its key iff every step does.** -/
theorem popsFind_iff (t : Trace) (as : List FsAction) :
    PopsFind t as ↔ ∀ st₀, setUp t = .ok st₀ → EachStep KeysFound st₀ as := by
  refine forall_congr' fun st₀ => forall_congr' fun h0 => ?_
  constructor
  · intro hrun bs a st₁ hp h1
    have hw := wellFormed_run (wellFormed_setUp h0) h1
    by_contra hno
    exact hrun (fsRun_eq_missingKey.mpr ⟨bs, a, st₁, hp, h1, (fsStep_eq_missingKey hw).mpr hno⟩)
  · intro hall hrun
    obtain ⟨bs, a, st₁, hp, h1, h2⟩ := fsRun_eq_missingKey.mp hrun
    have hw := wellFormed_run (wellFormed_setUp h0) h1
    exact (fsStep_eq_missingKey hw).mp h2 (hall bs a st₁ hp h1)

/-- Descriptor 3 is closed, and no operation opened it. -/
def unknownFd : Trace where
  threadId := 1
  cwd := "/home"
  execOps := [⟨"sync_1", [⟨.delFd 3, false, "close"⟩]⟩]
  blocks := [⟨1, .MAIN, [.submitOp ⟨"sync_1", none, ["node_close"]⟩]⟩]

/-- In a trace that the parser accepts, `AnalyzeDelFd` pops a descriptor that is not there. -/
theorem popsFind_fails : ¬ ∀ t, TraceParser.Accepts t → PopsFind t t.fsActions := by
  intro h
  have hp : TraceParser.parse (dump unknownFd) = .ok unknownFd := by decide +kernel
  have hmiss : abortOf (analyzeTrace .init unknownFd) = some .missingKey := by decide +kernel
  have hrun := abortOf_eq_some.mp hmiss
  rw [analyzeTrace_eq_run] at hrun
  rcases bind_eq_error.mp hrun with h0 | ⟨st₀, h0, hrun⟩
  · have hset : abortOf (setUp unknownFd) = none := by decide +kernel
    rw [h0] at hset
    cases hset
  · exact h unknownFd ⟨_, hp⟩ st₀ h0 hrun

end Fsracer

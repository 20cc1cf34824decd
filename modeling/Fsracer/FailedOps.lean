/-
  File:      Fsracer/FailedOps.lean
  Subject:   FAILED OPERATIONS: what the failed mark of an operation does to the tables.

  The tracer and the parser mark an operation whose call failed; `isFailed` has no caller, and
  every handler of the analyzer works on a failed operation as on any other. Only `AnalyzeNewFd`
  leaves out a call that returned no descriptor. **`failedKeeps_iff`**: the analysis of a failed
  operation returns and leaves the tables alone exactly when the same operation, had it succeeded,
  would return and change nothing.
-/
import Mathlib
import Fsracer.Returns

namespace Fsracer

open FSAnalyzer

/-! ## 1. Tables that agree -/

/-- **What a failed operation is to leave alone**: the inode of every path that has one, the
    descriptors, the open entries and the symbolic links. -/
structure Unaffected (f f' : FileTables) : Prop where
  bindings : ∀ p i, f.inodes.resolve p = some i → f'.inodes.resolve p = some i
  fds : ∀ key, f'.fds.getValue key = f.fds.getValue key
  opens : ∀ key, f'.inodes.openInodes.getValue key = f.inodes.openInodes.getValue key
  links : ∀ i, f'.links.getValue i = f.links.getValue i

theorem Unaffected.refl (f : FileTables) : Unaffected f f :=
  ⟨fun _ _ h => h, fun _ => rfl, fun _ => rfl, fun _ => rfl⟩

namespace InodeTable

/-- An inode has exactly one path, `more` counted among its paths. -/
def OnePath (t : InodeTable) (inode : Nat) (more : Path → Prop) : Prop :=
  ∃ p, ∀ q, (q ∈ t.toPaths inode ∨ more q) ↔ Path.cmp p q = .eq

/-- The entry of a path, if there is one, is not removed by `RemoveEntry`: the path of its
    directory is not unique, or the entry is open and marked already. `more` are the paths that an
    operation gives to the inode of the directory before it removes the entry. -/
def Sticks (t : InodeTable) (p : Path) (more : Nat → Nat → Path → Prop) : Prop :=
  ∀ a i, t.resolve p.parentPath = some a → t.getInode a p.filename.native = some i →
    ¬ t.OnePath a (more a i) ∨
      ∃ c, t.openInodes.getValue (a, p.filename.native) = some (.unlinked, c)

theorem OnePath.congr {t t' : InodeTable} {i : Nat} {more more' : Path → Prop}
    (h : ∀ q, (q ∈ t.toPaths i ∨ more q) ↔ (q ∈ t'.toPaths i ∨ more' q)) :
    t.OnePath i more ↔ t'.OnePath i more' := by
  unfold OnePath
  simp only [h]

/-- `ToPath` returns for an inode with one path. -/
theorem toPath_eq_none {t : InodeTable} {i : Nat} :
    t.toPath i = none ↔ ¬ t.OnePath i fun _ => False := by
  constructor
  · intro hnone hone
    obtain ⟨p, hp⟩ := hone
    have hmem : p ∈ t.toPaths i := ((hp p).mpr Std.ReflCmp.compare_self).resolve_right id
    obtain ⟨q, hq⟩ := toPath_isSome hmem fun q hq => (hp q).mp (.inl hq)
    rw [hnone] at hq
    cases hq
  · intro hno
    cases h : t.toPath i with
    | none => rfl
    | some p =>
        obtain ⟨hp, hall⟩ := toPath_eq_some h
        refine absurd ⟨p, fun q => ⟨fun hq => hall q (hq.resolve_right id), fun he => ?_⟩⟩ hno
        exact .inl ((Std.TreeSet.mem_congr he).mp hp)

/-! ## 2. What a changed entry does to the paths -/

section Change

variable {t t₁ u : InodeTable} {p q : Path} {ms ns : List String} {n k : String} {a b i : Nat}

/-- There is nothing to remove of a path that leads nowhere. -/
theorem sticks_of_missing (hp : p.Rooted ns) (h : t.walk ns = none)
    {more : Nat → Nat → Path → Prop} : t.Sticks p more := by
  intro c j hc hj
  rcases List.eq_nil_or_concat ns with rfl | ⟨ms, n, rfl⟩
  · cases h
  · rw [List.concat_eq_append] at hp h
    rw [resolve_parentPath hp] at hc
    rw [hp.filename] at hj
    have hfound : t.walk (ms ++ [n]) = some j := NameTree.walk_snoc_eq_some.mpr ⟨c, hc, hj⟩
    rw [h] at hfound
    cases hfound

/-- **An entry that is entered again** keeps every path exactly if its own path, when it led
    anywhere, led to the same inode. -/
theorem reentered_iff (hkeep : ∀ c m j, t.getInode c m = some j → t₁.getInode c m = some j)
    (hold : ∀ c m j, c = a → t.getInode c m = some j → t.walk ns = some a)
    (hq : q.Rooted (ns ++ [k])) (ha : t₁.walk ns = some a) :
    (∀ r j, t.resolve r = some j → (t₁.addEntryWith a k q i).resolve r = some j) ↔
      ∀ j, t.resolve q = some j → j = i := by
  constructor
  · intro h j hj
    have hparent := h q.parentPath a
    rw [resolve_parentPath hq, resolve_parentPath hq] at hparent
    have hj' := h q j hj
    rw [resolve_rooted hq] at hj hj'
    obtain ⟨c, hc, hcj⟩ := NameTree.walk_snoc_eq_some.mp hj
    cases (NameTree.walk_mono hkeep hc).symm.trans ha
    obtain ⟨c', hc', hcj'⟩ := NameTree.walk_snoc_eq_some.mp hj'
    cases hc'.symm.trans (hparent hc)
    rw [getInode_addEntryWith_self] at hcj'
    exact (Option.some.inj hcj').symm
  · intro h r j hr
    refine resolve_mono (fun c m x hc hx => ?_) hr
    rw [getInode_addEntryWith]
    split
    · rename_i he
      cases he
      have hw : t.resolve q = some x := by
        rw [resolve_rooted hq]
        exact NameTree.walk_snoc_eq_some.mpr ⟨a, hold a k x rfl hx, hx⟩
      rw [h x hw]
    · exact hkeep c m x hx

/-- An entry that is dropped keeps every path exactly if there was no such entry before. -/
theorem dropped_iff (hkeep : ∀ c m j, t.getInode c m = some j → t₁.getInode c m = some j)
    (hold : ∀ m j, t.getInode b m = some j → t.walk ms = some b) (hp : p.Rooted (ms ++ [n])) :
    (∀ r j, t.resolve r = some j → (t₁.dropEntry b n i q).resolve r = some j) ↔
      t.getInode b n = none := by
  constructor
  · intro h
    by_contra hne
    obtain ⟨j, hj⟩ := Option.ne_none_iff_exists'.mp hne
    have hb := hold n j hj
    have hparent := h p.parentPath b
    have hgone := h p j
    rw [resolve_parentPath hp, resolve_parentPath hp] at hparent
    rw [resolve_rooted hp, resolve_rooted hp] at hgone
    obtain ⟨c, hc, hj'⟩ := NameTree.walk_snoc_eq_some.mp
      (hgone (NameTree.walk_snoc_eq_some.mpr ⟨b, hb, hj⟩))
    cases hc.symm.trans (hparent hb)
    rw [getInode_dropEntry_self] at hj'
    cases hj'
  · intro h r j hr
    refine resolve_mono (fun c m x _ hx => ?_) hr
    rw [getInode_dropEntry]
    split
    · rename_i he
      cases he
      rw [h] at hx
      cases hx
    · exact hkeep c m x hx

/-- **An entry that is removed**: nothing changes exactly if there was no entry before, or it
    sticks. -/
theorem removed_iff (hw : t.WellFormed)
    (hkeep : ∀ c m j, t.getInode c m = some j → t₁.getInode c m = some j)
    (hopen : ∀ key, t₁.openInodes.getValue key = t.openInodes.getValue key)
    (hold : ∀ m j, t.getInode b m = some j → t.walk ms = some b)
    (hp : p.Rooted (ms ++ [n])) (hb : t₁.walk ms = some b) (hr : t₁.removeEntry b n = some u) :
    ((∀ r j, t.resolve r = some j → u.resolve r = some j) ∧
        ∀ key, u.openInodes.getValue key = t.openInodes.getValue key) ↔
      ∀ c j, t.resolve p.parentPath = some c → t.getInode c n = some j →
        t₁.toPath c = none ∨ ∃ x, t.openInodes.getValue (c, n) = some (.unlinked, x) := by
  rw [resolve_parentPath hp]
  have hkeeps : ∀ r j, t.resolve r = some j → t₁.resolve r = some j := fun r j h =>
    resolve_mono (fun c m x _ hx => hkeep c m x hx) h
  -- the directory of the path, if it was there, is the one whose entry is removed
  have hdir : ∀ c, t.walk ms = some c → c = b := fun c hc =>
    Option.some.inj ((NameTree.walk_mono hkeep hc).symm.trans hb)
  rw [removeEntry_eq] at hr
  cases hpath : t₁.toPath b with
  | none =>
      rw [hpath] at hr
      cases hr
      refine iff_of_true ⟨hkeeps, hopen⟩ fun c j hc _ => .inl ?_
      rw [hdir c hc, hpath]
  | some pathP =>
      have hfree : (∀ x, t.openInodes.getValue (b, n) ≠ some (.unlinked, x)) →
          ((∀ c j, t.walk ms = some c → t.getInode c n = some j →
            t₁.toPath c = none ∨ ∃ x, t.openInodes.getValue (c, n) = some (.unlinked, x)) ↔
          t.getInode b n = none) := by
        intro ho
        constructor
        · intro h
          by_contra hne
          obtain ⟨j, hj⟩ := Option.ne_none_iff_exists'.mp hne
          rcases h b j (hold n j hj) hj with hnone | ⟨x, hx⟩
          · rw [hpath] at hnone
            cases hnone
          · exact ho x hx
        · intro h c j hc hj
          rw [hdir c hc, h] at hj
          cases hj
      rw [hpath, hopen] at hr
      dsimp only at hr
      rcases ho : t.openInodes.getValue (b, n) with _ | ⟨_ | _, x⟩ <;> rw [ho] at hr
      · -- the entry is dropped
        obtain ⟨i, _, rfl⟩ := Option.map_eq_some_iff.mp hr
        rw [hfree (by simp [ho]), ← dropped_iff hkeep hold hp]
        exact and_iff_left hopen
      · -- the entry is marked
        cases hr
        rw [hfree (by simp [ho])]
        refine iff_of_false (fun h => ?_) (fun h => ?_)
        · have hmark := h.2 (b, n)
          rw [getValue_markUnlinked, if_pos rfl, ho] at hmark
          cases hmark
        · have hsome := hw.opened b n _ ho
          rw [h] at hsome
          cases hsome
      · -- the entry was marked before
        cases hr
        refine iff_of_true ⟨hkeeps, hopen⟩ fun c j hc _ => .inr ?_
        rw [hdir c hc]
        exact ⟨x, ho⟩

/-- A removed entry after lookups, which give no path to an inode that was there. -/
theorem removed_iff_sticks (hw : t.WellFormed)
    (hgrow : NameTree.Grows (t.nextInode ≤ ·) (rootInode + 1) t.getInode t₁.getInode)
    (hopen : t₁.openInodes = t.openInodes)
    (hpaths : ∀ c, c < t.nextInode → ∀ q, q ∈ t₁.toPaths c ↔ q ∈ t.toPaths c)
    (hp : p.Rooted (ms ++ [n])) (hb : t₁.walk ms = some b) (hr : t₁.removeEntry b n = some u) :
    ((∀ r j, t.resolve r = some j → u.resolve r = some j) ∧
        ∀ key, u.openInodes.getValue key = t.openInodes.getValue key) ↔
      t.Sticks p fun _ _ _ => False := by
  have hold : ∀ m j, t.getInode b m = some j → t.walk ms = some b := fun m j hj =>
    hgrow.walk_old hb (Nat.not_le.mpr (hw.known b m j hj).1)
  rw [removed_iff hw hgrow.keeps (fun key => by rw [hopen]) hold hp hb hr]
  unfold Sticks
  rw [hp.filename]
  refine forall₄_congr fun c j _ hj => or_congr_left ?_
  rw [toPath_eq_none]
  refine not_congr (OnePath.congr fun q => ?_)
  rw [hpaths c (hw.known c n j hj).1 q]

end Change

section Renamed

variable {t t₁ t₂ t₃ u : InodeTable} {p q : Path} {ms ns : List String} {n k : String}
  {a b i : Nat}

/-- The entries of a table are there after a new name was given to the inode of a path. -/
theorem keeps_of_free (hw : t.WellFormed) (hl : t.LookedUp (ms ++ [n]) i t₁)
    (hl' : t₁.LookedUp ns a t₂) (hfree : t.walk (ns ++ [k]) = none) (c : Nat) (m : String) (j : Nat)
    (hj : t.getInode c m = some j) : (t₂.addEntryWith a k q i).getInode c m = some j := by
  have hgrow := hl.grows₂ hl'
  rw [getInode_addEntryWith_of_ne]
  · exact hgrow.keeps c m j hj
  · intro he
    cases he
    have hwalk : t.walk ns = some a :=
      hgrow.walk_old hl'.found (Nat.not_le.mpr (hw.known a k j hj).1)
    have hfound : t.walk (ns ++ [k]) = some j := NameTree.walk_snoc_eq_some.mpr ⟨a, hwalk, hj⟩
    rw [hfree] at hfound
    cases hfound

/-- An old directory that the way to a path ends in afterwards is the one it ended in before. -/
theorem walk_old_of_free (hw : t.WellFormed) (hl : t.LookedUp (ms ++ [n]) i t₁)
    (hl' : t₁.LookedUp ns a t₂) (hl'' : (t₂.addEntryWith a k q i).LookedUp ms b t₃)
    (hfree : t.walk (ns ++ [k]) = none) (hb : b < t.nextInode) : t.walk ms = some b := by
  have hkeep := keeps_of_free (q := q) hw hl hl' hfree
  cases hwalk : t.walk (ms ++ [n]) with
  | some j =>
      obtain ⟨c, hc, _⟩ := NameTree.walk_snoc_eq_some.mp hwalk
      have hc' := NameTree.walk_mono hl''.grows.keeps (NameTree.walk_mono hkeep hc)
      cases hc'.symm.trans hl''.found
      exact hc
  | none =>
      -- the renamed file is new, so no new entry leads to an old inode
      have hi := hl.of_none hwalk
      have hnext := hl.nextInode.trans hl'.nextInode
      refine NameTree.walk_of_closed (P := (· < t.nextInode)) (fun c m x hx hlt => ?_)
        hl''.found hb
      have hx := (hl''.grows.added c m x hx).resolve_right
        (Nat.not_le.mpr (lt_of_lt_of_le hlt hnext))
      rw [getInode_addEntryWith] at hx
      split at hx
      · cases hx
        exact absurd hlt (Nat.not_lt.mpr hi)
      · have hx := ((hl.grows₂ hl').added c m x hx).resolve_right (Nat.not_le.mpr hlt)
        exact ⟨(hw.known c m x hx).1, hx⟩

/-- **A rename to a free name** changes nothing exactly if the old name sticks, its directory being
    named by the new name too when it is the renamed file itself. -/
theorem renamed_free_iff (hw : t.WellFormed) (hp : p.Rooted (ms ++ [n]))
    (hl : t.LookedUp (ms ++ [n]) i t₁) (hl' : t₁.LookedUp ns a t₂)
    (hl'' : (t₂.addEntryWith a k q i).LookedUp ms b t₃) (hfree : t.walk (ns ++ [k]) = none)
    (hr : t₃.removeEntry b n = some u) :
    ((∀ r j, t.resolve r = some j → u.resolve r = some j) ∧
        ∀ key, u.openInodes.getValue key = t.openInodes.getValue key) ↔
      t.Sticks p fun a i x => a = i ∧ Path.cmp q x = .eq := by
  have hkeep := keeps_of_free (q := q) hw hl hl' hfree
  have hopen : t₃.openInodes = t.openInodes :=
    hl''.openInodes.trans (hl'.openInodes.trans hl.openInodes)
  have hold : ∀ m j, t.getInode b m = some j → t.walk ms = some b := fun m j hj =>
    walk_old_of_free hw hl hl' hl'' hfree (hw.known b m j hj).1
  rw [removed_iff hw (fun c m j hj => hl''.grows.keeps c m j (hkeep c m j hj))
    (fun key => by rw [hopen]) hold hp hl''.found hr]
  unfold Sticks
  rw [hp.filename]
  refine forall₄_congr fun c j hc hj => or_congr_left ?_
  rw [resolve_parentPath hp] at hc
  -- the renamed file is there, so the lookups add nothing
  obtain ⟨rfl, rfl⟩ := hl.of_some (NameTree.walk_snoc_eq_some.mpr ⟨c, hc, hj⟩)
  have hsame := hl''.same (Option.isSome_iff_exists.mpr ⟨c, NameTree.walk_mono hkeep hc⟩)
  rw [toPath_eq_none, hsame]
  refine not_congr (OnePath.congr fun x => ?_)
  rw [or_iff_left id, mem_toPaths_addEntryWith, hl'.toPaths_known (hw.known c n i hj).1, or_comm]
  exact or_congr_right (and_congr_left' eq_comm)

end Renamed

end InodeTable

/-! ## 3. Operations that change nothing -/

/-- **When an operation changes nothing.** It has no path to work on; or it removes an entry that
    is not there or sticks, links or renames to the name the file has, enters a link that is
    known. -/
def Harmless (st : FsState) (op : Operation) : Prop :=
  Quiet st (.operation op) ∨
    match op.kind with
    | .newFd .. | .delFd _ => False
    | .hpath dirfd path effect => effect = .expunged →
        ∀ p, getAbsolutePath st dirfd ⟨path⟩ = some p →
          st.inodeTable.Sticks (dereferenced st p) fun _ _ _ => False
    | .hpathSym dirfd path effect => effect = .expunged →
        ∀ p, getAbsolutePath st dirfd ⟨path⟩ = some p →
          st.inodeTable.Sticks p fun _ _ _ => False
    | .link od oldPath nd newPath =>
        ∀ p, getAbsolutePath st od ⟨oldPath⟩ = some p →
          ∀ q, getAbsolutePath st nd ⟨newPath⟩ = some q →
            ∀ j, st.inodeTable.resolve q = some j → st.inodeTable.resolve p = some j
    | .rename od oldPath nd newPath =>
        ∀ p, getAbsolutePath st od ⟨oldPath⟩ = some p →
          ∀ q, getAbsolutePath st nd ⟨newPath⟩ = some q →
            (∃ j, st.inodeTable.resolve p = some j ∧ st.inodeTable.resolve q = some j) ∨
              (st.inodeTable.resolve q = none ∧
                st.inodeTable.Sticks p fun a i x => a = i ∧ Path.cmp q x = .eq)
    | .symlink dirfd path target =>
        ∀ p, getAbsolutePath st dirfd ⟨path⟩ = some p →
          ∃ i, st.inodeTable.resolve p = some i ∧ st.symlinkTable.getValue i = some ⟨target⟩

section Operations

variable {st : FsState} {p q : Path} {i a b : Nat} {t t' u : InodeTable}

/-- An operation that only works on the inode table. -/
theorem unaffected_iff_inodes {u : InodeTable} :
    Unaffected st.tables ⟨u, st.fdTable, st.symlinkTable⟩ ↔
      (∀ r j, st.inodeTable.resolve r = some j → u.resolve r = some j) ∧
        ∀ key, u.openInodes.getValue key = st.inodeTable.openInodes.getValue key :=
  ⟨fun h => ⟨h.bindings, h.opens⟩, fun h => ⟨h.1, fun _ => rfl, h.2, fun _ => rfl⟩⟩

/-- `AnalyzeNewFd` opens an entry. -/
theorem affected_newFd {key : Nat × Nat} {v : InodeKey} {n : String}
    (ht : t.openInodes = st.inodeTable.openInodes) :
    ¬ Unaffected st.tables ⟨(t.addEntry a n p).openInode a n, st.fdTable.addEntry key v,
      st.symlinkTable⟩ := by
  intro h
  have hopen := h.opens (a, n)
  have hsame : (t.addEntry a n p).openInodes = st.inodeTable.openInodes := ht
  rw [InodeTable.openInode_eq, InodeTable.getValue_setOpen, if_pos rfl, hsame,
    show st.tables.inodes = st.inodeTable from rfl] at hopen
  cases hv : st.inodeTable.openInodes.getValue (a, n) with
  | none =>
      rw [hv] at hopen
      cases hopen
  | some v =>
      rw [hv] at hopen
      exact absurd (congrArg Prod.snd (Option.some.inj hopen)) (Nat.succ_ne_self v.2)

/-- `AnalyzeDelFd` drops a descriptor. -/
theorem affected_delFd {key : Nat × Nat} {v : InodeKey}
    (hk : st.fdTable.getValue key = some v) :
    ¬ Unaffected st.tables ⟨u, st.fdTable.erase key, st.symlinkTable⟩ := by
  intro h
  have hfd := h.fds key
  have hfd : Table.getValue (st.fdTable.erase key) key = st.fdTable.getValue key := hfd
  rw [Table.getValue_erase, if_pos Std.ReflCmp.compare_self, hk] at hfd
  cases hfd

/-- A lookup only adds. -/
theorem unaffected_lookup {ns : List String} (hl : st.inodeTable.LookedUp ns i t) :
    Unaffected st.tables ⟨t, st.fdTable, st.symlinkTable⟩ := by
  refine unaffected_iff_inodes.mpr ⟨fun r j hr => ?_, fun key => by rw [hl.openInodes]⟩
  exact InodeTable.resolve_mono (fun c m x _ hx => hl.grows.keeps c m x hx) hr

/-- `AnalyzeHpath` of a removed path. -/
theorem unaffected_expunge (hw : st.tables.WellFormed)
    (ht : st.inodeTable.toInode p = some (i, t))
    (ht' : t.toInode (followed st.symlinkTable i p).parentPath = some (a, t'))
    (hr : t'.removeEntry a (followed st.symlinkTable i p).filename.native = some u) :
    Unaffected st.tables ⟨u, st.fdTable, st.symlinkTable⟩ ↔
      st.inodeTable.Sticks (dereferenced st p) fun _ _ _ => False := by
  have hwi : st.inodeTable.WellFormed := hw.inodes
  obtain ⟨ns, hp, hl⟩ := InodeTable.toInode_spec hwi ht
  obtain ⟨ms, n, hrooted, hname, hl'⟩ := InodeTable.toInode_parent_spec hl.wellFormed ht'
  rw [hname] at hr
  rw [unaffected_iff_inodes, ← followed_eq hw hp hl]
  refine InodeTable.removed_iff_sticks hwi (hl.grows₂ hl')
    (hl'.openInodes.trans hl.openInodes) (fun c hc x => ?_) hrooted hl'.found hr
  rw [hl'.toPaths_known (hc.trans_le hl.nextInode), hl.toPaths_known hc]

/-- `AnalyzeHpathSym` of a removed path. -/
theorem unaffected_expungeSym (hw : st.tables.WellFormed)
    (ht : st.inodeTable.toInode p.parentPath = some (a, t))
    (hr : t.removeEntry a p.filename.native = some u) :
    Unaffected st.tables ⟨u, st.fdTable, st.symlinkTable⟩ ↔
      st.inodeTable.Sticks p fun _ _ _ => False := by
  have hwi : st.inodeTable.WellFormed := hw.inodes
  obtain ⟨ms, n, hp, hname, hl⟩ := InodeTable.toInode_parent_spec hwi ht
  rw [hname] at hr
  rw [unaffected_iff_inodes]
  exact InodeTable.removed_iff_sticks hwi hl.grows hl.openInodes
    (fun c hc x => hl.toPaths_known hc x) hp hl.found hr

/-- `AnalyzeLink`. -/
theorem unaffected_link (hw : st.tables.WellFormed)
    (ht : st.inodeTable.toInode p = some (i, t)) (ht' : t.toInode q.parentPath = some (a, t')) :
    Unaffected st.tables ⟨t'.addEntryWith a q.filename.native q i, st.fdTable, st.symlinkTable⟩ ↔
      ∀ j, st.inodeTable.resolve q = some j → st.inodeTable.resolve p = some j := by
  have hwi : st.inodeTable.WellFormed := hw.inodes
  obtain ⟨os, hp, hl⟩ := InodeTable.toInode_spec hwi ht
  obtain ⟨ns, k, hq, hname, hl'⟩ := InodeTable.toInode_parent_spec hl.wellFormed ht'
  have hgrow := hl.grows₂ hl'
  have hold : ∀ c m j, c = a → st.inodeTable.getInode c m = some j →
      st.inodeTable.walk ns = some a := by
    intro c m j hc hj
    have hlt := (hwi.known c m j hj).1
    rw [hc] at hlt
    exact hgrow.walk_old hl'.found (Nat.not_le.mpr hlt)
  have hopen : (t'.addEntryWith a k q i).openInodes = st.inodeTable.openInodes :=
    hl'.openInodes.trans hl.openInodes
  rw [hname, unaffected_iff_inodes, and_iff_left (fun key => by rw [hopen]),
    InodeTable.reentered_iff hgrow.keeps hold hq hl'.found]
  refine forall₂_congr fun j hj => ?_
  -- the inode of the old path is an old one exactly if the path led there before
  constructor
  · intro he
    rw [he] at hj ⊢
    obtain ⟨_, hr, hwalk⟩ := InodeTable.resolve_eq_some.mp hj
    rw [InodeTable.resolve_rooted hp]
    exact hl.grows.walk_old hl.found (Nat.not_le.mpr (hwi.walk_lt hwalk))
  · intro he
    rw [InodeTable.resolve_rooted hp] at he
    exact (hl.of_some he).2.symm

/-- `AnalyzeRename` onto a name of the same file. -/
theorem unaffected_renameSame (hw : st.tables.WellFormed)
    (ht : st.inodeTable.toInode p = some (i, t)) (ht' : t.toInode q.parentPath = some (a, t'))
    (hs : t'.getInode a q.filename.native = some i) :
    Unaffected st.tables ⟨t', st.fdTable, st.symlinkTable⟩ ↔
      (∃ j, st.inodeTable.resolve p = some j ∧ st.inodeTable.resolve q = some j) ∨
        (st.inodeTable.resolve q = none ∧
          st.inodeTable.Sticks p fun a i x => a = i ∧ Path.cmp q x = .eq) := by
  have hwi : st.inodeTable.WellFormed := hw.inodes
  obtain ⟨os, hp, hl⟩ := InodeTable.toInode_spec hwi ht
  obtain ⟨ns, k, hq, hname, hl'⟩ := InodeTable.toInode_parent_spec hl.wellFormed ht'
  rw [hname, hl'.getInode_eq k] at hs
  have hkeep : Unaffected st.tables ⟨t', st.fdTable, st.symlinkTable⟩ := by
    refine unaffected_iff_inodes.mpr ⟨fun r j hr => ?_, fun key => ?_⟩
    · exact InodeTable.resolve_mono (fun c m x _ hx => (hl.grows₂ hl').keeps c m x hx) hr
    · rw [hl'.openInodes, hl.openInodes]
  refine iff_of_true hkeep ?_
  rw [InodeTable.resolve_rooted hp, InodeTable.resolve_rooted hq]
  cases hwalk : st.inodeTable.walk os with
  | some j =>
      obtain ⟨rfl, rfl⟩ := hl.of_some hwalk
      exact .inl ⟨i, rfl, hs⟩
  | none =>
      -- the file is new, and so are its names
      refine .inr ⟨?_, InodeTable.sticks_of_missing hp hwalk⟩
      cases hold : st.inodeTable.walk (ns ++ [k]) with
      | none => rfl
      | some j =>
          have hj := NameTree.walk_mono hl.grows.keeps hold
          cases hj.symm.trans hs
          exact absurd (hwi.walk_lt hold) (Nat.not_lt.mpr (hl.of_none hwalk))

/-- `AnalyzeRename` onto the name of another file, or onto a new name. -/
theorem unaffected_rename {b : Nat} {t'' : InodeTable} (hw : st.tables.WellFormed)
    (ht : st.inodeTable.toInode p = some (i, t)) (ht' : t.toInode q.parentPath = some (a, t'))
    (hs : t'.getInode a q.filename.native ≠ some i)
    (ht'' : (t'.addEntryWith a q.filename.native q i).toInode p.parentPath = some (b, t''))
    (hr : t''.removeEntry b p.filename.native = some u) :
    Unaffected st.tables ⟨u, st.fdTable, st.symlinkTable⟩ ↔
      (∃ j, st.inodeTable.resolve p = some j ∧ st.inodeTable.resolve q = some j) ∨
        (st.inodeTable.resolve q = none ∧
          st.inodeTable.Sticks p fun a i x => a = i ∧ Path.cmp q x = .eq) := by
  have hwi : st.inodeTable.WellFormed := hw.inodes
  obtain ⟨os, hp, hl⟩ := InodeTable.toInode_spec hwi ht
  obtain ⟨ns, k, hq, hname, hl'⟩ := InodeTable.toInode_parent_spec hl.wellFormed ht'
  rw [hname] at hs ht''
  have hw₂ := hl'.wellFormed.addEntryWith hl'.lt (hl.lt.trans_le hl'.nextInode) k q
  obtain ⟨ms, n, hp', hname', hl''⟩ := InodeTable.toInode_parent_spec hw₂ ht''
  rw [hname'] at hr
  have hgrow := hl.grows₂ hl'
  have hnext : st.inodeTable.nextInode ≤ t'.nextInode := hl.nextInode.trans hl'.nextInode
  have hentry : (t'.addEntryWith a k q i).getInode a k = some i :=
    InodeTable.getInode_addEntryWith_self
  -- the two names do not stand for one file
  rw [or_iff_right, unaffected_iff_inodes]
  swap
  · intro h
    obtain ⟨j, hpj, hqj⟩ := h
    rw [InodeTable.resolve_rooted hp] at hpj
    rw [InodeTable.resolve_rooted hq] at hqj
    obtain ⟨rfl, rfl⟩ := hl.of_some hpj
    exact hs ((hl'.getInode_eq k).trans hqj)
  cases hres : st.inodeTable.resolve q with
  | some j =>
      refine iff_of_false (fun h => ?_) nofun
      have hparent := h.1 q.parentPath
      have hq' := h.1 q j hres
      rw [InodeTable.resolve_rooted hq] at hres hq'
      simp only [InodeTable.resolve_parentPath hq] at hparent
      obtain ⟨c, hc, hcj⟩ := NameTree.walk_snoc_eq_some.mp hres
      cases (NameTree.walk_mono hgrow.keeps hc).symm.trans hl'.found
      obtain ⟨c', hc', hcj'⟩ := NameTree.walk_snoc_eq_some.mp hq'
      cases hc'.symm.trans (hparent a hc)
      -- the new name has the inode of the old one, and kept its own
      have hi := InodeTable.getInode_of_removeEntry hr hcj'
      rw [hl''.grows.keeps a k i hentry] at hi
      exact hs (hi ▸ hgrow.keeps a k j hcj)
  | none =>
      rw [InodeTable.resolve_rooted hq] at hres
      cases hp.inj hp'
      rw [InodeTable.renamed_free_iff hwi hp hl hl' hl'' hres hr, and_iff_right rfl]

/-- `AnalyzeSymlink`. -/
theorem unaffected_symlink (hw : st.tables.WellFormed) {target : Path}
    (ht : st.inodeTable.toInode p = some (i, t)) :
    Unaffected st.tables ⟨t, st.fdTable, st.symlinkTable.addEntry i target⟩ ↔
      ∃ j, st.inodeTable.resolve p = some j ∧ st.symlinkTable.getValue j = some target := by
  have hwi : st.inodeTable.WellFormed := hw.inodes
  obtain ⟨ns, hp, hl⟩ := InodeTable.toInode_spec hwi ht
  have hwritten : (st.symlinkTable.addEntry i target).getValue i = some target := by
    rw [Table.getValue_addEntry, if_pos Std.ReflCmp.compare_self]
  rw [InodeTable.resolve_rooted hp]
  constructor
  · intro h
    have hlink : some target = st.symlinkTable.getValue i := hwritten.symm.trans (h.links i)
    cases hwalk : st.inodeTable.walk ns with
    | some j =>
        obtain ⟨_, rfl⟩ := hl.of_some hwalk
        exact ⟨i, rfl, hlink.symm⟩
    | none =>
        exact absurd (hw.links i target hlink.symm) (Nat.not_lt.mpr (hl.of_none hwalk))
  · intro h
    obtain ⟨j, hwalk, hlink⟩ := h
    obtain ⟨_, rfl⟩ := hl.of_some hwalk
    have hlook := unaffected_lookup hl
    refine ⟨hlook.bindings, hlook.fds, hlook.opens, fun m => ?_⟩
    show (st.symlinkTable.addEntry i target).getValue m = st.symlinkTable.getValue m
    rw [Table.getValue_addEntry]
    split
    · rename_i he
      rw [← Std.LawfulEqCmp.compare_eq_iff_eq.mp he, hlink]
    · rfl

end Operations

/-- What an operation leaves alone, read off its outcome. -/
theorem unaffected_iff_harmless {st : FsState} {op : Operation} {f : FileTables}
    (hw : st.tables.WellFormed) (h : Outcome st (.operation op) f) :
    Unaffected st.tables f ↔ Harmless st op := by
  have hwi : st.inodeTable.WellFormed := hw.inodes
  unfold Harmless Quiet
  cases h with
  | idle h => exact iff_of_true (.refl _) (.inl h)
  | newFd hop hfd hp ht =>
      obtain ⟨_, _, _, _, hl⟩ := InodeTable.toInode_parent_spec hwi ht
      simp only [hop, hp, not_lt.mpr hfd, reduceCtorEq, or_self, iff_false]
      exact affected_newFd hl.openInodes
  | delFd hop hk _ =>
      simp only [hop, or_self, iff_false]
      exact affected_delFd hk
  | lookup hop heff hp ht =>
      obtain ⟨_, _, hl⟩ := InodeTable.toInode_spec hwi ht
      simp only [hop, heff, false_imp_iff, or_true, iff_true]
      exact unaffected_lookup hl
  | expunge hop hp ht ht' hr =>
      simp only [hop, hp, reduceCtorEq, false_or, forall_const, Option.some.injEq, forall_eq']
      exact unaffected_expunge hw ht ht' hr
  | expungeSym hop hp ht hr =>
      simp only [hop, hp, reduceCtorEq, ne_eq, not_true_eq_false, or_self, false_or, forall_const,
        Option.some.injEq, forall_eq']
      exact unaffected_expungeSym hw ht hr
  | link hop hp hq ht ht' =>
      simp only [hop, hp, hq, reduceCtorEq, or_self, false_or, Option.some.injEq, forall_eq']
      exact unaffected_link hw ht ht'
  | renameSame hop hp hq ht ht' hs =>
      simp only [hop, hp, hq, reduceCtorEq, or_self, false_or, Option.some.injEq, forall_eq']
      exact unaffected_renameSame hw ht ht' hs
  | rename hop hp hq ht ht' hs ht'' hr =>
      simp only [hop, hp, hq, reduceCtorEq, or_self, false_or, Option.some.injEq, forall_eq']
      exact unaffected_rename hw ht ht' hs ht'' hr
  | symlink hop hp ht =>
      simp only [hop, hp, reduceCtorEq, false_or, Option.some.injEq, forall_eq']
      exact unaffected_symlink hw ht

/-- A failed operation is analysed, and leaves the tables alone. -/
def FailedKeeps (st : FsState) (op : Operation) : Prop :=
  ∃ st', analyzeOperation st op.markFailed = .ok st' ∧ Unaffected st.tables st'.tables

/-- **Failed operations change nothing exactly when they would have changed nothing.** -/
theorem failedKeeps_iff {st : FsState} (h : Reached st) (op : Operation) :
    FailedKeeps st op ↔ Returns st (.operation op) ∧ Harmless st op := by
  have hw := h.wellFormed
  constructor
  · intro hkeep
    obtain ⟨st', hst, hsame⟩ := hkeep
    have hst : fsStep st (.operation op) = .ok st' := hst
    exact ⟨(fsStep_returns_iff hw).mp ⟨st', hst⟩,
      (unaffected_iff_harmless hw (outcome_step hst).2).mp hsame⟩
  · intro hharmless
    obtain ⟨hreturns, hharmless⟩ := hharmless
    obtain ⟨st', hst⟩ := (fsStep_returns_iff hw).mpr hreturns
    exact ⟨st', hst, (unaffected_iff_harmless hw (outcome_step hst).2).mpr hharmless⟩

/-- A file that is read, and whose rename fails. -/
def failedRename : Trace where
  threadId := 1
  cwd := "/home"
  execOps := [⟨"sync_1", [⟨.hpath atFdcwd "/a" .consumed, false, "open"⟩]⟩]
  blocks := [⟨1, .MAIN, [.submitOp ⟨"sync_1", none, ["node_open"]⟩]⟩]

theorem failedKeeps_iff_failedRename : ∃ st, analyzeTrace .init failedRename = .ok st ∧
    (FailedKeeps st ⟨.rename atFdcwd "/a" atFdcwd "/b", false, "rename"⟩ ↔
      Returns st (.operation ⟨.rename atFdcwd "/a" atFdcwd "/b", false, "rename"⟩) ∧
        Harmless st ⟨.rename atFdcwd "/a" atFdcwd "/b", false, "rename"⟩) := by
  have hok : (analyzeTrace .init failedRename).toOption.isSome = true := by decide +kernel
  obtain ⟨st, hst⟩ := Option.isSome_iff_exists.mp hok
  have hst := toOption_eq_some.mp hst
  exact ⟨st, hst, failedKeeps_iff (reached_analyzeTrace hst) _⟩

/-- After the failed rename "/a" leads nowhere. -/
theorem failedKeeps_fails : ¬ ∀ t st, TraceParser.Accepts t → analyzeTrace .init t = .ok st →
    ∀ op, FailedKeeps st op := by
  intro h
  have hp : TraceParser.parse (dump failedRename) = .ok failedRename := by decide +kernel
  have hrun : ((analyzeTrace .init failedRename).toOption.bind fun st =>
      (analyzeOperation st (Operation.markFailed
        ⟨.rename atFdcwd "/a" atFdcwd "/b", false, "rename"⟩)).toOption.map fun st' =>
          (st.inodeTable.resolve ⟨"/a"⟩, st'.inodeTable.resolve ⟨"/a"⟩)) =
      some (some 3, none) := by decide +kernel
  obtain ⟨st, hst, hnext⟩ := Option.bind_eq_some_iff.mp hrun
  obtain ⟨st', hst', hboth⟩ := Option.map_eq_some_iff.mp hnext
  obtain ⟨hbefore, hafter⟩ := Prod.mk.inj hboth
  obtain ⟨st₁, hst₁, hkept⟩ := h _ st ⟨_, hp⟩ (toOption_eq_some.mp hst) _
  cases hst₁.symm.trans (toOption_eq_some.mp hst')
  have hlost : st'.inodeTable.resolve ⟨"/a"⟩ = some 3 := hkept.bindings _ _ hbefore
  rw [hafter] at hlost
  cases hlost

end Fsracer

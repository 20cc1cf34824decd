/-
  File:      Fsracer/DeferredUnlink.lean
  Subject:   WHAT THE LAST CLOSE OF AN UNLINKED FILE REMOVES.

  An open entry that is unlinked is marked and stays in the table until its last descriptor is
  closed. The mark is kept under the directory and the name, not under the inode: `AnalyzeNewFd`
  takes it away when the name is opened again, `AnalyzeLink` and `AnalyzeRename` leave it, and no
  operation looks for a mark further up the way of its path.

  * `prepared` -- the names that a step works with, and the entry that it unlinks;
  * `LastUnlinked`, `PathUnlinked` -- what an entry and a path led to when they were last unlinked;
  * `KeepsNewer` -- what a close is to leave alone;
  * `marked_run` -- a marked entry has the inode that was unlinked, and so has every path through
    it that was unlinked at all, as long as the steps are `Careful`;
  * **`newerKept_of_careful`** -- then no close of the run removes a newer file.
-/
import Mathlib
import Fsracer.FsRun
import Fsracer.TraceParser
import Fsracer.Dump

namespace Fsracer

open FSAnalyzer InodeTable

/-! ## 1. What a step unlinks -/

/-- The names that a step works with, its lookups done and its entry made, and the entry that it
    calls `UnlinkResource` for; `none` for a step that does not come to its names. -/
def prepared (st : FsState) : FsAction → Option (InodeTable × Option InodeKey)
  | .charge _ | .newEvent _ => none
  | .operation op =>
      match op.kind with
      | .newFd dirfd path fd =>
          if fd < 0 then none
          else do
            let p ← getAbsolutePath st dirfd ⟨path⟩
            let (a, t) ← st.inodeTable.toInode p.parentPath
            return ((t.addEntry a p.filename.native p).openInode a p.filename.native, none)
      | .delFd _ => none
      | .hpath dirfd path effect => do
          let p ← getAbsolutePath st dirfd ⟨path⟩
          let (i, t) ← st.inodeTable.toInode p
          if effect = .expunged then
            let q := followed st.symlinkTable i p
            let (a, t) ← t.toInode q.parentPath
            return (t, some (a, q.filename.native))
          else return (t, none)
      | .hpathSym dirfd path effect =>
          if effect = .expunged then do
            let p ← getAbsolutePath st dirfd ⟨path⟩
            let (a, t) ← st.inodeTable.toInode p.parentPath
            return (t, some (a, p.filename.native))
          else none
      | .link oldDirfd oldPath newDirfd newPath => do
          let p ← getAbsolutePath st oldDirfd ⟨oldPath⟩
          let q ← getAbsolutePath st newDirfd ⟨newPath⟩
          let (i, t) ← st.inodeTable.toInode p
          let (a, t) ← t.toInode q.parentPath
          return (t.addEntryWith a q.filename.native q i, none)
      | .rename oldDirfd oldPath newDirfd newPath => do
          let p ← getAbsolutePath st oldDirfd ⟨oldPath⟩
          let q ← getAbsolutePath st newDirfd ⟨newPath⟩
          let (i, t) ← st.inodeTable.toInode p
          let (a, t) ← t.toInode q.parentPath
          if t.getInode a q.filename.native = some i then return (t, none)
          else
            let (b, t) ← (t.addEntryWith a q.filename.native q i).toInode p.parentPath
            return (t, some (b, p.filename.native))
      | .symlink dirfd path _ => do
          let p ← getAbsolutePath st dirfd ⟨path⟩
          let (_, t) ← st.inodeTable.toInode p
          return (t, none)

/-- The names of a step before it removes one. -/
def named (st : FsState) (a : FsAction) : InodeTable :=
  match prepared st a with
  | some (t, _) => t
  | none => st.inodeTable

/-- The entry that a step unlinks. -/
def unlinkedKey (st : FsState) (a : FsAction) : Option InodeKey :=
  (prepared st a).bind (·.2)

/-- An entry and its inode. -/
def InodeTable.binding (t : InodeTable) (a : Nat) (n : String) : Option (InodeKey × Nat) :=
  (t.getInode a n).map fun i => ((a, n), i)

/-- **The binding that a step unlinks**: the entry, and its inode at that moment. -/
def unlinked (st : FsState) (a : FsAction) : Option (InodeKey × Nat) :=
  (unlinkedKey st a).bind fun key => (named st a).binding key.1 key.2

theorem named_eq {st : FsState} {a : FsAction} {t : InodeTable} {k : Option InodeKey}
    (h : prepared st a = some (t, k)) : named st a = t := by
  unfold named
  rw [h]

theorem unlinkedKey_eq {st : FsState} {a : FsAction} {t : InodeTable} {k : Option InodeKey}
    (h : prepared st a = some (t, k)) : unlinkedKey st a = k := by
  unfold unlinkedKey
  rw [h]
  rfl

theorem unlinked_eq_some {st : FsState} {a : FsAction} {key : InodeKey} {i : Nat} :
    unlinked st a = some (key, i) ↔
      unlinkedKey st a = some key ∧ (named st a).getInode key.1 key.2 = some i := by
  unfold unlinked InodeTable.binding
  rw [Option.bind_eq_some_iff]
  constructor
  · intro h
    obtain ⟨k, hk, h⟩ := h
    obtain ⟨j, hj, h⟩ := Option.map_eq_some_iff.mp h
    cases h
    exact ⟨hk, hj⟩
  · intro h
    exact ⟨key, h.1, Option.map_eq_some_iff.mpr ⟨i, h.2, rfl⟩⟩

/-! ## 2. The last unlink -/

/-- In the run of `as` from `st₀` the last event of the kind `E` was one with `i`. -/
def LastWith (E : FsState → FsAction → Nat → Prop) (st₀ : FsState) (as : List FsAction)
    (i : Nat) : Prop :=
  ∃ bs a cs st, as = bs ++ a :: cs ∧ fsRun st₀ bs = .ok st ∧ E st a i ∧
    ∀ ds b st', ds ++ [b] <+: cs → fsRun st₀ (bs ++ a :: ds) = .ok st' → ∀ j, ¬ E st' b j

theorem lastWith_snoc {E : FsState → FsAction → Nat → Prop} {st₀ st : FsState}
    {as : List FsAction} {a : FsAction} {i : Nat} (h : fsRun st₀ as = .ok st) :
    LastWith E st₀ (as ++ [a]) i ↔ E st a i ∨ ((∀ j, ¬ E st a j) ∧ LastWith E st₀ as i) := by
  constructor
  · intro hl
    obtain ⟨bs, b, cs, st₁, he, h1, hu, hlater⟩ := hl
    rcases List.eq_nil_or_concat cs with rfl | ⟨ds, d, rfl⟩
    · obtain ⟨rfl, hb⟩ := List.append_inj' he rfl
      cases hb
      cases h1.symm.trans h
      exact .inl hu
    · rw [List.concat_eq_append, ← List.cons_append, ← List.append_assoc] at he
      obtain ⟨rfl, hd⟩ := List.append_inj' he rfl
      cases hd
      rw [List.concat_eq_append] at hlater
      refine .inr ⟨hlater ds a st (List.prefix_refl _) h, bs, b, ds, st₁, rfl, h1, hu, ?_⟩
      exact fun es e st' he' => hlater es e st' (he'.trans (List.prefix_append _ _))
  · intro hl
    rcases hl with hu | ⟨hno, bs, b, cs, st₁, rfl, h1, hu, hlater⟩
    · refine ⟨as, a, [], st, rfl, h, hu, fun ds d st' hp => ?_⟩
      have := hp.length_le
      simp at this
    · refine ⟨bs, b, cs ++ [a], st₁, by simp, h1, hu, fun ds d st' hp hrun k => ?_⟩
      rcases List.prefix_concat_iff.mp hp with he | hp
      · obtain ⟨rfl, hd⟩ := List.append_inj' he rfl
        cases hd
        cases hrun.symm.trans h
        exact hno k
      · exact hlater ds d st' hp hrun k

/-- Nothing happened in a run without such an event. -/
theorem not_lastWith {E : FsState → FsAction → Nat → Prop} {st₀ : FsState} {as : List FsAction}
    {i : Nat} (h : ∀ st, ∀ a ∈ as, ∀ j, ¬ E st a j) : ¬ LastWith E st₀ as i := by
  intro hl
  obtain ⟨bs, a, cs, st, rfl, -, he, -⟩ := hl
  exact h st a (by simp) i he

/-- A step unlinks an entry that has the inode `i`. -/
def UnlinksEntry (key : InodeKey) (st : FsState) (a : FsAction) (i : Nat) : Prop :=
  unlinked st a = some (key, i)

/-- A step unlinks the entry that the names lead to, which has the inode `i`. -/
def UnlinksPath (ns : List String) (st : FsState) (a : FsAction) (i : Nat) : Prop :=
  ∃ ms n b, ns = ms ++ [n] ∧ (named st a).walk ms = some b ∧ unlinked st a = some ((b, n), i)

/-- An entry had the inode `i` when it was last unlinked. -/
def LastUnlinked (st₀ : FsState) (as : List FsAction) (key : InodeKey) (i : Nat) : Prop :=
  LastWith (UnlinksEntry key) st₀ as i

/-- A path led to the inode `i` when it was last unlinked. -/
def PathUnlinked (st₀ : FsState) (as : List FsAction) (ns : List String) (i : Nat) : Prop :=
  LastWith (UnlinksPath ns) st₀ as i

/-! ## 3. What a close is to leave alone -/

/-- **What a close is to leave alone**, after the run of `as` from `st₀`: it removes an entry only
    if the inode of the entry is the one that was unlinked last, and a path that was bound again
    to another inode after its last unlink keeps that inode. -/
structure KeepsNewer (st₀ : FsState) (as : List FsAction) (t t' : InodeTable) : Prop where
  removed : ∀ a n i, t.getInode a n = some i → t'.getInode a n ≠ some i →
    LastUnlinked st₀ as (a, n) i
  paths : ∀ p ns i j, p.Rooted ns → t.resolve p = some i → PathUnlinked st₀ as ns j → i ≠ j →
    t'.resolve p = some i

/-- **No close removes a newer file**: every close of a run over `as` after the set-up for `t`. -/
def NewerKept (t : Trace) (as : List FsAction) : Prop :=
  ∀ st₀ bs op fd st st', setUp t = .ok st₀ → bs ++ [.operation op] <+: as →
    op.kind = .delFd fd → fsRun st₀ bs = .ok st → fsStep st (.operation op) = .ok st' →
    KeepsNewer st₀ bs st.inodeTable st'.inodeTable

/-! ## 4. Careful steps -/

/-- **A step binds no marked name**: the new name of a link or a rename is not open and unlinked,
    unless it leads to the inode of the old name already. -/
def MarksOwn (st : FsState) : FsAction → Prop
  | .charge _ | .newEvent _ => True
  | .operation op =>
      match op.kind with
      | .link oldDirfd oldPath newDirfd newPath | .rename oldDirfd oldPath newDirfd newPath =>
          ∀ p q, getAbsolutePath st oldDirfd ⟨oldPath⟩ = some p →
            getAbsolutePath st newDirfd ⟨newPath⟩ = some q →
            ∀ a c, st.inodeTable.resolve q.parentPath = some a →
              st.inodeTable.openInodes.getValue (a, q.filename.native) = some (.unlinked, c) →
              st.inodeTable.resolve q = st.inodeTable.resolve p
      | .newFd _ _ _ | .delFd _ | .hpath _ _ _ | .hpathSym _ _ _ | .symlink _ _ _ => True

/-- The names lead to the inode `i` by the entry `(a, n)`, which is open and unlinked. -/
structure InodeTable.LeadsMarked (t : InodeTable) (ns : List String) (i a : Nat) (n : String) :
    Prop where
  walk : t.walk ns = some i
  passes : NameTree.Passes t.getInode (rootInode + 1) ns a n
  marked : ∃ c, t.openInodes.getValue (a, n) = some (.unlinked, c)

/-- **A step puts no newer binding and no mark on one way.** What it binds by a marked entry has
    not been unlinked with another inode; and it marks no entry by which a path that was bound
    again leads further. -/
structure Careful (st₀ : FsState) (as : List FsAction) (st : FsState) (act : FsAction) : Prop where
  own : MarksOwn st act
  binds : ∀ ns i j a n, (named st act).LeadsMarked ns i a n →
    ¬ st.inodeTable.LeadsMarked ns i a n → PathUnlinked st₀ as ns j → i = j
  marks : ∀ ns i j a n c, unlinkedKey st act = some (a, n) →
    (named st act).openInodes.getValue (a, n) = some (.linked, c) →
    NameTree.Passes (named st act).getInode (rootInode + 1) ns a n →
    (∀ k, ¬ UnlinksPath ns st act k) → (named st act).walk ns = some i →
    PathUnlinked st₀ as ns j → i = j

/-- Every step of a run is careful. -/
def CarefulRun (st₀ : FsState) (as : List FsAction) : Prop :=
  ∀ bs a st, bs ++ [a] <+: as → fsRun st₀ bs = .ok st → Careful st₀ bs st a

theorem CarefulRun.mono {st₀ : FsState} {as bs : List FsAction} (h : CarefulRun st₀ bs)
    (hp : as <+: bs) : CarefulRun st₀ as := fun cs a st hcs => h cs a st (hcs.trans hp)

/-! ## 5. Marked entries -/

/-- What a step does to a marked entry: it was unlinked just now, or it was marked before, and has
    kept its inode. -/
def MarkedBy (st : FsState) (act : FsAction) (t : InodeTable) : Prop :=
  ∀ a n c, t.openInodes.getValue (a, n) = some (.unlinked, c) →
    (∃ i, t.getInode a n = some i ∧ unlinked st act = some ((a, n), i)) ∨
      ((∀ i, unlinked st act ≠ some ((a, n), i)) ∧
        (∃ c', st.inodeTable.openInodes.getValue (a, n) = some (.unlinked, c')) ∧
        t.getInode a n = st.inodeTable.getInode a n)

namespace InodeTable

/-- No entry is marked newly, and the marked entries keep their inodes. -/
def MarksKept (t t' : InodeTable) : Prop :=
  ∀ a n c, t'.openInodes.getValue (a, n) = some (.unlinked, c) →
    (∃ c', t.openInodes.getValue (a, n) = some (.unlinked, c')) ∧ t'.getInode a n = t.getInode a n

section MarksKept

variable {t t' t'' : InodeTable} {p q : Path} {ns : List String} {n k : String} {a i : Nat}

theorem MarksKept.refl (t : InodeTable) : t.MarksKept t := fun _ _ c hc => ⟨⟨c, hc⟩, rfl⟩

theorem MarksKept.trans (h : t.MarksKept t') (h' : t'.MarksKept t'') : t.MarksKept t'' := by
  intro a n c hc
  obtain ⟨⟨c', hc'⟩, hi⟩ := h' a n c hc
  obtain ⟨hm, hi'⟩ := h a n c' hc'
  exact ⟨hm, hi.trans hi'⟩

/-- An open entry is in the table, and a lookup keeps what is there. -/
theorem LookedUp.marksKept (hw : t.WellFormed) (hl : t.LookedUp ns i t') : t.MarksKept t' := by
  intro a n c hc
  rw [hl.openInodes] at hc
  obtain ⟨j, hj⟩ := Option.isSome_iff_exists.mp (hw.opened a n _ hc)
  exact ⟨⟨c, hc⟩, by rw [hj, hl.grows.keeps a n j hj]⟩

/-- The entry that is opened is marked no more. -/
theorem marksKept_opened : t.MarksKept ((t.addEntry a n p).openInode a n) := by
  intro b m c hc
  rw [openInode_eq, getValue_setOpen] at hc
  split at hc
  · cases hc
  · rename_i hne
    rw [getInode_openInode, getInode_addEntry, if_neg hne]
    exact ⟨⟨c, hc⟩, rfl⟩

theorem marksKept_addEntryWith
    (h : ∀ c, t.openInodes.getValue (a, n) = some (.unlinked, c) → t.getInode a n = some i) :
    t.MarksKept (t.addEntryWith a n p i) := by
  intro b m c hc
  rw [openInodes_addEntryWith] at hc
  refine ⟨⟨c, hc⟩, ?_⟩
  rw [getInode_addEntryWith]
  split
  · rename_i he
    cases he
    exact (h c hc).symm
  · rfl

/-- A name that is bound to another inode is not marked. -/
theorem marksKept_bound {t₁ t₂ : InodeTable} {os : List String} (hw : t.WellFormed)
    (hl₁ : t.LookedUp os i t₁) (hl₂ : t₁.LookedUp ns a t₂) (hp : p.Rooted os)
    (hq : q.Rooted (ns ++ [k]))
    (h : ∀ b c, t.resolve q.parentPath = some b →
      t.openInodes.getValue (b, k) = some (.unlinked, c) → t.resolve q = t.resolve p) :
    t.MarksKept (t₂.addEntryWith a k q i) := by
  refine ((hl₁.marksKept hw).trans (hl₂.marksKept hl₁.wellFormed)).trans
    (marksKept_addEntryWith fun c hc => ?_)
  rw [hl₂.openInodes, hl₁.openInodes] at hc
  have hgrow := hl₁.grows₂ hl₂
  obtain ⟨j, hj⟩ := Option.isSome_iff_exists.mp (hw.opened a k _ hc)
  have hdir : t.walk ns = some a :=
    hgrow.walk_old hl₂.found (Nat.not_le.mpr (hw.known a k j hj).1)
  have hsame := h a c ((resolve_parentPath hq).trans hdir) hc
  rw [resolve_rooted hq, resolve_rooted hp, walk_snoc, hdir, Option.bind_some, hj] at hsame
  obtain ⟨_, hij⟩ := hl₁.of_some hsame.symm
  rw [hgrow.keeps a k j hj, hij]

/-- The entry that `RemoveEntry` is called for, and the others. -/
theorem marked_removeEntry (hw : t.WellFormed) (h : t.removeEntry a n = some t') {b : Nat}
    {m : String} {c : Nat} (hc : t'.openInodes.getValue (b, m) = some (.unlinked, c)) :
    t'.getInode b m = t.getInode b m ∧ (t.getInode b m).isSome ∧
      (((a, n) = (b, m) ∧ ∃ d, t.openInodes.getValue (a, n) = some (.linked, d)) ∨
        t.openInodes.getValue (b, m) = some (.unlinked, c)) := by
  rcases removeEntry_cases h with ⟨rfl, _⟩ | ⟨d, hd, rfl⟩ | ⟨_, i, _, hno, _, rfl⟩
  · exact ⟨rfl, hw.opened b m _ hc, .inr hc⟩
  · rw [getValue_markUnlinked] at hc
    split at hc
    · rename_i he
      cases he
      exact ⟨rfl, hw.opened _ _ _ hd, .inl ⟨rfl, d, hd⟩⟩
    · exact ⟨rfl, hw.opened b m _ hc, .inr hc⟩
  · have hc : t.openInodes.getValue (b, m) = some (.unlinked, c) := hc
    have hne : (b, m) ≠ (a, n) := by
      intro he
      cases he
      rw [hno] at hc
      cases hc
    rw [getInode_dropEntry_of_ne hne]
    exact ⟨rfl, hw.opened b m _ hc, .inr hc⟩

/-- A close marks nothing, and the entry that it removes is open no more. -/
theorem marksKept_closeInode (hw : t.WellFormed) (h : t.closeInode a n = some t') :
    t.MarksKept t' := by
  intro b m c hc
  rcases closeInode_cases h with ⟨rfl, _⟩ | ⟨_, rfl⟩ | ⟨_, hr⟩ | ⟨ty, d, ho, rfl⟩
  · exact ⟨⟨c, hc⟩, rfl⟩
  · rw [getValue_dropOpen] at hc
    split at hc
    · cases hc
    · exact ⟨⟨c, hc⟩, rfl⟩
  · obtain ⟨hi, _, hcase⟩ := marked_removeEntry hw.dropOpen hr hc
    rw [hi]
    rcases hcase with ⟨_, d, hd⟩ | hc
    · rw [getValue_dropOpen, if_pos rfl] at hd
      cases hd
    · rw [getValue_dropOpen] at hc
      split at hc
      · cases hc
      · exact ⟨⟨c, hc⟩, rfl⟩
  · rw [getValue_setOpen] at hc
    split at hc
    · rename_i he
      cases he
      cases hc
      exact ⟨⟨_, ho⟩, rfl⟩
    · exact ⟨⟨c, hc⟩, rfl⟩

end MarksKept

end InodeTable

section Outcomes

variable {st : FsState} {act : FsAction} {t t' : InodeTable}

/-- What a step does to the names that it works with: nothing, an unlink, a close. -/
inductive Worked (st : FsState) (act : FsAction) (t : InodeTable) : Prop where
  | kept (hkey : unlinkedKey st act = none) (ht : t = named st act)
  | unlinks {key : InodeKey} (hkey : unlinkedKey st act = some key)
      (hr : (named st act).removeEntry key.1 key.2 = some t)
  | closes {key : InodeKey} (hkey : unlinkedKey st act = none)
      (hnamed : named st act = st.inodeTable)
      (hc : st.inodeTable.closeInode key.1 key.2 = some t)

theorem prepared_quiet (h : Quiet st act) : prepared st act = none ∨
    prepared st act = some (st.inodeTable, none) := by
  cases act with
  | charge blockId => exact .inl rfl
  | newEvent e => exact .inl rfl
  | operation op =>
      left
      unfold Quiet at h
      unfold prepared
      cases hop : op.kind with
      | newFd dirfd path fd =>
          simp only [hop] at h
          rcases h with h | h
          · simp [hop, h]
          · simp [hop, h]
      | delFd fd => simp [hop]
      | hpath dirfd path effect =>
          simp only [hop] at h
          simp [hop, h]
      | hpathSym dirfd path effect =>
          simp only [hop] at h
          rcases h with h | h
          · simp [hop, h]
          · simp [hop, h]
      | link od oldPath nd newPath =>
          simp only [hop] at h
          rcases h with h | h
          · simp [hop, h]
          · cases hp : getAbsolutePath st od ⟨oldPath⟩ <;> simp [hop, h, hp]
      | rename od oldPath nd newPath =>
          simp only [hop] at h
          rcases h with h | h
          · simp [hop, h]
          · cases hp : getAbsolutePath st od ⟨oldPath⟩ <;> simp [hop, h, hp]
      | symlink dirfd path target =>
          simp only [hop] at h
          simp [hop, h]

/-- A step that unlinks nothing. -/
theorem worked_kept (hp : prepared st act = some (t, none)) (hw : t.WellFormed)
    (hm : st.inodeTable.MarksKept t) : Worked st act t ∧ (named st act).WellFormed ∧
      st.inodeTable.MarksKept (named st act) := by
  rw [named_eq hp]
  exact ⟨.kept (unlinkedKey_eq hp) (named_eq hp).symm, hw, hm⟩

/-- A step that unlinks an entry. -/
theorem worked_unlinks {a : Nat} {n : String} (hp : prepared st act = some (t, some (a, n)))
    (hw : t.WellFormed) (hm : st.inodeTable.MarksKept t)
    (hr : t.removeEntry a n = some t') : Worked st act t' ∧ (named st act).WellFormed ∧
      st.inodeTable.MarksKept (named st act) := by
  have hr' : (named st act).removeEntry a n = some t' := by
    rw [named_eq hp]
    exact hr
  rw [named_eq hp]
  exact ⟨.unlinks (unlinkedKey_eq hp) hr', hw, hm⟩

/-- A step that does not come to its names. -/
theorem named_of_none (hp : prepared st act = none) :
    unlinkedKey st act = none ∧ named st act = st.inodeTable := by
  unfold unlinkedKey named
  rw [hp]
  exact ⟨rfl, rfl⟩

/-- **What a step does to its names**, read off its outcome. Until it unlinks or closes, a step
    that binds no marked name to another inode leaves the marked entries as they are. -/
theorem Outcome.worked {f : FileTables} (hw : st.tables.WellFormed) (hc : MarksOwn st act)
    (h : Outcome st act f) : Worked st act f.inodes ∧ (named st act).WellFormed ∧
      st.inodeTable.MarksKept (named st act) := by
  have hwi : st.inodeTable.WellFormed := hw.inodes
  cases h with
  | idle hq =>
      rcases prepared_quiet hq with hp | hp
      · obtain ⟨hkey, hnamed⟩ := named_of_none hp
        rw [hnamed]
        exact ⟨.kept hkey hnamed.symm, hwi, .refl _⟩
      · exact worked_kept hp hwi (.refl _)
  | newFd hop hfd hp ht =>
      obtain ⟨ns, n, _, _, hl⟩ := toInode_parent_spec hwi ht
      refine worked_kept (by simp [prepared, hop, hp, ht, hfd]) ?_
        ((hl.marksKept hwi).trans marksKept_opened)
      refine (hl.wellFormed.addEntry hl.lt _ _).openInode ?_
      rw [getInode_addEntry, if_pos rfl]
      rfl
  | @delFd op fd key t hop _ ht =>
      have hp : prepared st (.operation op) = none := by simp [prepared, hop]
      obtain ⟨hkey, hnamed⟩ := named_of_none hp
      rw [hnamed]
      exact ⟨.closes hkey hnamed ht, hwi, .refl _⟩
  | lookup hop heff hp ht =>
      obtain ⟨ns, _, hl⟩ := toInode_spec hwi ht
      exact worked_kept (by simp [prepared, hop, hp, ht, heff]) hl.wellFormed (hl.marksKept hwi)
  | expunge hop hp ht ht' hr =>
      obtain ⟨ns, _, hl⟩ := toInode_spec hwi ht
      obtain ⟨ms, m, _, _, hl'⟩ := toInode_parent_spec hl.wellFormed ht'
      exact worked_unlinks (by simp [prepared, hop, hp, ht, ht']) hl'.wellFormed
        ((hl.marksKept hwi).trans (hl'.marksKept hl.wellFormed)) hr
  | expungeSym hop hp ht hr =>
      obtain ⟨ns, n, _, _, hl⟩ := toInode_parent_spec hwi ht
      exact worked_unlinks (by simp [prepared, hop, hp, ht]) hl.wellFormed (hl.marksKept hwi) hr
  | link hop hp hq ht ht' =>
      obtain ⟨os, hos, hl⟩ := toInode_spec hwi ht
      obtain ⟨ns, k, hq', hk, hl'⟩ := toInode_parent_spec hl.wellFormed ht'
      unfold MarksOwn at hc
      simp only [hop] at hc
      have hc := hc _ _ hp hq
      rw [hk] at hc
      refine worked_kept (by simp [prepared, hop, hp, hq, ht, ht']) ?_ ?_
      · exact hl'.wellFormed.addEntryWith hl'.lt (hl.lt.trans_le hl'.nextInode) _ _
      · rw [hk]
        exact marksKept_bound hwi hl hl' hos hq' hc
  | renameSame hop hp hq ht ht' hs =>
      obtain ⟨ns, _, hl⟩ := toInode_spec hwi ht
      obtain ⟨ms, m, _, _, hl'⟩ := toInode_parent_spec hl.wellFormed ht'
      exact worked_kept (by simp [prepared, hop, hp, hq, ht, ht', hs]) hl'.wellFormed
        ((hl.marksKept hwi).trans (hl'.marksKept hl.wellFormed))
  | @rename op od nd op' np p q i a b t t' t'' u hop hp hq ht ht' hs ht'' hr =>
      obtain ⟨os, hos, hl⟩ := toInode_spec hwi ht
      obtain ⟨ns, k, hq', hk, hl'⟩ := toInode_parent_spec hl.wellFormed ht'
      unfold MarksOwn at hc
      simp only [hop] at hc
      have hc := hc _ _ hp hq
      have hprepared := ht''
      have hne := hs
      rw [hk] at hc hs ht''
      have hw₃ := hl'.wellFormed.addEntryWith hl'.lt (hl.lt.trans_le hl'.nextInode) k q
      obtain ⟨ms, m, _, _, hl''⟩ := toInode_parent_spec hw₃ ht''
      exact worked_unlinks (by simp [prepared, hop, hp, hq, ht, ht', hne, hprepared])
        hl''.wellFormed ((marksKept_bound hwi hl hl' hos hq' hc).trans (hl''.marksKept hw₃)) hr
  | symlink hop hp ht =>
      obtain ⟨ns, _, hl⟩ := toInode_spec hwi ht
      exact worked_kept (by simp [prepared, hop, hp, ht]) hl.wellFormed (hl.marksKept hwi)

/-- **A step marks only what it unlinks**, and takes the inode of no marked entry away. -/
theorem Worked.markedBy (h : Worked st act t) (hwi : st.inodeTable.WellFormed)
    (hw : (named st act).WellFormed) (hm : st.inodeTable.MarksKept (named st act)) :
    MarkedBy st act t := by
  have hnone : unlinkedKey st act = none → ∀ key j, unlinked st act ≠ some (key, j) := by
    intro hkey key j hu
    cases hkey.symm.trans (unlinked_eq_some.mp hu).1
  intro b m c hc
  cases h with
  | kept hkey ht =>
      subst ht
      exact .inr ⟨hnone hkey (b, m), hm b m c hc⟩
  | closes hkey hnamed hclose =>
      exact .inr ⟨hnone hkey (b, m), marksKept_closeInode hwi hclose b m c hc⟩
  | @unlinks key hkey hr =>
      obtain ⟨hi, hsome, hcase⟩ := marked_removeEntry hw hr hc
      rw [hi]
      by_cases he : key = (b, m)
      · subst he
        obtain ⟨i, hi⟩ := Option.isSome_iff_exists.mp hsome
        exact .inl ⟨i, hi, unlinked_eq_some.mpr ⟨hkey, hi⟩⟩
      · refine .inr ⟨fun j hj => ?_, hm b m c (hcase.resolve_left fun hn => he hn.1)⟩
        cases hkey.symm.trans (unlinked_eq_some.mp hj).1
        exact he rfl

/-- A `delFd` closes an entry. -/
theorem Outcome.closes {op : Operation} {fd : Nat} {f : FileTables}
    (h : Outcome st (.operation op) f) (hop : op.kind = .delFd fd) :
    ∃ key : InodeKey, st.inodeTable.closeInode key.1 key.2 = some f.inodes := by
  cases h with
  | idle hq =>
      unfold Quiet at hq
      simp only [hop] at hq
  | @delFd op fd key t _ _ ht => exact ⟨key, ht⟩
  | newFd h | lookup h | expunge h | expungeSym h | link h | renameSame h | rename h | symlink h =>
      cases hop.symm.trans h

/-- What a close takes away was open for the last time, and marked. -/
theorem removed_by_close {a b i : Nat} {m n : String} (hc : t.closeInode a n = some t')
    (hi : t.getInode b m = some i) (hno : t'.getInode b m ≠ some i) :
    t.openInodes.getValue (b, m) = some (.unlinked, 1) := by
  rcases closeInode_cases hc with ⟨rfl, _⟩ | ⟨_, rfl⟩ | ⟨ho, hr⟩ | ⟨ty, d, _, rfl⟩
  · exact absurd hi hno
  · exact absurd hi hno
  · by_cases he : (a, n) = (b, m)
    · cases he
      exact ho
    · rw [getInode_removeEntry hr he] at hno
      exact absurd hi hno
  · exact absurd hi hno

/-- A close takes entries away, and gives none. -/
theorem getInode_of_closeInode {a b i : Nat} {m n : String} (hc : t.closeInode a n = some t')
    (hi : t'.getInode b m = some i) : t.getInode b m = some i := by
  rcases closeInode_cases hc with ⟨rfl, _⟩ | ⟨_, rfl⟩ | ⟨_, hr⟩ | ⟨ty, d, _, rfl⟩
  · exact hi
  · exact hi
  · have hdropped : (t.dropOpen a n).getInode b m = some i := getInode_of_removeEntry hr hi
    exact hdropped
  · exact hi

/-- What leads by a marked entry led there before, where entries are only taken away. -/
theorem InodeTable.LeadsMarked.of_fewer {ns : List String} {i a : Nat} {n : String}
    (h : t'.LeadsMarked ns i a n)
    (hfewer : ∀ b m j, t'.getInode b m = some j → t.getInode b m = some j)
    (hmarked : ∃ c, t.openInodes.getValue (a, n) = some (.unlinked, c)) :
    t.LeadsMarked ns i a n := by
  refine ⟨NameTree.walk_mono hfewer h.walk, ?_, hmarked⟩
  obtain ⟨xs, ys, he, hx⟩ := h.passes
  exact ⟨xs, ys, he, NameTree.walk_mono hfewer hx⟩

end Outcomes

/-! ## 6. Runs -/

/-- What the marks say: every marked entry has the inode that it had when it was last unlinked, and
    every path by such an entry leads where it led when it was last unlinked, if it was. -/
structure Marked (st₀ : FsState) (as : List FsAction) (t : InodeTable) : Prop where
  entries : ∀ a n c, t.openInodes.getValue (a, n) = some (.unlinked, c) →
    ∃ i, t.getInode a n = some i ∧ LastUnlinked st₀ as (a, n) i
  paths : ∀ ns i j a n, t.LeadsMarked ns i a n → PathUnlinked st₀ as ns j → i = j

/-- The entries after a careful step. -/
theorem Marked.entries_step {st₀ st : FsState} {as : List FsAction} {act : FsAction}
    {t : InodeTable} (h : Marked st₀ as st.inodeTable) (hrun : fsRun st₀ as = .ok st)
    (hstep : MarkedBy st act t) (a : Nat) (n : String) (c : Nat)
    (hv : t.openInodes.getValue (a, n) = some (.unlinked, c)) :
    ∃ i, t.getInode a n = some i ∧ LastUnlinked st₀ (as ++ [act]) (a, n) i := by
  rcases hstep a n c hv with ⟨i, hi, hu⟩ | ⟨hno, ⟨c', hc'⟩, hi⟩
  · exact ⟨i, hi, (lastWith_snoc hrun).mpr (.inl hu)⟩
  · obtain ⟨j, hj, hlast⟩ := h.entries a n c' hc'
    exact ⟨j, hi.trans hj, (lastWith_snoc hrun).mpr (.inr ⟨hno, hlast⟩)⟩

/-- The paths after a careful step that does not unlink them. -/
theorem Marked.paths_step {st₀ st : FsState} {as : List FsAction} {act : FsAction}
    {t : InodeTable} (h : Marked st₀ as st.inodeTable) (hc : Careful st₀ as st act)
    (hw : (named st act).WellFormed) (hwork : Worked st act t) {ns : List String} {i j a : Nat}
    {n : String} (hlead : t.LeadsMarked ns i a n) (hno : ∀ k, ¬ UnlinksPath ns st act k)
    (hlast : PathUnlinked st₀ as ns j) : i = j := by
  -- by an entry that was marked before the unlink
  have hnamed : (named st act).LeadsMarked ns i a n → i = j := by
    intro hl
    by_cases hold : st.inodeTable.LeadsMarked ns i a n
    · exact h.paths ns i j a n hold hlast
    · exact hc.binds ns i j a n hl hold hlast
  cases hwork with
  | kept hkey ht =>
      subst ht
      exact hnamed hlead
  | closes hkey heq hclose =>
      obtain ⟨c, hv⟩ := hlead.marked
      have hfewer : ∀ b m x, t.getInode b m = some x → st.inodeTable.getInode b m = some x :=
        fun b m x => getInode_of_closeInode hclose
      rw [heq] at hw
      exact h.paths ns i j a n
        (hlead.of_fewer hfewer (marksKept_closeInode hw hclose a n c hv).1) hlast
  | @unlinks key hkey hr =>
      have hfewer : ∀ b m x, t.getInode b m = some x → (named st act).getInode b m = some x :=
        fun b m x => getInode_of_removeEntry hr
      obtain ⟨c, hv⟩ := hlead.marked
      obtain ⟨-, -, hcase⟩ := marked_removeEntry hw hr hv
      rcases hcase with ⟨he, d, hd⟩ | hv
      · -- by the entry that the step marks
        obtain ⟨b, m⟩ := key
        cases he
        obtain ⟨xs, ys, hns, hx⟩ := hlead.passes
        exact hc.marks ns i j b m d hkey hd ⟨xs, ys, hns, NameTree.walk_mono hfewer hx⟩ hno
          (NameTree.walk_mono hfewer hlead.walk) hlast
      · exact hnamed (hlead.of_fewer hfewer ⟨c, hv⟩)

/-- **In a careful run the marks are true.** -/
theorem marked_run {st₀ st : FsState} {as : List FsAction} (hw : st₀.tables.WellFormed)
    (hopen : ∀ key, st₀.inodeTable.openInodes.getValue key = none)
    (hc : CarefulRun st₀ as) (h : fsRun st₀ as = .ok st) : Marked st₀ as st.inodeTable := by
  induction as using List.reverseRecOn generalizing st with
  | nil =>
      cases h
      refine ⟨fun a n c hv => ?_, fun ns i j a n hlead _ => ?_⟩
      · rw [hopen] at hv
        cases hv
      · obtain ⟨c, hv⟩ := hlead.marked
        rw [hopen] at hv
        cases hv
  | append_singleton as act ih =>
      obtain ⟨st₁, h1, h2⟩ := fsRun_snoc_eq_ok.mp h
      have hmarked := ih (hc.mono (List.prefix_append _ _)) h1
      have hcareful := hc as act st₁ (List.prefix_refl _) h1
      have hw₁ := wellFormed_run hw h1
      obtain ⟨hwork, hwn, hkept⟩ := (outcome_step h2).2.worked hw₁ hcareful.own
      have hwork : Worked st₁ act st.inodeTable := hwork
      refine ⟨hmarked.entries_step h1 (hwork.markedBy hw₁.inodes hwn hkept), ?_⟩
      intro ns i j a n hlead hlast
      rcases (lastWith_snoc h1).mp hlast with hu | ⟨hno, hlast⟩
      · -- the path is unlinked now, and its entry is still the one that was unlinked
        obtain ⟨ms, m, b, rfl, hms, hu⟩ := hu
        obtain ⟨hkey, hj⟩ := unlinked_eq_some.mp hu
        have hfewer : ∀ b m x, st.inodeTable.getInode b m = some x →
            (named st₁ act).getInode b m = some x := by
          intro b m x hx
          cases hwork with
          | kept hnone _ => cases hnone.symm.trans hkey
          | closes hnone _ _ => cases hnone.symm.trans hkey
          | unlinks _ hr => exact getInode_of_removeEntry hr hx
        have hi : (named st₁ act).walk (ms ++ [m]) = some i :=
          NameTree.walk_mono hfewer hlead.walk
        rw [walk_snoc, hms, Option.bind_some] at hi
        exact Option.some.inj (hi.symm.trans hj)
      · exact hmarked.paths_step hcareful hwn hwork hlead hno hlast

theorem openInodes_setUp {t : Trace} {st : FsState} (h : setUp t = .ok st) (key : InodeKey) :
    st.inodeTable.openInodes.getValue key = none := by
  obtain ⟨i, u, hu, ht, _, _⟩ := setUp_eq_ok h
  obtain ⟨ns, _, hl⟩ := toInode_spec wellFormed_init hu
  have he : st.inodeTable = u := congrArg FileTables.inodes ht
  rw [he, hl.openInodes]
  simp [init]

/-- **No close removes a newer file** in a run whose steps are careful. -/
theorem newerKept_of_careful {t : Trace} {as : List FsAction}
    (h : ∀ st₀, setUp t = .ok st₀ → CarefulRun st₀ as) : NewerKept t as := by
  intro st₀ bs op fd st st' h0 hbs hop hrun hstep
  have hmarked := marked_run (wellFormed_setUp h0) (openInodes_setUp h0)
    ((h st₀ h0).mono ((List.prefix_append _ _).trans hbs)) hrun
  obtain ⟨key, hkey⟩ := (outcome_step hstep).2.closes hop
  constructor
  · intro a n i hi hno
    obtain ⟨j, hj, hlast⟩ := hmarked.entries a n 1 (removed_by_close hkey hi hno)
    cases hi.symm.trans hj
    exact hlast
  · intro p ns i j hp hi hlast hne
    rw [resolve_rooted hp] at hi ⊢
    refine NameTree.walk_mono_of_passes (fun a n k hpass hk => ?_) hi
    by_contra hno
    exact hne (hmarked.paths ns i j a n ⟨hi, hpass, 1, removed_by_close hkey hk hno⟩ hlast)

/-- A file is opened and unlinked, another file is linked to its name, the descriptor is closed. -/
def replacedFile : Trace where
  threadId := 1
  cwd := "/home"
  execOps := [⟨"sync_1", [⟨.newFd atFdcwd "/f" 3, false, "open"⟩,
    ⟨.hpathSym atFdcwd "/f" .expunged, false, "unlink"⟩,
    ⟨.link atFdcwd "/g" atFdcwd "/f", false, "linkat"⟩, ⟨.delFd 3, false, "close"⟩]⟩]
  blocks := [⟨1, .MAIN, [.submitOp ⟨"sync_1", none, ["node_link"]⟩]⟩]

/-- A file that is opened, unlinked and closed: nothing is bound by the marked entry. -/
theorem newerKept_of_careful_unlinkedFile : NewerKept replacedFile
    [.operation ⟨.newFd atFdcwd "/f" 3, false, "open"⟩,
      .operation ⟨.hpathSym atFdcwd "/f" .expunged, false, "unlink"⟩,
      .operation ⟨.delFd 3, false, "close"⟩] := by
  let opening : FsAction := .operation ⟨.newFd atFdcwd "/f" 3, false, "open"⟩
  let closing : FsAction := .operation ⟨.delFd 3, false, "close"⟩
  -- the open unlinks nothing, and the close does not come to names
  have hopening : ∀ st, unlinkedKey st opening = none := by
    intro st
    unfold unlinkedKey prepared
    dsimp only [opening]
    rw [if_neg (by decide)]
    cases getAbsolutePath st atFdcwd ⟨"/f"⟩ with
    | none => rfl
    | some p =>
        dsimp only [bind, Option.bind]
        cases st.inodeTable.toInode p.parentPath with
        | none => rfl
        | some r => rfl
  have hclosing : ∀ st, unlinkedKey st closing = none ∧ named st closing = st.inodeTable :=
    fun st => named_of_none rfl
  have hbefore : ∀ st₀ ns j bs, bs <+: [opening] → ¬ PathUnlinked st₀ bs ns j := by
    intro st₀ ns j bs hbs
    refine not_lastWith fun st a ha k hu => ?_
    obtain ⟨ms, m, b, -, -, hu⟩ := hu
    have hkey := (unlinked_eq_some.mp hu).1
    cases List.mem_singleton.mp (hbs.subset ha)
    cases (hopening st).symm.trans hkey
  refine newerKept_of_careful fun st₀ _ bs a st hp _ => ?_
  have hcases : (bs <+: [opening]) ∨ (a = closing) := by
    rcases bs with _ | ⟨b, _ | ⟨b', _ | ⟨b'', bs⟩⟩⟩
    · exact .inl List.nil_prefix
    · obtain ⟨rfl, -⟩ := List.cons_prefix_cons.mp hp
      exact .inl (List.prefix_refl _)
    · obtain ⟨-, hp⟩ := List.cons_prefix_cons.mp hp
      obtain ⟨-, hp⟩ := List.cons_prefix_cons.mp hp
      exact .inr (List.cons_prefix_cons.mp hp).1
    · have hlen := hp.length_le
      simp only [List.cons_append, List.length_cons, List.length_append, List.length_nil] at hlen
      omega
  have hown : MarksOwn st a := by
    have ha := hp.subset (List.mem_append_right bs (List.mem_singleton_self a))
    simp only [List.mem_cons, List.not_mem_nil, or_false] at ha
    rcases ha with rfl | rfl | rfl
    · trivial
    · trivial
    · trivial
  rcases hcases with hbs | rfl
  · exact ⟨hown, fun ns i j _ _ _ _ hl => absurd hl (hbefore st₀ ns j bs hbs),
      fun ns i j _ _ _ _ _ _ _ _ hl => absurd hl (hbefore st₀ ns j bs hbs)⟩
  · obtain ⟨hkey, hnamed⟩ := hclosing st
    refine ⟨hown, fun ns i j a n hl hold => ?_, fun ns i j a n c hk => ?_⟩
    · rw [hnamed] at hl
      exact absurd hl hold
    · cases hkey.symm.trans hk

/-- In a trace that the parser accepts, the close removes the file that was linked last. -/
theorem newerKept_fails : ¬ ∀ t, TraceParser.Accepts t → NewerKept t t.fsActions := by
  intro h
  have hp : TraceParser.parse (dump replacedFile) = .ok replacedFile := by decide +kernel
  let start : List FsAction :=
    [.charge "MAIN_1", .operation ⟨.newFd atFdcwd "/f" 3, false, "open"⟩]
  let unlinking : FsAction := .operation ⟨.hpathSym atFdcwd "/f" .expunged, false, "unlink"⟩
  let linking : FsAction := .operation ⟨.link atFdcwd "/g" atFdcwd "/f", false, "linkat"⟩
  let closing : Operation := ⟨.delFd 3, false, "close"⟩
  have hactions : replacedFile.fsActions =
      start ++ [unlinking] ++ [linking] ++ [.operation closing] := by decide +kernel
  have hrun : ((setUp replacedFile).toOption.bind fun st₀ =>
      (fsRun st₀ start).toOption.bind fun st₂ => (fsStep st₂ unlinking).toOption.bind fun st₃ =>
      (fsStep st₃ linking).toOption.bind fun st => (fsStep st (.operation closing)).toOption.map
        fun st' => (unlinked st₂ unlinking, st.inodeTable.getInode 1 "f",
          st'.inodeTable.getInode 1 "f", (unlinked st₃ linking).isSome)) =
      some (some ((1, "f"), 3), some 4, none, false) := by
    decide +kernel
  obtain ⟨st₀, h0, hrun⟩ := Option.bind_eq_some_iff.mp hrun
  obtain ⟨st₂, h2, hrun⟩ := Option.bind_eq_some_iff.mp hrun
  obtain ⟨st₃, h3, hrun⟩ := Option.bind_eq_some_iff.mp hrun
  obtain ⟨st, h4, hrun⟩ := Option.bind_eq_some_iff.mp hrun
  obtain ⟨st', h5, hvalues⟩ := Option.map_eq_some_iff.mp hrun
  obtain ⟨hu, hvalues⟩ := Prod.mk.inj hvalues
  obtain ⟨hi, hvalues⟩ := Prod.mk.inj hvalues
  obtain ⟨hi', hlink⟩ := Prod.mk.inj hvalues
  have h2 := toOption_eq_some.mp h2
  have h3 := fsRun_snoc_eq_ok.mpr ⟨st₂, h2, toOption_eq_some.mp h3⟩
  have h4 := fsRun_snoc_eq_ok.mpr ⟨st₃, h3, toOption_eq_some.mp h4⟩
  have hkeeps := h replacedFile ⟨_, hp⟩ st₀ _ closing 3 st st' (toOption_eq_some.mp h0)
    (by rw [hactions]) rfl h4 (toOption_eq_some.mp h5)
  have hlast := hkeeps.removed 1 "f" 4 hi (by rw [hi']; exact nofun)
  -- the unlink was of inode 3, and the link unlinks nothing
  rcases (lastWith_snoc h3).mp hlast with hlast | ⟨_, hlast⟩
  · have hlast : unlinked st₃ linking = some ((1, "f"), 4) := hlast
    rw [hlast] at hlink
    cases hlink
  · rcases (lastWith_snoc h2).mp hlast with hlast | ⟨hno, _⟩
    · cases hu.symm.trans hlast
    · exact hno 3 hu

end Fsracer

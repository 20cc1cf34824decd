/-
  File:      Fsracer/Handles.lean
  Subject:   THE COUNTERS OF OPEN HANDLES against the descriptor table.

  `OpenInode` and `CloseInode` count the handles of an entry in `open_inodes`; `AnalyzeNewFd` and
  `AnalyzeDelFd` keep the descriptors in `fd_table`. **`handlesExactIn_iff`**: the counters are the
  numbers of descriptors in every state of a run iff no `newFd` of the run opens a path on a
  descriptor that is still recorded. Such a `newFd` overwrites the descriptor and leaves the
  counter of the path it was open on, so that path is never closed again.
-/
import Mathlib
import Fsracer.FsRun
import Fsracer.TraceParser
import Fsracer.Dump

namespace Fsracer

open FSAnalyzer

/-! ## 1. Descriptors and counters -/

/-- The descriptors of a process that are open on an entry. -/
def fdsOf (f : FileTables) (pid : Nat) (key : InodeKey) : Finset Nat :=
  ((f.fds.keys.filter fun d => d.1 = pid ∧ f.fds.getValue d = some key).map (·.2)).toFinset

/-- **The handle counts are exact**: an entry is open iff a descriptor refers to it, and its
    counter is the number of descriptors. -/
structure HandlesExact (f : FileTables) (pid : Nat) : Prop where
  opened : ∀ key, (f.inodes.openInodes.getValue key).isSome ↔ (fdsOf f pid key).Nonempty
  counter : ∀ key ty n, f.inodes.openInodes.getValue key = some (ty, n) →
    n = (fdsOf f pid key).card

/-- The counter of an entry, 0 if it is not open. -/
def InodeTable.handleCount (t : InodeTable) (key : InodeKey) : Nat :=
  match t.openInodes.getValue key with
  | none => 0
  | some (_, n) => n

/-- No counter stands at 0. -/
def InodeTable.Counted (t : InodeTable) : Prop :=
  ∀ key ty n, t.openInodes.getValue key = some (ty, n) → 0 < n

/-- A counter is never 0, and an entry that is marked as unlinked is still referred to. -/
theorem HandlesExact.inUse {f : FileTables} {pid : Nat} (h : HandlesExact f pid) {key : InodeKey}
    {ty : INodeType} {n : Nat} (hv : f.inodes.openInodes.getValue key = some (ty, n)) :
    0 < n ∧ (fdsOf f pid key).Nonempty := by
  have hopen := (h.opened key).mp (Option.isSome_iff_exists.mpr ⟨_, hv⟩)
  rw [h.counter key ty n hv]
  exact ⟨Finset.card_pos.mpr hopen, hopen⟩

section Descriptors

variable {f f' : FileTables} {pid fd : Nat} {key key' : InodeKey}

theorem mem_fdsOf : fd ∈ fdsOf f pid key ↔ f.fds.getValue (pid, fd) = some key := by
  unfold fdsOf
  simp only [List.mem_toFinset, List.mem_map, List.mem_filter, decide_eq_true_eq, Prod.exists]
  constructor
  · intro hc
    obtain ⟨pid', d, ⟨_, hpid, hv⟩, hd⟩ := hc
    subst hpid hd
    exact hv
  · intro h
    refine ⟨pid, fd, ⟨?_, rfl, h⟩, rfl⟩
    rw [Std.TreeMap.mem_keys]
    by_contra hno
    have hnone := Std.TreeMap.getElem?_eq_none hno
    rw [Table.getValue, hnone] at h
    cases h

theorem fdsOf_congr (h : f'.fds = f.fds) : fdsOf f' pid key = fdsOf f pid key := by
  unfold fdsOf
  rw [h]

/-- A descriptor that is recorded anew is open on its entry only. -/
theorem fdsOf_addEntry (h : f'.fds = f.fds.addEntry (pid, fd) key') : fdsOf f' pid key =
    if key' = key then insert fd (fdsOf f pid key) else (fdsOf f pid key).erase fd := by
  ext d
  rw [mem_fdsOf, h, Table.getValue_addEntry]
  simp only [Std.LawfulEqCmp.compare_eq_iff_eq, Prod.mk.injEq, true_and]
  by_cases hd : fd = d
  · subst hd
    by_cases hk : key' = key
    · simp [hk]
    · simp [hk]
  · by_cases hk : key' = key
    · simp [hk, hd, mem_fdsOf, Ne.symm hd]
    · simp [hk, hd, mem_fdsOf, Ne.symm hd]

/-- A descriptor that is taken out is open nowhere. -/
theorem fdsOf_erase (h : f'.fds = f.fds.erase (pid, fd)) :
    fdsOf f' pid key = (fdsOf f pid key).erase fd := by
  ext d
  rw [mem_fdsOf, h, Table.getValue_erase, Finset.mem_erase, mem_fdsOf]
  simp only [Std.LawfulEqCmp.compare_eq_iff_eq, Prod.mk.injEq, true_and]
  by_cases hd : fd = d
  · simp [hd]
  · simp [hd, Ne.symm hd]

/-- The counts are exact iff they are the numbers of descriptors and none stands at 0. -/
theorem handlesExact_iff : HandlesExact f pid ↔
    f.inodes.Counted ∧ ∀ key, f.inodes.handleCount key = (fdsOf f pid key).card := by
  refine ⟨fun h => ⟨fun key ty n hv => ?_, fun key => ?_⟩, fun ⟨hpos, hc⟩ => ⟨fun key => ?_,
    fun key ty n hv => ?_⟩⟩
  · exact (h.inUse hv).1
  · unfold InodeTable.handleCount
    cases hv : f.inodes.openInodes.getValue key with
    | none =>
        have hno : ¬ (fdsOf f pid key).Nonempty := by
          rw [← h.opened, hv]
          exact Bool.false_ne_true
        rw [Finset.not_nonempty_iff_eq_empty.mp hno, Finset.card_empty]
    | some r => exact h.counter key r.1 r.2 hv
  · rw [← Finset.card_pos, ← hc key]
    unfold InodeTable.handleCount
    cases hv : f.inodes.openInodes.getValue key with
    | none => simp
    | some r => simpa using hpos key r.1 r.2 hv
  · rw [← hc key, InodeTable.handleCount, hv]

end Descriptors

namespace InodeTable

section Counters

variable {t t' : InodeTable} {a : Nat} {n : String} {key : InodeKey}

theorem handleCount_congr (h : t'.openInodes = t.openInodes) :
    t'.handleCount key = t.handleCount key := by
  unfold handleCount
  rw [h]

theorem Counted.congr (hc : t.Counted) (h : t'.openInodes = t.openInodes) : t'.Counted := by
  unfold Counted
  rw [h]
  exact hc

theorem handleCount_setOpen {ty : INodeType} {c : Nat} :
    (t.setOpen a n (ty, c)).handleCount key = if (a, n) = key then c else t.handleCount key := by
  obtain ⟨b, m⟩ := key
  unfold handleCount
  rw [getValue_setOpen]
  by_cases he : (a, n) = (b, m)
  · rw [if_pos he, if_pos he]
  · rw [if_neg he, if_neg he]

theorem handleCount_dropOpen :
    (t.dropOpen a n).handleCount key = if (a, n) = key then 0 else t.handleCount key := by
  obtain ⟨b, m⟩ := key
  unfold handleCount
  rw [getValue_dropOpen]
  by_cases he : (a, n) = (b, m)
  · rw [if_pos he, if_pos he]
  · rw [if_neg he, if_neg he]

theorem Counted.setOpen (hc : t.Counted) {ty : INodeType} {c : Nat} (h : 0 < c) :
    (t.setOpen a n (ty, c)).Counted := by
  intro key ty' c' hv
  obtain ⟨b, m⟩ := key
  rw [getValue_setOpen] at hv
  split at hv
  · cases hv
    exact h
  · exact hc _ _ _ hv

theorem Counted.dropOpen (hc : t.Counted) : (t.dropOpen a n).Counted := by
  intro key ty' c' hv
  obtain ⟨b, m⟩ := key
  rw [getValue_dropOpen] at hv
  split at hv
  · cases hv
  · exact hc _ _ _ hv

/-- `OpenInode` counts one handle more. -/
theorem handleCount_openInode : (t.openInode a n).handleCount key =
    t.handleCount key + if (a, n) = key then 1 else 0 := by
  rw [openInode_eq, handleCount_setOpen]
  split
  · rename_i he
    rw [← he, handleCount]
    cases t.openInodes.getValue (a, n) <;> rfl
  · rfl

theorem Counted.openInode (hc : t.Counted) : (t.openInode a n).Counted := by
  rw [openInode_eq]
  exact hc.setOpen (Nat.succ_pos _)

/-- `RemoveEntry` counts nothing. -/
theorem handleCount_removeEntry (h : t.removeEntry a n = some t') :
    t'.handleCount key = t.handleCount key := by
  rcases removeEntry_cases h with ⟨rfl, _⟩ | ⟨c, ho, rfl⟩ | ⟨_, i, _, _, _, rfl⟩
  · rfl
  · rw [show t.markUnlinked a n c = t.setOpen a n (.unlinked, c) from rfl, handleCount_setOpen]
    split
    · rename_i he
      rw [← he, handleCount, ho]
    · rfl
  · exact handleCount_congr rfl

theorem Counted.removeEntry (hc : t.Counted) (h : t.removeEntry a n = some t') : t'.Counted := by
  rcases removeEntry_cases h with ⟨rfl, _⟩ | ⟨c, ho, rfl⟩ | ⟨_, i, _, _, _, rfl⟩
  · exact hc
  · exact hc.setOpen (hc _ _ _ ho)
  · exact hc.congr rfl

/-- `CloseInode` counts one handle less. -/
theorem handleCount_closeInode (h : t.closeInode a n = some t') :
    t'.handleCount key = t.handleCount key - if (a, n) = key then 1 else 0 := by
  have hcount : ∀ {c : Nat} {ty : INodeType}, t.openInodes.getValue (a, n) = some (ty, c) →
      (a, n) = key → t.handleCount key = c := by
    intro c ty ho he
    rw [← he, handleCount, ho]
  rcases closeInode_cases h with ⟨rfl, ho | ⟨ty, ho⟩⟩ | ⟨ho, rfl⟩ | ⟨ho, hr⟩ | ⟨ty, c, ho, rfl⟩
  · split
    · rename_i he
      have hzero : t'.handleCount key = 0 := by rw [← he, handleCount, ho]
      rw [hzero]
    · rfl
  · split
    · rename_i he
      rw [hcount ho he]
    · rfl
  · rw [handleCount_dropOpen]
    split
    · rename_i he
      rw [hcount ho he]
    · rfl
  · rw [handleCount_removeEntry hr, handleCount_dropOpen]
    split
    · rename_i he
      rw [hcount ho he]
    · rfl
  · rw [handleCount_setOpen]
    split
    · rename_i he
      rw [hcount ho he]
      rfl
    · rfl

theorem Counted.closeInode (hc : t.Counted) (h : t.closeInode a n = some t') : t'.Counted := by
  rcases closeInode_cases h with ⟨rfl, _⟩ | ⟨_, rfl⟩ | ⟨_, hr⟩ | ⟨ty, c, _, rfl⟩
  · exact hc
  · exact hc.dropOpen
  · exact hc.dropOpen.removeEntry hr
  · exact hc.setOpen (Nat.succ_pos _)

end Counters

end InodeTable

/-! ## 2. One step -/

/-- The action opens a path on a descriptor that is still recorded. -/
def ReusesFd (st : FsState) : FsAction → Prop
  | .charge _ | .newEvent _ => False
  | .operation op =>
      match op.kind with
      | .newFd dirfd path fd =>
          0 ≤ fd ∧ (st.fdTable.getValue (st.mainProcess, fd.toNat)).isSome ∧
            ∃ p, getAbsolutePath st dirfd ⟨path⟩ = some p ∧ p.Named
      | _ => False

theorem not_reusesFd_of_quiet {st : FsState} {a : FsAction} (h : Quiet st a) :
    ¬ ReusesFd st a := by
  cases a with
  | charge blockId => exact id
  | newEvent e => exact id
  | operation op =>
      unfold Quiet at h
      unfold ReusesFd
      dsimp only at h ⊢
      cases hop : op.kind with
      | newFd dirfd path fd =>
          rw [hop] at h
          intro hc
          obtain ⟨hfd, _, p, hp, _⟩ := hc
          rcases h with h | h
          · omega
          · rw [h] at hp
            cases hp
      | _ => exact id

/-- What an action does to the counters and the descriptors. -/
inductive HandleChange (st : FsState) (a : FsAction) (f : FileTables) : Prop where
  /-- Nothing. -/
  | same (hreuse : ¬ ReusesFd st a)
      (hcount : ∀ key, f.inodes.handleCount key = st.inodeTable.handleCount key)
      (hfds : f.fds = st.fdTable)
  /-- A descriptor is recorded, and its entry opened. -/
  | opened {fd : Nat} {key : InodeKey}
      (hreuse : ReusesFd st a ↔ (st.fdTable.getValue (st.mainProcess, fd)).isSome)
      (hcount : ∀ k, f.inodes.handleCount k =
        st.inodeTable.handleCount k + if key = k then 1 else 0)
      (hfds : f.fds = st.fdTable.addEntry (st.mainProcess, fd) key)
  /-- A descriptor is taken out, and its entry closed. -/
  | closed {fd : Nat} {key : InodeKey} (hreuse : ¬ ReusesFd st a)
      (hkey : st.fdTable.getValue (st.mainProcess, fd) = some key)
      (hcount : ∀ k, f.inodes.handleCount k =
        st.inodeTable.handleCount k - if key = k then 1 else 0)
      (hfds : f.fds = st.fdTable.erase (st.mainProcess, fd))

section Steps

variable {st : FsState} {a : FsAction} {f : FileTables}

/-- A step that unlinks an entry, after lookups. -/
theorem handleChange_removeEntry {t : InodeTable} {b : Nat} {n : String}
    (hreuse : ¬ ReusesFd st a) (ho : t.openInodes = st.inodeTable.openInodes)
    (hr : t.removeEntry b n = some f.inodes) (hfds : f.fds = st.fdTable) :
    HandleChange st a f ∧ (st.inodeTable.Counted → f.inodes.Counted) := by
  refine ⟨.same hreuse (fun key => ?_) hfds, fun hpos => (hpos.congr ho).removeEntry hr⟩
  rw [InodeTable.handleCount_removeEntry hr, InodeTable.handleCount_congr ho]

theorem handleChange_lookup (hreuse : ¬ ReusesFd st a)
    (ho : f.inodes.openInodes = st.inodeTable.openInodes) (hfds : f.fds = st.fdTable) :
    HandleChange st a f ∧ (st.inodeTable.Counted → f.inodes.Counted) :=
  ⟨.same hreuse (fun _ => InodeTable.handleCount_congr ho) hfds, fun hpos => hpos.congr ho⟩

/-- **What an action does to the counters**, read off its outcome. -/
theorem Outcome.handles (hw : st.tables.WellFormed) (h : Outcome st a f) :
    HandleChange st a f ∧ (st.inodeTable.Counted → f.inodes.Counted) := by
  cases h with
  | idle hq => exact ⟨.same (not_reusesFd_of_quiet hq) (fun _ => rfl) rfl, id⟩
  | @newFd op dirfd path fd p a t hop hfd hp ht =>
      obtain ⟨ns, n, hr, hn, hl⟩ := InodeTable.toInode_parent_spec hw.inodes ht
      have ho : (t.addEntry a p.filename.native p).openInodes = st.inodeTable.openInodes :=
        InodeTable.openInodes_addEntry.trans hl.openInodes
      have hreuse : ReusesFd st (.operation op) ↔
          (st.fdTable.getValue (st.mainProcess, fd.toNat)).isSome := by
        unfold ReusesFd
        simp only [hop]
        exact ⟨fun h => h.2.1, fun h => ⟨hfd, h, p, hp, Path.named_iff.mpr ⟨ns, n, hr⟩⟩⟩
      refine ⟨.opened hreuse (fun key => ?_) rfl, fun hpos => (hpos.congr ho).openInode⟩
      rw [InodeTable.handleCount_openInode, InodeTable.handleCount_congr ho]
  | delFd hop hk ht =>
      exact ⟨.closed (by unfold ReusesFd; simp [hop]) hk
        (fun _ => InodeTable.handleCount_closeInode ht) rfl, fun hpos => hpos.closeInode ht⟩
  | lookup hop _ _ ht =>
      obtain ⟨ns, _, hl⟩ := InodeTable.toInode_spec hw.inodes ht
      exact handleChange_lookup (by unfold ReusesFd; simp [hop]) hl.openInodes rfl
  | expunge hop _ ht ht' hr =>
      obtain ⟨ns, _, hl⟩ := InodeTable.toInode_spec hw.inodes ht
      obtain ⟨ms, m, _, _, hl'⟩ := InodeTable.toInode_parent_spec hl.wellFormed ht'
      exact handleChange_removeEntry (by unfold ReusesFd; simp [hop])
        (hl'.openInodes.trans hl.openInodes) hr rfl
  | expungeSym hop _ ht hr =>
      obtain ⟨ns, n, _, _, hl⟩ := InodeTable.toInode_parent_spec hw.inodes ht
      exact handleChange_removeEntry (by unfold ReusesFd; simp [hop]) hl.openInodes hr rfl
  | link hop _ _ ht ht' =>
      obtain ⟨ns, _, hl⟩ := InodeTable.toInode_spec hw.inodes ht
      obtain ⟨ms, m, _, _, hl'⟩ := InodeTable.toInode_parent_spec hl.wellFormed ht'
      exact handleChange_lookup (by unfold ReusesFd; simp [hop])
        (hl'.openInodes.trans hl.openInodes) rfl
  | renameSame hop _ _ ht ht' _ =>
      obtain ⟨ns, _, hl⟩ := InodeTable.toInode_spec hw.inodes ht
      obtain ⟨ms, m, _, _, hl'⟩ := InodeTable.toInode_parent_spec hl.wellFormed ht'
      exact handleChange_lookup (by unfold ReusesFd; simp [hop])
        (hl'.openInodes.trans hl.openInodes) rfl
  | rename hop _ _ ht ht' _ ht'' hr =>
      obtain ⟨ns, _, hl⟩ := InodeTable.toInode_spec hw.inodes ht
      obtain ⟨ms, m, _, _, hl'⟩ := InodeTable.toInode_parent_spec hl.wellFormed ht'
      obtain ⟨os, o, _, _, hl''⟩ := InodeTable.toInode_parent_spec
        (hl'.wellFormed.addEntryWith hl'.lt (hl.lt.trans_le hl'.nextInode) _ _) ht''
      exact handleChange_removeEntry (by unfold ReusesFd; simp [hop])
        (hl''.openInodes.trans (hl'.openInodes.trans hl.openInodes)) hr rfl
  | symlink hop _ ht =>
      obtain ⟨ns, _, hl⟩ := InodeTable.toInode_spec hw.inodes ht
      exact handleChange_lookup (by unfold ReusesFd; simp [hop]) hl.openInodes rfl

/-- The number of descriptors after an action. -/
theorem card_fdsOf_opened {fd : Nat} {key k : InodeKey}
    (hfds : f.fds = st.fdTable.addEntry (st.mainProcess, fd) key) :
    (fdsOf f st.mainProcess k).card ≤
      (fdsOf st.tables st.mainProcess k).card + if key = k then 1 else 0 := by
  rw [fdsOf_addEntry (f := st.tables) hfds]
  split
  · exact Finset.card_insert_le _ _
  · exact Finset.card_erase_le

theorem card_fdsOf_closed {fd : Nat} {key k : InodeKey}
    (hkey : st.fdTable.getValue (st.mainProcess, fd) = some key)
    (hfds : f.fds = st.fdTable.erase (st.mainProcess, fd)) :
    (fdsOf f st.mainProcess k).card =
      (fdsOf st.tables st.mainProcess k).card - if key = k then 1 else 0 := by
  rw [fdsOf_erase (f := st.tables) hfds]
  by_cases he : key = k
  · subst he
    rw [if_pos rfl, Finset.card_erase_of_mem (mem_fdsOf.mpr hkey)]
  · have hnot : fd ∉ fdsOf st.tables st.mainProcess k := by
      rw [mem_fdsOf]
      exact fun h => he (Option.some.inj (hkey.symm.trans h))
    rw [if_neg he, Finset.erase_eq_of_notMem hnot]
    rfl

/-- A descriptor that is recorded anew leaves the counts exact iff it was not recorded. -/
theorem handlesExact_opened {fd : Nat} {key : InodeKey}
    (h : HandlesExact st.tables st.mainProcess) (hpos : f.inodes.Counted)
    (hcount : ∀ k, f.inodes.handleCount k =
      st.inodeTable.handleCount k + if key = k then 1 else 0)
    (hfds : f.fds = st.fdTable.addEntry (st.mainProcess, fd) key) :
    HandlesExact f st.mainProcess ↔ st.fdTable.getValue (st.mainProcess, fd) = none := by
  have hexact : ∀ k, st.inodeTable.handleCount k = (fdsOf st.tables st.mainProcess k).card :=
    (handlesExact_iff.mp h).2
  rw [handlesExact_iff]
  constructor
  · -- the descriptor was counted for an entry that keeps its counter or gains one
    intro he
    obtain ⟨_, hcount'⟩ := he
    by_contra hne
    obtain ⟨k, hk⟩ := Option.ne_none_iff_exists'.mp hne
    have hold : fd ∈ fdsOf st.tables st.mainProcess k := mem_fdsOf.mpr hk
    have hnew := hcount' k
    rw [hcount, hexact, fdsOf_addEntry (f := st.tables) hfds] at hnew
    by_cases he : key = k
    · rw [if_pos he, if_pos he, Finset.insert_eq_of_mem hold] at hnew
      omega
    · rw [if_neg he, if_neg he] at hnew
      have := Finset.card_erase_lt_of_mem hold
      omega
  · intro hnone
    refine ⟨hpos, fun k => ?_⟩
    have hnot : fd ∉ fdsOf st.tables st.mainProcess k := by
      rw [mem_fdsOf]
      intro h
      cases hnone.symm.trans h
    rw [hcount, hexact, fdsOf_addEntry (f := st.tables) hfds]
    split
    · rw [Finset.card_insert_of_notMem hnot]
    · rw [Finset.erase_eq_of_notMem hnot]
      rfl

end Steps

/-- **A step keeps the counts exact iff it does not reuse a descriptor.** -/
theorem handlesExact_step {st st' : FsState} {a : FsAction} (hw : st.tables.WellFormed)
    (h : HandlesExact st.tables st.mainProcess) (hs : fsStep st a = .ok st') :
    HandlesExact st'.tables st'.mainProcess ↔ ¬ ReusesFd st a := by
  obtain ⟨hp, ho⟩ := outcome_step hs
  rw [hp.mainProcess]
  obtain ⟨hchange, hpos⟩ := ho.handles hw
  obtain ⟨hcounted, hexact⟩ := handlesExact_iff.mp h
  have hexact : ∀ k, st.inodeTable.handleCount k = (fdsOf st.tables st.mainProcess k).card := hexact
  cases hchange with
  | same hreuse hcount hfds =>
      refine iff_of_true (handlesExact_iff.mpr ⟨hpos hcounted, fun k => ?_⟩) hreuse
      rw [hcount, hexact, fdsOf_congr (f := st.tables) hfds]
  | opened hreuse hcount hfds =>
      rw [handlesExact_opened h (hpos hcounted) hcount hfds, hreuse, Option.not_isSome_iff_eq_none]
  | closed hreuse hkey hcount hfds =>
      refine iff_of_true (handlesExact_iff.mpr ⟨hpos hcounted, fun k => ?_⟩) hreuse
      rw [hcount, hexact, card_fdsOf_closed hkey hfds]

/-- No entry has more descriptors than its counter says. -/
def HandlesCovered (st : FsState) : Prop :=
  ∀ key, (fdsOf st.tables st.mainProcess key).card ≤ st.inodeTable.handleCount key

/-- A counter that leaks only grows. -/
theorem handlesCovered_step {st st' : FsState} {a : FsAction} (hw : st.tables.WellFormed)
    (h : HandlesCovered st) (hs : fsStep st a = .ok st') : HandlesCovered st' := by
  obtain ⟨hp, ho⟩ := outcome_step hs
  intro k
  have hk := h k
  rw [hp.mainProcess]
  show (fdsOf st'.tables st.mainProcess k).card ≤ st'.tables.inodes.handleCount k
  cases (ho.handles hw).1 with
  | same _ hcount hfds =>
      rw [hcount, fdsOf_congr (f := st.tables) hfds]
      exact hk
  | @opened fd key _ hcount hfds =>
      have hcard := card_fdsOf_opened (k := k) hfds
      rw [hcount]
      omega
  | closed _ hkey hcount hfds =>
      rw [hcount, card_fdsOf_closed hkey hfds]
      omega

/-! ## 3. Runs -/

theorem handlesExact_setUp {t : Trace} {st : FsState} (h : setUp t = .ok st) :
    HandlesExact st.tables st.mainProcess := by
  obtain ⟨i, u, hu, ht, _, _⟩ := setUp_eq_ok h
  obtain ⟨ns, _, hl⟩ := InodeTable.toInode_spec InodeTable.wellFormed_init hu
  have hopen : ∀ key, u.openInodes.getValue key = none := by
    intro key
    rw [hl.openInodes]
    exact Table.getValue_empty
  rw [ht]
  refine ⟨fun key => ?_, fun key ty n hv => ?_⟩
  · rw [show (⟨u, ∅, ∅⟩ : FileTables).inodes.openInodes.getValue key = none from hopen key]
    refine iff_of_false Bool.false_ne_true fun ⟨fd, hfd⟩ => ?_
    have := mem_fdsOf.mp hfd
    simp at this
  · rw [show (⟨u, ∅, ∅⟩ : FileTables).inodes.openInodes.getValue key = none from hopen key] at hv
    cases hv

/-- **A descriptor refers to an open entry**, in every state that is reached. -/
theorem isSome_openInodes_of_fd {st : FsState} (h : Reached st) {fd : Nat} {key : InodeKey}
    (hkey : st.fdTable.getValue (st.mainProcess, fd) = some key) :
    (st.inodeTable.openInodes.getValue key).isSome := by
  obtain ⟨t, st₀, as, h0, hrun⟩ := h
  have hcovered : st.tables.WellFormed ∧ HandlesCovered st :=
    fsRun_keeps (P := fun st => st.tables.WellFormed ∧ HandlesCovered st)
      (fun st₁ a st₂ hs hinv => ⟨(outcome_step hs).2.wellFormed hinv.1,
        handlesCovered_step hinv.1 hinv.2 hs⟩)
      ⟨wellFormed_setUp h0, fun key => ((handlesExact_iff.mp (handlesExact_setUp h0)).2 key).ge⟩
      hrun
  have hmem : fd ∈ fdsOf st.tables st.mainProcess key := mem_fdsOf.mpr hkey
  have hpos : 0 < (fdsOf st.tables st.mainProcess key).card := Finset.card_pos.mpr ⟨fd, hmem⟩
  have hcount := hpos.trans_le (hcovered.2 key)
  unfold InodeTable.handleCount at hcount
  cases ho : st.inodeTable.openInodes.getValue key with
  | some v => rfl
  | none =>
      rw [ho] at hcount
      exact absurd hcount (lt_irrefl 0)

/-- **Open-handle counts are exact**: whatever list of actions is analysed after the set-up for
    `t`, the counts are exact in every state on the way. -/
def HandlesExactIn (t : Trace) (as : List FsAction) : Prop :=
  ∀ st₀ bs st, setUp t = .ok st₀ → bs <+: as → fsRun st₀ bs = .ok st →
    HandlesExact st.tables st.mainProcess

/-- No action opens a path on a descriptor that is still recorded when its turn comes. -/
def NeverReusesFd (t : Trace) (as : List FsAction) : Prop :=
  ∀ st₀, setUp t = .ok st₀ → EachStep (fun st a => ¬ ReusesFd st a) st₀ as

/-- A `newFd` that reuses a descriptor returns. -/
theorem fsStep_of_reusesFd {st : FsState} {a : FsAction} (hw : st.tables.WellFormed)
    (h : ReusesFd st a) : ∃ st', fsStep st a = .ok st' := by
  cases a with
  | charge blockId => exact h.elim
  | newEvent e => exact h.elim
  | operation op =>
      unfold ReusesFd at h
      dsimp only at h
      split at h
      · rename_i dirfd path fd hop
        obtain ⟨hfd, _, p, hp, hn⟩ := h
        obtain ⟨a, u, hu⟩ := InodeTable.toInode_parent_isSome hw.inodes hn
        have hstep : fsStep st (.operation op) = analyzeNewFd st dirfd path fd := by
          show analyzeOperation st op = _
          unfold analyzeOperation
          rw [hop]
        rw [hstep, analyzeNewFd, if_neg (not_lt.mpr hfd), hp]
        dsimp only
        rw [toInode_eq_ok.mpr ⟨u, hu, rfl⟩]
        exact ⟨_, rfl⟩
      · exact h.elim

/-- **The counts are exact in every state iff no descriptor is reused.** -/
theorem handlesExactIn_iff (t : Trace) (as : List FsAction) :
    HandlesExactIn t as ↔ NeverReusesFd t as := by
  constructor
  · intro h st₀ h0 bs a st hbs hst hreuse
    have hw := wellFormed_run (wellFormed_setUp h0) hst
    obtain ⟨st', hs⟩ := fsStep_of_reusesFd hw hreuse
    have hexact := h st₀ bs st h0 ((List.prefix_append _ _).trans hbs) hst
    have hexact' := h st₀ (bs ++ [a]) st' h0 hbs (fsRun_snoc_eq_ok.mpr ⟨st, hst, hs⟩)
    exact (handlesExact_step hw hexact hs).mp hexact' hreuse
  · intro h st₀ bs st h0 hbs hst
    have hinv := fsRun_invariant
      (P := fun st => st.tables.WellFormed ∧ HandlesExact st.tables st.mainProcess)
      (fun st₁ a st₂ hc hs ⟨hw, hh⟩ => ⟨(outcome_step hs).2.wellFormed hw,
        (handlesExact_step hw hh hs).mpr hc⟩)
      ⟨wellFormed_setUp h0, handlesExact_setUp h0⟩ ((h st₀ h0).mono hbs) hst
    exact hinv.2

/-- Two files are opened on descriptor 3, one after the other. -/
def reusedFd : Trace where
  threadId := 1
  cwd := "/home"
  execOps := [⟨"sync_1", [⟨.newFd atFdcwd "/a" 3, false, "open"⟩,
    ⟨.newFd atFdcwd "/b" 3, false, "open"⟩]⟩]
  blocks := [⟨1, .MAIN, [.submitOp ⟨"sync_1", none, ["node_open"]⟩]⟩]

/-- In a trace that the parser accepts, "/a" stays open without a descriptor. -/
theorem handlesExactIn_fails :
    ¬ ∀ t, TraceParser.Accepts t → HandlesExactIn t t.fsActions := by
  intro h
  have hp : TraceParser.parse (dump reusedFd) = .ok reusedFd := by decide +kernel
  have hlast : ((analyzeTrace .init reusedFd).toOption.map fun st =>
      (st.inodeTable.openInodes.getValue (rootInode + 1, "a"),
        fdsOf st.tables st.mainProcess (rootInode + 1, "a"))) =
      some (some (.linked, 1), ∅) := by decide +kernel
  obtain ⟨st, hst, hboth⟩ := Option.map_eq_some_iff.mp hlast
  obtain ⟨ho, hf⟩ := Prod.mk.inj hboth
  obtain ⟨st₀, h0, hrun⟩ := analyzeTrace_eq_ok.mp (toOption_eq_some.mp hst)
  have hexact := h reusedFd ⟨_, hp⟩ st₀ _ st h0 (List.prefix_refl _) hrun
  have hopen := (hexact.opened (rootInode + 1, "a")).mp (Option.isSome_iff_exists.mpr ⟨_, ho⟩)
  rw [hf] at hopen
  exact Finset.not_nonempty_empty hopen

end Fsracer

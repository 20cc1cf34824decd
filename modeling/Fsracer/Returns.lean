/-
  File:      Fsracer/Returns.lean
  Subject:   WHEN THE FILE SYSTEM ANALYSIS RETURNS, and what a step of it charges.

  A step fails in three ways: it recurses without end, it pops a key that is not there, or it
  reads the tags of an event that has none. `Grounded` and `KeysFound` exclude the first two, and
  `Tagged` the third. **`fsStep_returns_iff`**: a step returns iff it is all of that.
  **`analyze_returns_iff`**: `Analyze` returns iff the working directory is "/" or below it and
  every step is.

  `effectOf` is the path and the effect that an operation is charged with, read off the state
  before it; `charged_step` says what the operation enters.
-/
import Mathlib
import Fsracer.Recursion

namespace Fsracer

open FSAnalyzer

/-! ## 1. What a step charges -/

/-- The path that an operation is charged with, and the effect on it. -/
def effectOf (st : FsState) (op : Operation) : Option (Path × EffectType) :=
  match op.kind with
  | .hpath dirfd path effect =>
      (getAbsolutePath st dirfd ⟨path⟩).map fun p => (dereferenced st p, effect)
  | .hpathSym dirfd path effect => (getAbsolutePath st dirfd ⟨path⟩).map fun p => (p, effect)
  | .newFd .. | .delFd _ | .link .. | .rename .. | .symlink .. => none

/-- The accesses after an operation. -/
inductive Charged (st : FsState) (op : Operation) : BlockAccesses → Prop where
  | nothing (h : effectOf st op = none) : Charged st op st.blockAccesses
  | effect {p : Path} {effect : EffectType} {tags : DebugInfo}
      (h : effectOf st op = some (p, effect)) (htags : tagsOf st = some tags) :
      Charged st op
        (addPathEffect st.blockAccesses p ⟨st.blockId, effect, tags, op.actualOpName⟩)

/-- The events of a state and the accesses of it are the same. -/
structure SameEvents (st st' : FsState) : Prop where
  eventInfo : st'.eventInfo = st.eventInfo
  blockId : st'.blockId = st.blockId
  accesses : st'.blockAccesses = st.blockAccesses

theorem SameEvents.refl (st : FsState) : SameEvents st st := ⟨rfl, rfl, rfl⟩

theorem SameEvents.trans {st st₁ st₂ : FsState} (h : SameEvents st st₁) (h' : SameEvents st₁ st₂) :
    SameEvents st st₂ :=
  ⟨h'.eventInfo.trans h.eventInfo, h'.blockId.trans h.blockId, h'.accesses.trans h.accesses⟩

theorem SameEvents.tagsOf {st st' : FsState} (h : SameEvents st st') : tagsOf st' = tagsOf st := by
  unfold FSAnalyzer.tagsOf
  rw [h.blockId, h.eventInfo]

section Functions

variable {st st' : FsState} {p : Path}

theorem sameEvents_toInode {inode : Nat} (h : FSAnalyzer.toInode st p = .ok (inode, st')) :
    SameEvents st st' := by
  obtain ⟨t, _, rfl⟩ := toInode_eq_ok.mp h
  exact ⟨rfl, rfl, rfl⟩

variable {dirfd : Nat} {path name : String}

theorem sameEvents_newFd {fd : Int} (h : analyzeNewFd st dirfd path fd = .ok st') :
    SameEvents st st' := by
  unfold analyzeNewFd at h
  split at h
  · cases h
    exact .refl _
  · split at h
    · cases h
      exact .refl _
    · obtain ⟨r, hr, h⟩ := bind_eq_ok.mp h
      cases pure_eq_ok.mp h
      exact (sameEvents_toInode hr).trans ⟨rfl, rfl, rfl⟩

theorem sameEvents_delFd {fd : Nat} (h : analyzeDelFd st fd = .ok st') : SameEvents st st' := by
  unfold analyzeDelFd at h
  split at h
  · cases h
  · split at h
    · cases h
    · cases h
      exact ⟨rfl, rfl, rfl⟩

theorem sameEvents_link {od nd : Nat} {oldPath newPath : String}
    (h : FSAnalyzer.analyzeLink st od oldPath nd newPath = .ok st') : SameEvents st st' := by
  unfold FSAnalyzer.analyzeLink at h
  split at h
  · obtain ⟨r, hr, h⟩ := bind_eq_ok.mp h
    obtain ⟨r', hr', h⟩ := bind_eq_ok.mp h
    cases pure_eq_ok.mp h
    exact ((sameEvents_toInode hr).trans (sameEvents_toInode hr')).trans ⟨rfl, rfl, rfl⟩
  · cases h
    exact .refl _

theorem sameEvents_rename {od nd : Nat} {oldPath newPath : String}
    (h : analyzeRename st od oldPath nd newPath = .ok st') : SameEvents st st' := by
  cases hp : getAbsolutePath st od ⟨oldPath⟩ with
  | none =>
      unfold analyzeRename at h
      rw [hp] at h
      cases h
      exact .refl _
  | some p =>
      cases hq : getAbsolutePath st nd ⟨newPath⟩ with
      | none =>
          unfold analyzeRename at h
          rw [hp, hq] at h
          cases h
          exact .refl _
      | some q =>
          obtain ⟨_, _, _, _, _, _, _, _, rfl⟩ := (analyzeRename_eq_ok hp hq).mp h
          exact ⟨rfl, rfl, rfl⟩

theorem sameEvents_symlink {target : String} (h : analyzeSymlink st dirfd path target = .ok st') :
    SameEvents st st' := by
  unfold analyzeSymlink at h
  split at h
  · cases h
    exact .refl _
  · obtain ⟨r, hr, h⟩ := bind_eq_ok.mp h
    cases pure_eq_ok.mp h
    exact (sameEvents_toInode hr).trans ⟨rfl, rfl, rfl⟩

end Functions

/-- **What an operation charges**: its effect, to the event of the state and with its tags. -/
theorem charged_step {st st' : FsState} (hw : st.tables.WellFormed) {op : Operation}
    (h : analyzeOperation st op = .ok st') : st'.eventInfo = st.eventInfo ∧
      st'.blockId = st.blockId ∧ Charged st op st'.blockAccesses := by
  have hquiet : effectOf st op = none → SameEvents st st' → st'.eventInfo = st.eventInfo ∧
      st'.blockId = st.blockId ∧ Charged st op st'.blockAccesses :=
    fun hnone hs => ⟨hs.eventInfo, hs.blockId, hs.accesses ▸ .nothing hnone⟩
  unfold analyzeOperation at h
  obtain ⟨kind, name, failed⟩ := op
  cases kind with
  | newFd dirfd path fd => exact hquiet rfl (sameEvents_newFd h)
  | delFd fd => exact hquiet rfl (sameEvents_delFd h)
  | link od op nd np => exact hquiet rfl (sameEvents_link h)
  | rename od op nd np => exact hquiet rfl (sameEvents_rename h)
  | symlink dirfd path target => exact hquiet rfl (sameEvents_symlink h)
  | hpathSym dirfd path effect =>
      dsimp only at h
      cases hp : getAbsolutePath st dirfd ⟨path⟩ with
      | none =>
          unfold analyzeHpathSym at h
          rw [hp] at h
          cases h
          exact hquiet (by simp [effectOf, hp]) (.refl _)
      | some p =>
          unfold analyzeHpathSym at h
          rw [hp] at h
          obtain ⟨tags, t, htags, _, rfl⟩ := processPathEffect_eq_ok.mp h
          exact ⟨rfl, rfl, .effect (by simp [effectOf, hp]) htags⟩
  | hpath dirfd path effect =>
      dsimp only at h
      cases hp : getAbsolutePath st dirfd ⟨path⟩ with
      | none =>
          unfold analyzeHpath at h
          rw [hp] at h
          cases h
          exact hquiet (by simp [effectOf, hp]) (.refl _)
      | some p =>
          obtain ⟨i, t, ht, h⟩ := (analyzeHpath_eq_ok hp).mp h
          obtain ⟨ns, hns, hl⟩ := InodeTable.toInode_spec hw.inodes ht
          rw [followed_eq hw hns hl] at h
          obtain ⟨tags, t', htags, _, rfl⟩ := processPathEffect_eq_ok.mp h
          exact ⟨rfl, rfl, .effect (by simp [effectOf, hp]) htags⟩

/-! ## 2. Steps that return -/

/-- **A step finds the tags of the event that it charges.** -/
def Tagged (st : FsState) : FsAction → Prop
  | .charge _ | .newEvent _ => True
  | .operation op => (effectOf st op).isSome → (tagsOf st).isSome

/-- **What a step needs to return.** -/
structure Returns (st : FsState) (a : FsAction) : Prop where
  grounded : Grounded st a
  keysFound : KeysFound st a
  tagged : Tagged st a

section Faults

variable {st : FsState} {p : Path}

theorem toInode_ne_badOptional : FSAnalyzer.toInode st p ≠ .error .badOptionalAccess := by
  unfold FSAnalyzer.toInode
  cases st.inodeTable.toInode p with
  | none => exact nofun
  | some r => exact nofun

/-- What follows a lookup reads missing tags, or nothing does. -/
theorem toInode_then_ne_badOptional {α : Type} {f : Nat × FsState → Except Abort α}
    (hf : ∀ r, f r ≠ .error .badOptionalAccess) :
    (FSAnalyzer.toInode st p >>= f) ≠ .error .badOptionalAccess := by
  intro h
  rcases bind_eq_error.mp h with h | ⟨r, _, h⟩
  · exact toInode_ne_badOptional h
  · exact hf r h

theorem unlinkResource_ne_badOptional {a : Nat} {n : String} :
    unlinkResource st a n ≠ .error .badOptionalAccess := by
  unfold unlinkResource
  cases st.inodeTable.removeEntry a n with
  | none => exact nofun
  | some t => exact nofun

theorem tagsOf_eq_none {effect : EffectType} {name : String}
    (h : processPathEffect st p effect name = .error .badOptionalAccess) : tagsOf st = none := by
  unfold processPathEffect at h
  rw [eventTags_eq] at h
  cases htags : tagsOf st with
  | none => rfl
  | some tags =>
      rw [htags] at h
      cases effect with
      | consumed => cases h
      | produced => cases h
      | expunged =>
          exact absurd h (toInode_then_ne_badOptional fun _ => unlinkResource_ne_badOptional)

variable {dirfd : Nat} {path name : String}

theorem analyzeNewFd_ne_badOptional {fd : Int} :
    analyzeNewFd st dirfd path fd ≠ .error .badOptionalAccess := by
  unfold analyzeNewFd
  split
  · exact nofun
  · split
    · exact nofun
    · exact toInode_then_ne_badOptional fun _ => nofun

theorem analyzeDelFd_ne_badOptional {fd : Nat} :
    analyzeDelFd st fd ≠ .error .badOptionalAccess := by
  unfold analyzeDelFd
  split
  · exact nofun
  · split
    · exact nofun
    · exact nofun

theorem analyzeLink_ne_badOptional {od nd : Nat} {oldPath newPath : String} :
    FSAnalyzer.analyzeLink st od oldPath nd newPath ≠ .error .badOptionalAccess := by
  unfold FSAnalyzer.analyzeLink
  split
  · exact toInode_then_ne_badOptional fun _ => toInode_then_ne_badOptional fun _ => nofun
  · exact nofun

theorem analyzeRename_ne_badOptional {od nd : Nat} {oldPath newPath : String} :
    analyzeRename st od oldPath nd newPath ≠ .error .badOptionalAccess := by
  unfold analyzeRename
  split
  · refine toInode_then_ne_badOptional fun _ => toInode_then_ne_badOptional fun _ => ?_
    dsimp only
    split
    · exact nofun
    · exact toInode_then_ne_badOptional fun _ => unlinkResource_ne_badOptional
  · exact nofun

theorem analyzeSymlink_ne_badOptional {target : String} :
    analyzeSymlink st dirfd path target ≠ .error .badOptionalAccess := by
  unfold analyzeSymlink
  split
  · exact nofun
  · exact toInode_then_ne_badOptional fun _ => nofun

/-- An operation that reads missing tags has an effect to charge. -/
theorem untagged_of_badOptional {op : Operation}
    (h : analyzeOperation st op = .error .badOptionalAccess) :
    (effectOf st op).isSome ∧ tagsOf st = none := by
  unfold analyzeOperation at h
  obtain ⟨kind, name, failed⟩ := op
  cases kind with
  | newFd dirfd path fd => exact absurd h analyzeNewFd_ne_badOptional
  | delFd fd => exact absurd h analyzeDelFd_ne_badOptional
  | link od op nd np => exact absurd h analyzeLink_ne_badOptional
  | rename od op nd np => exact absurd h analyzeRename_ne_badOptional
  | symlink dirfd path target => exact absurd h analyzeSymlink_ne_badOptional
  | hpathSym dirfd path effect =>
      dsimp only at h
      unfold analyzeHpathSym at h
      cases hp : getAbsolutePath st dirfd ⟨path⟩ with
      | none =>
          rw [hp] at h
          cases h
      | some p =>
          rw [hp] at h
          exact ⟨by simp [effectOf, hp], tagsOf_eq_none h⟩
  | hpath dirfd path effect =>
      dsimp only at h
      unfold analyzeHpath at h
      cases hp : getAbsolutePath st dirfd ⟨path⟩ with
      | none =>
          rw [hp] at h
          cases h
      | some p =>
          rw [hp] at h
          rcases bind_eq_error.mp h with h | ⟨⟨i, st₁⟩, h1, h⟩
          · exact absurd h toInode_ne_badOptional
          · obtain ⟨t, _, rfl⟩ := toInode_eq_ok.mp h1
            dsimp only at h
            have htags : tagsOf { st with inodeTable := t } = none := tagsOf_eq_none h
            exact ⟨by simp [effectOf, hp], htags⟩

end Faults

/-- **A step returns** iff its paths are below the root, its keys are there and its event has
    tags. -/
theorem fsStep_returns_iff {st : FsState} (hw : st.tables.WellFormed) {a : FsAction} :
    (∃ st', fsStep st a = .ok st') ↔ Returns st a := by
  have hended := fsStep_eq_endlessRecursion hw (a := a)
  have hmissed := fsStep_eq_missingKey hw (a := a)
  constructor
  · intro h
    obtain ⟨st', h⟩ := h
    rw [h] at hended hmissed
    have hgrounded : Grounded st a := by
      by_contra hno
      cases hended.mpr hno
    have hkeys : KeysFound st a := by
      by_contra hno
      cases hmissed.mpr hno
    refine ⟨hgrounded, hkeys, ?_⟩
    cases a with
    | charge blockId => trivial
    | newEvent e => trivial
    | operation op =>
        intro heffect
        obtain ⟨-, -, hcharged⟩ := charged_step hw h
        generalize st'.blockAccesses = accesses at hcharged
        cases hcharged with
        | nothing hnone =>
            rw [hnone] at heffect
            cases heffect
        | effect hsome htags =>
            rw [htags]
            rfl
  · intro h
    cases hstep : fsStep st a with
    | ok st' => exact ⟨st', rfl⟩
    | error e =>
        cases e with
        | endlessRecursion => exact absurd h.grounded (hended.mp hstep)
        | missingKey => exact absurd h.keysFound (hmissed.mp hstep)
        | badOptionalAccess =>
            cases a with
            | charge blockId => cases hstep
            | newEvent e => cases hstep
            | operation op =>
                obtain ⟨heffect, hnone⟩ := untagged_of_badOptional hstep
                have hsome := h.tagged heffect
                rw [hnone] at hsome
                cases hsome

/-! ## 3. Runs that return -/

/-- **A run returns** iff every step of it does. -/
theorem fsRun_returns_iff {st : FsState} (hw : st.tables.WellFormed) {as : List FsAction} :
    (∃ st', fsRun st as = .ok st') ↔ EachStep Returns st as := by
  constructor
  · intro h bs a st₁ hp h1
    obtain ⟨st', h⟩ := h
    obtain ⟨cs, rfl⟩ := hp
    rw [fsRun_append] at h
    obtain ⟨st₂, h2, -⟩ := bind_eq_ok.mp h
    obtain ⟨st₃, h3, hstep⟩ := fsRun_snoc_eq_ok.mp h2
    cases h1.symm.trans h3
    exact (fsStep_returns_iff (wellFormed_run hw h1)).mp ⟨st₂, hstep⟩
  · intro h
    cases hrun : fsRun st as with
    | ok st' => exact ⟨st', rfl⟩
    | error e =>
        obtain ⟨bs, a, st₁, hp, h1, hstep⟩ := fsRun_eq_missingKey.mp hrun
        obtain ⟨st₂, h2⟩ := (fsStep_returns_iff (wellFormed_run hw h1)).mpr (h bs a st₁ hp h1)
        rw [hstep] at h2
        cases h2

theorem setUp_returns_iff {t : Trace} :
    (∃ st₀, setUp t = .ok st₀) ↔ t.cwd = "/" ∨ (⟨t.cwd⟩ : Path).BelowRoot := by
  have hended := setUp_eq_endless (t := t)
  constructor
  · intro h
    obtain ⟨st₀, h⟩ := h
    rw [h] at hended
    by_contra hno
    cases hended.mpr hno
  · intro h
    cases hset : setUp t with
    | ok st₀ => exact ⟨st₀, rfl⟩
    | error e =>
        have he : e = .endlessRecursion := by
          unfold setUp FSAnalyzer.toInode at hset
          cases hi : FsState.init.inodeTable.toInode ⟨t.cwd⟩ with
          | none =>
              simp only [hi] at hset
              cases hset
              rfl
          | some r =>
              simp only [hi] at hset
              cases hset
        rw [hset, he] at hended
        exact absurd h (hended.mp rfl)

/-- **`Analyze` returns** iff the working directory is "/" or below it and every step of the run
    returns. -/
theorem analyze_returns_iff (t : Trace) : (∃ st, analyze t = .ok st) ↔
    (t.cwd = "/" ∨ (⟨t.cwd⟩ : Path).BelowRoot) ∧
      ∀ st₀, setUp t = .ok st₀ → EachStep Returns st₀ t.fsActions := by
  have hanalyze : (∃ st, analyze t = .ok st) ↔
      ∃ st₀, setUp t = .ok st₀ ∧ ∃ st, fsRun st₀ t.fsActions = .ok st := by
    unfold analyze
    rw [analyzeTrace_eq_run]
    constructor
    · intro h
      obtain ⟨st, h⟩ := h
      obtain ⟨st₁, h, -⟩ := bind_eq_ok.mp h
      obtain ⟨st₀, h0, h⟩ := bind_eq_ok.mp h
      exact ⟨st₀, h0, st₁, h⟩
    · intro h
      obtain ⟨st₀, h0, st, h⟩ := h
      exact ⟨_, bind_eq_ok.mpr ⟨st, bind_eq_ok.mpr ⟨st₀, h0, h⟩, rfl⟩⟩
  rw [hanalyze, ← setUp_returns_iff]
  constructor
  · intro h
    obtain ⟨st₀, h0, h⟩ := h
    refine ⟨⟨st₀, h0⟩, fun st₁ h1 => ?_⟩
    cases h0.symm.trans h1
    exact (fsRun_returns_iff (wellFormed_setUp h0)).mp h
  · intro h
    obtain ⟨⟨st₀, h0⟩, h⟩ := h
    exact ⟨st₀, h0, (fsRun_returns_iff (wellFormed_setUp h0)).mpr (h st₀ h0)⟩

end Fsracer

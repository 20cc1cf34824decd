/-
  File:      Fsracer/Accesses.lean
  Subject:   THE TWO HALVES OF THE FILE SYSTEM ANALYSIS: what the operations do to the tables, and
             which event is charged with which effect.

  The tables never look at events. `interpret` runs the operations of a trace on the tables alone
  and lists the effects on paths as `Charge`s, each with the event it goes to and the tags of
  that event, if it has been declared. **`analyze_eq_ok_iff`**: `Analyze` returns iff the
  interpretation does and every charged event was declared in time; the summary of the accesses
  is then the fold of `AddPathEffect` over the charges.
-/
import Mathlib
import Fsracer.FSAnalyzer

namespace Fsracer

/-- An effect on a path and the event that is charged with it. `tags` is empty-handed (`none`)
    when the event is neither a main block nor declared by an earlier `newEvent`. -/
structure Charge where
  path : Path
  effectType : EffectType
  eventId : String
  tags : Option DebugInfo
  operationName : String
  deriving DecidableEq, Repr

/-- `AddPathEffect` for a charge. -/
def Charge.add (accesses : BlockAccesses) (c : Charge) : BlockAccesses :=
  FSAnalyzer.addPathEffect accesses c.path
    ⟨c.eventId, c.effectType, c.tags.getD [], c.operationName⟩

/-- The summary of a list of charges. -/
def summarise (log : List Charge) : BlockAccesses := log.foldl Charge.add ∅

namespace FSAnalyzer

/-! ## 1. Interpretation -/

/-- The tags of the event that is charged now. -/
def tagsOf (st : FsState) : Option DebugInfo :=
  if startsWith st.blockId "MAIN_" then some ["main"]
  else (st.eventInfo.getValue st.blockId).map (·.debugInfo)

/-- What an effect does to the tables: an expunged path is unlinked. -/
def unlinkPath (st : FsState) (p : Path) : EffectType → Except Abort FsState
  | .consumed | .produced => .ok st
  | .expunged => do
      let (inodeP, st) ← toInode st p.parentPath
      unlinkResource st inodeP p.filename.native

/-- An effect, charged to the event of the state. -/
def charge (st : FsState) (p : Path) (effect : EffectType) (operationName : String) :
    Except Abort (FsState × List Charge) := do
  let st' ← unlinkPath st p effect
  return (st', [⟨p, effect, st.blockId, tagsOf st, operationName⟩])

/-- An operation on the tables, and the effects it is charged with. -/
def interpretOperation (st : FsState) (op : Operation) : Except Abort (FsState × List Charge) :=
  match op.kind with
  | .hpath dirfd path effect =>
      match getAbsolutePath st dirfd ⟨path⟩ with
      | none => .ok (st, [])
      | some p => do
          let (inode, st) ← toInode st p
          let p :=
            match st.symlinkTable.getValue inode with
            | some derPath => derPath
            | none => p
          charge st p effect op.actualOpName
  | .hpathSym dirfd path effect =>
      match getAbsolutePath st dirfd ⟨path⟩ with
      | none => .ok (st, [])
      | some absPath => charge st absPath effect op.actualOpName
  | _ => do
      let st ← analyzeOperation st op
      return (st, [])

/-- A step of the interpretation, its charges put behind those so far. -/
def interpretStep {α : Type} (f : FsState → α → Except Abort (FsState × List Charge))
    (r : FsState × List Charge) (a : α) : Except Abort (FsState × List Charge) := do
  let (st, log) ← f r.1 a
  return (st, r.2 ++ log)

/-- A list of steps. -/
def interpretAll {α : Type} (f : FsState → α → Except Abort (FsState × List Charge))
    (st : FsState) (as : List α) : Except Abort (FsState × List Charge) :=
  as.foldlM (interpretStep f) (st, [])

/-- A submitted operation. -/
def interpretSubmitOp (st : FsState) (block : Block) (submitOp : SubmitOp) :
    Except Abort (FsState × List Charge) :=
  match st.opTable.getValue submitOp.opId with
  | none => .ok (st, [])
  | some execOp =>
      interpretAll interpretOperation { st with blockId := submitBlockId block submitOp }
        execOp.operations

/-- An expression. -/
def interpretExpr (block : Block) (st : FsState) : Expr → Except Abort (FsState × List Charge)
  | .submitOp e => interpretSubmitOp st block e
  | .newEvent e => .ok (analyzeNewEvent st e, [])
  | .link _ => .ok (st, [])
  | .trigger _ => .ok (st, [])

/-- A block. -/
def interpretBlock (st : FsState) (block : Block) : Except Abort (FsState × List Charge) :=
  interpretAll (interpretExpr block) st block.exprs

/-- The state in which the first block is analysed. -/
def setUp (trace : Trace) : Except Abort FsState := do
  let st := { FsState.init with mainProcess := trace.threadId, cwd := ⟨trace.cwd⟩ }
  let (inode, st) ← toInode st st.cwd
  let st := { st with cwdTable := st.cwdTable.addEntry st.mainProcess inode }
  return { st with
    opTable := trace.execOps.foldl (fun table op => table.addEntry op.id op) st.opTable }

/-- **The interpretation of a trace**: the tables after it and all charges. -/
def interpret (trace : Trace) : Except Abort (FsState × List Charge) := do
  let st ← setUp trace
  interpretAll interpretBlock st trace.blocks

/-! ## 2. The tables do not look at the accesses -/

/-- The state with other accesses, before any of them is grouped. -/
def withAccesses (st : FsState) (accesses : BlockAccesses) : FsState :=
  { st with blockAccesses := accesses, effectTable := ∅ }

theorem bind_eq_ok {α β : Type} {x : Except Abort α} {f : α → Except Abort β} {b : β} :
    (x >>= f) = .ok b ↔ ∃ a, x = .ok a ∧ f a = .ok b := by
  cases x with
  | error e => simp [bind, Except.bind]
  | ok a => simp [bind, Except.bind]

theorem pure_eq_ok {α : Type} {a b : α} : (pure a : Except Abort α) = .ok b ↔ a = b := by
  simp [pure, Except.pure]

/-- A result, its state with other accesses. -/
def mapState (acc : BlockAccesses) (x : Except Abort FsState) : Except Abort FsState :=
  x.map fun st => withAccesses st acc

theorem toInode_withAccesses (st : FsState) (acc : BlockAccesses) (p : Path) :
    toInode (withAccesses st acc) p =
      (toInode st p).map fun r => (r.1, withAccesses r.2 acc) := by
  unfold toInode
  have h : (withAccesses st acc).inodeTable = st.inodeTable := rfl
  rw [h]
  cases st.inodeTable.toInode p <;> rfl

theorem getAbsolutePath_withAccesses (st : FsState) (acc : BlockAccesses) (dirfd : Nat)
    (p : Path) : getAbsolutePath (withAccesses st acc) dirfd p = getAbsolutePath st dirfd p := rfl

theorem unlinkResource_withAccesses (st : FsState) (acc : BlockAccesses) (inodeP : Nat)
    (basename : String) : unlinkResource (withAccesses st acc) inodeP basename =
      mapState acc (unlinkResource st inodeP basename) := by
  unfold unlinkResource
  have h : (withAccesses st acc).inodeTable = st.inodeTable := rfl
  rw [h]
  cases st.inodeTable.removeEntry inodeP basename <;> rfl

theorem analyzeNewFd_withAccesses (st : FsState) (acc : BlockAccesses) (dirfd : Nat)
    (path : String) (fd : Int) : analyzeNewFd (withAccesses st acc) dirfd path fd =
      mapState acc (analyzeNewFd st dirfd path fd) := by
  unfold analyzeNewFd
  rw [getAbsolutePath_withAccesses]
  split
  · rfl
  · cases getAbsolutePath st dirfd ⟨path⟩ with
    | none => rfl
    | some p =>
        simp only [toInode_withAccesses]
        cases toInode st p.parentPath <;> rfl

theorem analyzeDelFd_withAccesses (st : FsState) (acc : BlockAccesses) (fd : Nat) :
    analyzeDelFd (withAccesses st acc) fd = mapState acc (analyzeDelFd st fd) := by
  unfold analyzeDelFd
  have h1 : (withAccesses st acc).fdTable = st.fdTable := rfl
  have h2 : (withAccesses st acc).inodeTable = st.inodeTable := rfl
  have h3 : (withAccesses st acc).mainProcess = st.mainProcess := rfl
  rw [h1, h2, h3]
  cases st.fdTable.popEntry (st.mainProcess, fd) with
  | none => rfl
  | some r =>
      dsimp only
      cases st.inodeTable.closeInode r.1.1 r.1.2 <;> rfl

theorem analyzeLink_withAccesses (st : FsState) (acc : BlockAccesses) (od : Nat) (op : String)
    (nd : Nat) (np : String) : analyzeLink (withAccesses st acc) od op nd np =
      mapState acc (analyzeLink st od op nd np) := by
  unfold analyzeLink
  rw [getAbsolutePath_withAccesses, getAbsolutePath_withAccesses]
  cases getAbsolutePath st od ⟨op⟩ with
  | none => rfl
  | some p =>
      cases getAbsolutePath st nd ⟨np⟩ with
      | none => rfl
      | some q =>
          simp only [toInode_withAccesses]
          cases toInode st p with
          | error e => rfl
          | ok r =>
              simp only [Except.map, bind, Except.bind, toInode_withAccesses]
              cases toInode r.2 q.parentPath <;> rfl

theorem analyzeRename_withAccesses (st : FsState) (acc : BlockAccesses) (od : Nat) (op : String)
    (nd : Nat) (np : String) : analyzeRename (withAccesses st acc) od op nd np =
      mapState acc (analyzeRename st od op nd np) := by
  unfold analyzeRename
  rw [getAbsolutePath_withAccesses, getAbsolutePath_withAccesses]
  cases getAbsolutePath st od ⟨op⟩ with
  | none => rfl
  | some p =>
      cases getAbsolutePath st nd ⟨np⟩ with
      | none => rfl
      | some q =>
          simp only [toInode_withAccesses]
          cases toInode st p with
          | error e => rfl
          | ok r =>
              simp only [Except.map, bind, Except.bind, toInode_withAccesses]
              cases toInode r.2 q.parentPath with
              | error e => rfl
              | ok r' =>
                  have hi : (withAccesses r'.2 acc).inodeTable = r'.2.inodeTable := rfl
                  simp only [hi]
                  by_cases h : r'.2.inodeTable.getInode r'.1 q.filename.native = some r.1
                  · rw [if_pos h, if_pos h]
                    rfl
                  · rw [if_neg h, if_neg h]
                    have hw : ∀ t : InodeTable,
                        { withAccesses r'.2 acc with inodeTable := t } =
                          withAccesses { r'.2 with inodeTable := t } acc := fun _ => rfl
                    rw [hw, toInode_withAccesses]
                    set r₂ := { r'.2 with
                      inodeTable := r'.2.inodeTable.addEntryWith r'.1 q.filename.native q r.1 }
                    cases toInode r₂ p.parentPath with
                    | error e => rfl
                    | ok r'' => exact unlinkResource_withAccesses r''.2 acc r''.1 _

theorem analyzeSymlink_withAccesses (st : FsState) (acc : BlockAccesses) (dirfd : Nat)
    (path target : String) : analyzeSymlink (withAccesses st acc) dirfd path target =
      mapState acc (analyzeSymlink st dirfd path target) := by
  unfold analyzeSymlink
  rw [getAbsolutePath_withAccesses]
  cases getAbsolutePath st dirfd ⟨path⟩ with
  | none => rfl
  | some p =>
      simp only [toInode_withAccesses]
      cases toInode st p <;> rfl

theorem mapState_eq_ok {acc : BlockAccesses} {x : Except Abort FsState} {st' : FsState} :
    mapState acc x = .ok st' ↔ ∃ st, x = .ok st ∧ st' = withAccesses st acc := by
  cases x with
  | error e => simp [mapState, Except.map]
  | ok st => simp [mapState, Except.map, eq_comm]

/-! ## 3. The analysis mirrors the interpretation -/

/-- `F` returns iff `f` does and every event charged has tags; it then enters the charges. -/
def Mirrors {α : Type} (f : FsState → α → Except Abort (FsState × List Charge))
    (F : FsState → α → Except Abort FsState) : Prop :=
  ∀ st acc a st', F (withAccesses st acc) a = .ok st' ↔
    ∃ st₁ log, f st a = .ok (st₁, log) ∧ (∀ c ∈ log, c.tags.isSome) ∧
      st' = withAccesses st₁ (log.foldl Charge.add acc)

theorem eventTags_withAccesses (st : FsState) (acc : BlockAccesses) :
    eventTags (withAccesses st acc) =
      match tagsOf st with
      | some debugInfo => .ok debugInfo
      | none => .error .badOptionalAccess := by
  have h1 : (withAccesses st acc).blockId = st.blockId := rfl
  have h2 : (withAccesses st acc).eventInfo = st.eventInfo := rfl
  unfold eventTags tagsOf
  rw [h1, h2]
  split
  · rfl
  · cases st.eventInfo.getValue st.blockId <;> rfl

/-- A path effect is entered and the path unlinked, in whichever order. -/
theorem processPathEffect_eq (st : FsState) (acc : BlockAccesses) (p : Path)
    (effect : EffectType) (operationName : String) {debugInfo : DebugInfo}
    (h : tagsOf st = some debugInfo) :
    processPathEffect (withAccesses st acc) p effect operationName =
      mapState (addPathEffect acc p ⟨st.blockId, effect, debugInfo, operationName⟩)
        (unlinkPath st p effect) := by
  unfold processPathEffect
  rw [eventTags_withAccesses, h]
  cases effect with
  | consumed => rfl
  | produced => rfl
  | expunged =>
      simp only [unlinkPath, toInode_withAccesses]
      cases toInode st p.parentPath with
      | error e => rfl
      | ok r => exact unlinkResource_withAccesses r.2 _ r.1 _

theorem charge_eq_ok {st st₁ : FsState} {p : Path} {effect : EffectType} {operationName : String}
    {log : List Charge} : charge st p effect operationName = .ok (st₁, log) ↔
      unlinkPath st p effect = .ok st₁ ∧
        log = [⟨p, effect, st.blockId, tagsOf st, operationName⟩] := by
  unfold charge
  rw [bind_eq_ok]
  simp only [pure_eq_ok, Prod.mk.injEq]
  refine ⟨fun ⟨a, h, h1, h2⟩ => ⟨h1 ▸ h, h2.symm⟩, fun ⟨h, h2⟩ => ⟨st₁, h, rfl, h2.symm⟩⟩

theorem processPathEffect_mirrors (p : Path) (operationName : String) :
    Mirrors (fun st effect => charge st p effect operationName)
      fun st effect => processPathEffect st p effect operationName := by
  intro st acc effect st'
  beta_reduce
  cases h : tagsOf st with
  | none =>
      have hf : processPathEffect (withAccesses st acc) p effect operationName =
          .error .badOptionalAccess := by
        unfold processPathEffect
        rw [eventTags_withAccesses, h]
        rfl
      rw [hf]
      refine ⟨fun hc => (by cases hc), fun ⟨st₁, log, hc, ht, _⟩ => ?_⟩
      rw [(charge_eq_ok.mp hc).2] at ht
      have := ht _ (List.mem_singleton.mpr rfl)
      simp [h] at this
  | some debugInfo =>
      rw [processPathEffect_eq st acc p effect operationName h, mapState_eq_ok]
      refine ⟨fun ⟨st₁, hu, hs⟩ => ⟨st₁, _, charge_eq_ok.mpr ⟨hu, rfl⟩, ?_, ?_⟩, ?_⟩
      · intro c hc
        rw [List.mem_singleton.mp hc, h]
        rfl
      · rw [hs, h]
        rfl
      · intro ⟨st₁, log, hc, _, hs⟩
        obtain ⟨hu, hl⟩ := charge_eq_ok.mp hc
        refine ⟨st₁, hu, ?_⟩
        rw [hs, hl, h]
        rfl

/-- A step that does nothing. -/
theorem mirrors_skip (st : FsState) {st' : FsState} {acc : BlockAccesses} :
    (.ok (withAccesses st acc) : Except Abort FsState) = .ok st' ↔
      ∃ st₁ log, (.ok (st, []) : Except Abort (FsState × List Charge)) = .ok (st₁, log) ∧
        (∀ c ∈ log, c.tags.isSome) ∧
        st' = withAccesses st₁ (log.foldl Charge.add acc) := by
  refine ⟨fun h => ⟨st, [], rfl, by simp, (Except.ok.inj h).symm⟩, fun ⟨st₁, log, h, _, hs⟩ => ?_⟩
  cases h
  rw [hs]
  rfl

/-- Steps without charges. -/
theorem mirrors_quiet {α : Type} {F : FsState → α → Except Abort FsState} {st : FsState}
    {acc : BlockAccesses} {a : α} {st' : FsState}
    (h : F (withAccesses st acc) a = mapState acc (F st a)) :
    F (withAccesses st acc) a = .ok st' ↔
      ∃ st₁ log, (do let st ← F st a; return (st, [])) = .ok (st₁, log) ∧
        (∀ c ∈ log, c.tags.isSome) ∧
        st' = withAccesses st₁ (log.foldl Charge.add acc) := by
  rw [h, mapState_eq_ok]
  refine ⟨fun ⟨st₁, hF, hs⟩ => ⟨st₁, [], ?_, by simp, hs⟩, fun ⟨st₁, log, hF, _, hs⟩ => ?_⟩
  · rw [hF]
    rfl
  · obtain ⟨st₂, h2, h3⟩ := bind_eq_ok.mp hF
    cases pure_eq_ok.mp h3
    exact ⟨st₁, h2, hs⟩

theorem analyzeOperation_mirrors : Mirrors interpretOperation analyzeOperation := by
  intro st acc op st'
  obtain ⟨kind, name, failed⟩ := op
  cases kind with
  | newFd dirfd path fd => exact mirrors_quiet (analyzeNewFd_withAccesses st acc dirfd path fd)
  | delFd fd => exact mirrors_quiet (analyzeDelFd_withAccesses st acc fd)
  | link od op nd np => exact mirrors_quiet (analyzeLink_withAccesses st acc od op nd np)
  | rename od op nd np => exact mirrors_quiet (analyzeRename_withAccesses st acc od op nd np)
  | symlink dirfd path target =>
      exact mirrors_quiet (analyzeSymlink_withAccesses st acc dirfd path target)
  | hpathSym dirfd path effect =>
      simp only [analyzeOperation, interpretOperation, analyzeHpathSym,
        getAbsolutePath_withAccesses]
      cases getAbsolutePath st dirfd ⟨path⟩ with
      | none => exact mirrors_skip _
      | some p => exact processPathEffect_mirrors p _ st acc effect st'
  | hpath dirfd path effect =>
      simp only [analyzeOperation, interpretOperation, analyzeHpath,
        getAbsolutePath_withAccesses]
      cases getAbsolutePath st dirfd ⟨path⟩ with
      | none => exact mirrors_skip _
      | some p =>
          simp only [toInode_withAccesses]
          cases toInode st p with
          | error e => simp [bind, Except.bind, Except.map]
          | ok r => exact processPathEffect_mirrors _ _ r.2 acc effect st'

theorem foldlM_interpretStep {α : Type} (f : FsState → α → Except Abort (FsState × List Charge))
    (st : FsState) (log : List Charge) (as : List α) :
    as.foldlM (interpretStep f) (st, log) =
      (interpretAll f st as).map fun r => (r.1, log ++ r.2) := by
  unfold interpretAll
  induction as generalizing st log with
  | nil => simp [Except.map, pure, Except.pure]
  | cons a as ih =>
      rw [List.foldlM_cons, List.foldlM_cons]
      simp only [interpretStep]
      cases f st a with
      | error e => rfl
      | ok r =>
          simp only [bind, Except.bind, pure, Except.pure]
          rw [ih, ih r.1 ([] ++ r.2)]
          cases as.foldlM (interpretStep f) (r.1, []) with
          | error e => rfl
          | ok r' => simp [Except.map]

theorem interpretAll_cons_eq_ok {α : Type}
    {f : FsState → α → Except Abort (FsState × List Charge)} {st st' : FsState} {a : α}
    {as : List α} {log : List Charge} : interpretAll f st (a :: as) = .ok (st', log) ↔
      ∃ st₁ log₁ log₂, f st a = .ok (st₁, log₁) ∧ interpretAll f st₁ as = .ok (st', log₂) ∧
        log = log₁ ++ log₂ := by
  unfold interpretAll
  rw [List.foldlM_cons, bind_eq_ok]
  constructor
  · intro hc
    obtain ⟨r, hr, h⟩ := hc
    obtain ⟨r', hr', he⟩ := bind_eq_ok.mp hr
    rw [← pure_eq_ok.mp he, foldlM_interpretStep] at h
    cases h2 : interpretAll f r'.1 as with
    | error e => simp [h2, Except.map] at h
    | ok r'' =>
        rw [h2] at h
        cases h
        exact ⟨r'.1, r'.2, r''.2, hr', h2, by simp⟩
  · intro hc
    obtain ⟨st₁, log₁, log₂, h1, h2, h3⟩ := hc
    refine ⟨(st₁, log₁), bind_eq_ok.mpr ⟨_, h1, rfl⟩, ?_⟩
    rw [foldlM_interpretStep, interpretAll, h2, h3]
    rfl

/-- What mirrors step by step mirrors along a list. -/
theorem Mirrors.all {α : Type} {f : FsState → α → Except Abort (FsState × List Charge)}
    {F : FsState → α → Except Abort FsState} (h : Mirrors f F) :
    Mirrors (interpretAll f) fun st as => as.foldlM F st := by
  intro st acc as st'
  beta_reduce
  induction as generalizing st acc with
  | nil => exact mirrors_skip _
  | cons a as ih =>
      rw [List.foldlM_cons, bind_eq_ok]
      constructor
      · intro he
        obtain ⟨s, hs, hr⟩ := he
        obtain ⟨st₁, log₁, h1, ht1, rfl⟩ := (h st acc a s).mp hs
        obtain ⟨st₂, log₂, h2, ht2, rfl⟩ := (ih st₁ _).mp hr
        refine ⟨st₂, log₁ ++ log₂, interpretAll_cons_eq_ok.mpr ⟨st₁, log₁, log₂, h1, h2, rfl⟩,
          fun c hc => ?_, ?_⟩
        · exact (List.mem_append.mp hc).elim (ht1 c) (ht2 c)
        · rw [List.foldl_append]
      · intro he
        obtain ⟨st₁, log, hr, ht, hs⟩ := he
        obtain ⟨st₂, log₁, log₂, h1, h2, rfl⟩ := interpretAll_cons_eq_ok.mp hr
        refine ⟨_, (h st acc a _).mpr ⟨st₂, log₁, h1,
          fun c hc => ht c (List.mem_append_left _ hc), rfl⟩, ?_⟩
        refine (ih st₂ _).mpr ⟨st₁, log₂, h2, fun c hc => ht c (List.mem_append_right _ hc), ?_⟩
        rw [hs, List.foldl_append]

theorem analyzeSubmitOp_mirrors (block : Block) :
    Mirrors (fun st submitOp => interpretSubmitOp st block submitOp)
      fun st submitOp => analyzeSubmitOp st block submitOp := by
  intro st acc submitOp st'
  have ho : (withAccesses st acc).opTable = st.opTable := rfl
  simp only [analyzeSubmitOp, interpretSubmitOp, ho]
  cases st.opTable.getValue submitOp.opId with
  | none => exact mirrors_skip _
  | some execOp =>
      exact analyzeOperation_mirrors.all { st with blockId := submitBlockId block submitOp } acc
        execOp.operations st'

theorem analyzeExpr_mirrors (block : Block) :
    Mirrors (interpretExpr block) (analyzeExpr block) := by
  intro st acc e st'
  cases e with
  | submitOp e => exact analyzeSubmitOp_mirrors block st acc e st'
  | newEvent e => exact mirrors_skip (analyzeNewEvent st e)
  | link e => exact mirrors_skip _
  | trigger e => exact mirrors_skip _

theorem analyzeBlock_mirrors : Mirrors interpretBlock analyzeBlock :=
  fun st acc block st' => (analyzeExpr_mirrors block).all st acc block.exprs st'

theorem setUp_withAccesses {trace : Trace} {st : FsState} (h : setUp trace = .ok st) :
    withAccesses st ∅ = st := by
  unfold setUp at h
  obtain ⟨r, hr, h⟩ := bind_eq_ok.mp h
  have hr' : withAccesses r.2 ∅ = r.2 := by
    unfold toInode at hr
    cases hi : InodeTable.toInode .init ⟨trace.cwd⟩ with
    | none => simp [FsState.init, hi] at hr
    | some i =>
        simp only [FsState.init, hi] at hr
        cases hr
        rfl
  rw [← pure_eq_ok.mp h, ← hr']
  rfl

/-- `AnalyzeTrace` in terms of the interpretation. -/
theorem analyzeTrace_eq_ok_iff {trace : Trace} {st' : FsState} :
    analyzeTrace .init trace = .ok st' ↔
      ∃ st₁ log, interpret trace = .ok (st₁, log) ∧ (∀ c ∈ log, c.tags.isSome) ∧
        st' = withAccesses st₁ (summarise log) := by
  have hs : analyzeTrace .init trace =
      setUp trace >>= fun st => trace.blocks.foldlM analyzeBlock st := by
    unfold analyzeTrace setUp
    simp only [bind_assoc, pure_bind]
  rw [hs, bind_eq_ok]
  unfold interpret
  constructor
  · intro hc
    obtain ⟨st, h, hb⟩ := hc
    rw [← setUp_withAccesses h] at hb
    obtain ⟨st₁, log, h1, ht, hs⟩ := (analyzeBlock_mirrors.all st ∅ trace.blocks st').mp hb
    exact ⟨st₁, log, bind_eq_ok.mpr ⟨st, h, h1⟩, ht, hs⟩
  · intro hc
    obtain ⟨st₁, log, h, ht, hs⟩ := hc
    obtain ⟨st, h, h1⟩ := bind_eq_ok.mp h
    refine ⟨st, h, ?_⟩
    rw [← setUp_withAccesses h]
    exact (analyzeBlock_mirrors.all st ∅ trace.blocks st').mpr ⟨st₁, log, h1, ht, hs⟩

/-- **The analysis in terms of the interpretation.** -/
theorem analyze_eq_ok_iff {trace : Trace} {st' : FsState} :
    analyze trace = .ok st' ↔
      ∃ st₁ log, interpret trace = .ok (st₁, log) ∧ (∀ c ∈ log, c.tags.isSome) ∧
        st' = { withAccesses st₁ (summarise log) with
          effectTable := groupAccesses ∅ (summarise log) } := by
  unfold analyze
  rw [bind_eq_ok]
  constructor
  · intro hc
    obtain ⟨st, h, hs⟩ := hc
    obtain ⟨st₁, log, h1, ht, rfl⟩ := analyzeTrace_eq_ok_iff.mp h
    exact ⟨st₁, log, h1, ht, (pure_eq_ok.mp hs).symm⟩
  · intro hc
    obtain ⟨st₁, log, h, ht, hs⟩ := hc
    exact ⟨_, analyzeTrace_eq_ok_iff.mpr ⟨st₁, log, h, ht, rfl⟩, pure_eq_ok.mpr hs.symm⟩

/-! ## 4. The summary of the charges -/

/-- The effect of one more access on the access that is recorded for a path and an event. -/
def update (old : Option FSAccess) (fsAccess : FSAccess) : Option FSAccess :=
  match old with
  | none => some fsAccess
  | some oldFsAcc =>
      match fsAccess.effectType, oldFsAcc.effectType with
      | .consumed, .produced | .consumed, .expunged => some oldFsAcc
      | .expunged, .produced => none
      | _, _ => some fsAccess

/-- Two keys are one for the table. -/
def SameKey (k k' : Path × String) : Prop := Path.cmp k.1 k'.1 = .eq ∧ k.2 = k'.2

instance (k k' : Path × String) : Decidable (SameKey k k') :=
  inferInstanceAs (Decidable (_ ∧ _))

theorem accessCmp_eq_iff {k k' : Path × String} : accessCmp k k' = .eq ↔ SameKey k k' := by
  unfold accessCmp compareLex
  rw [Ordering.then_eq_eq]
  exact and_congr_right fun _ => Std.compare_eq_iff_eq

theorem getValue_addPathEffect (accesses : BlockAccesses) (p : Path) (fsAccess : FSAccess)
    (k : Path × String) : (addPathEffect accesses p fsAccess).getValue k =
      if SameKey (p, fsAccess.eventId) k then update (accesses.getValue k) fsAccess
      else accesses.getValue k := by
  by_cases hk : SameKey (p, fsAccess.eventId) k
  · have hc : accessCmp (p, fsAccess.eventId) k = .eq := accessCmp_eq_iff.mpr hk
    have hv : accesses.getValue (p, fsAccess.eventId) = accesses.getValue k :=
      Table.getValue_congr hc
    rw [if_pos hk, ← hv]
    unfold addPathEffect update
    dsimp only
    cases accesses.getValue (p, fsAccess.eventId) with
    | none => simp [Table.getValue_addEntry, hc]
    | some old =>
        cases h1 : fsAccess.effectType <;> cases h2 : old.effectType <;>
          simp [h2, Table.getValue_addEntry, Table.getValue_erase, hc]
  · have hc : accessCmp (p, fsAccess.eventId) k ≠ .eq := fun h => hk (accessCmp_eq_iff.mp h)
    rw [if_neg hk]
    unfold addPathEffect
    dsimp only
    cases accesses.getValue (p, fsAccess.eventId) with
    | none => simp [Table.getValue_addEntry, hc]
    | some old =>
        cases h1 : fsAccess.effectType <;> cases h2 : old.effectType <;>
          simp [h2, Table.getValue_addEntry, Table.getValue_erase, hc]

end FSAnalyzer

/-- The access of a charge. -/
def Charge.access (c : Charge) : FSAccess :=
  ⟨c.eventId, c.effectType, c.tags.getD [], c.operationName⟩

/-- What the charges leave recorded for a path and an event. -/
def recorded (log : List Charge) (k : Path × String) : Option FSAccess :=
  (log.filter fun c => FSAnalyzer.SameKey (c.path, c.eventId) k).foldl
    (fun old c => FSAnalyzer.update old c.access) none

/-- **The summary holds, path by path and event by event, what the charges leave.** -/
theorem getValue_summarise (log : List Charge) (k : Path × String) :
    (summarise log).getValue k = recorded log k := by
  unfold summarise recorded
  induction log using List.reverseRecOn with
  | nil => simp
  | append_singleton log c ih =>
      rw [List.foldl_concat, List.filter_append, List.foldl_append, ← ih]
      unfold Charge.add
      rw [FSAnalyzer.getValue_addPathEffect]
      by_cases hk : FSAnalyzer.SameKey (c.path, c.eventId) k
      · simp [hk, Charge.access]
      · simp [hk]

/-- Every access is recorded under its own event. -/
def OwnEvent (accesses : BlockAccesses) : Prop :=
  ∀ k a, accesses.getValue k = some a → a.eventId = k.2

theorem update_eventId {old : Option FSAccess} {fsAccess a : FSAccess} {e : String}
    (ho : ∀ b, old = some b → b.eventId = e) (hf : fsAccess.eventId = e)
    (h : FSAnalyzer.update old fsAccess = some a) : a.eventId = e := by
  unfold FSAnalyzer.update at h
  split at h
  · cases h
    exact hf
  · split at h
    · cases h
      exact ho _ rfl
    · cases h
      exact ho _ rfl
    · cases h
    · cases h
      exact hf

theorem ownEvent_summarise (log : List Charge) : OwnEvent (summarise log) := by
  unfold summarise
  induction log using List.reverseRecOn with
  | nil => intro k a h; simp at h
  | append_singleton log c ih =>
      intro k a h
      rw [List.foldl_concat, Charge.add, FSAnalyzer.getValue_addPathEffect] at h
      split at h
      · rename_i hk
        exact update_eventId (fun b hb => ih k b hb) hk.2 h
      · exact ih k a h

namespace FSAnalyzer

/-! ## 5. The effect table -/

/-- The accesses to one path, in the order of the table. -/
def accessesOf (entries : List ((Path × String) × FSAccess)) (p : Path) : List FSAccess :=
  (entries.filter fun elem => Path.cmp elem.1.1 p = .eq).map (·.2)

/-- The row of a path holds its accesses. -/
theorem getValue_groupAccesses (accesses : BlockAccesses) (p : Path) :
    (groupAccesses ∅ accesses).getValue p =
      if accessesOf accesses.toList p = [] then none
      else some (accessesOf accesses.toList p) := by
  unfold groupAccesses
  generalize accesses.toList = entries
  induction entries using List.reverseRecOn with
  | nil => simp [accessesOf]
  | append_singleton entries elem ih =>
      rw [List.foldl_concat]
      generalize List.foldl _ _ entries = table at ih ⊢
      have hs : accessesOf (entries ++ [elem]) p = accessesOf entries p ++
          if Path.cmp elem.1.1 p = .eq then [elem.2] else [] := by
        unfold accessesOf
        rw [List.filter_append, List.map_append]
        split <;> simp_all
      rw [hs]
      by_cases hp : Path.cmp elem.1.1 p = .eq
      · rw [if_pos hp, if_neg (by simp), Table.getValue_congr hp, ih]
        by_cases hn : accessesOf entries p = []
        · rw [if_pos hn]
          simp [Table.getValue_addEntry, hp, hn]
        · rw [if_neg hn]
          simp [Table.getValue_addEntry, hp]
      · rw [if_neg hp, List.append_nil, ← ih]
        cases table.getValue elem.1.1 <;> simp [Table.getValue_addEntry, hp]

theorem mem_accessesOf {accesses : BlockAccesses} (ho : OwnEvent accesses) {p : Path}
    {a : FSAccess} :
    a ∈ accessesOf accesses.toList p ↔ accesses.getValue (p, a.eventId) = some a := by
  unfold accessesOf
  rw [List.mem_map]
  constructor
  · intro hc
    obtain ⟨elem, he, ha⟩ := hc
    obtain ⟨he, hp⟩ := List.mem_filter.mp he
    obtain ⟨_, hv⟩ := Std.TreeMap.mem_toList_iff_getKey?_eq_some_and_getElem?_eq_some.mp he
    have ho := ho elem.1 elem.2 hv
    subst ha
    have hkey : accessCmp elem.1 (p, elem.2.eventId) = .eq :=
      accessCmp_eq_iff.mpr ⟨of_decide_eq_true hp, ho.symm⟩
    rw [← Table.getValue_congr hkey]
    exact hv
  · intro h
    obtain ⟨k, hk, hm⟩ :=
      Std.TreeMap.getElem?_eq_some_iff_exists_compare_eq_eq_and_mem_toList.mp h
    have hs := accessCmp_eq_iff.mp hk
    exact ⟨(k, a), List.mem_filter.mpr ⟨hm, by simpa using Std.OrientedCmp.eq_symm hs.1⟩, rfl⟩

/-- A row is ordered by events. -/
theorem accessesOf_pairwise {accesses : BlockAccesses} (ho : OwnEvent accesses) (p : Path) :
    (accessesOf accesses.toList p).Pairwise fun a b => a.eventId < b.eventId := by
  unfold accessesOf
  rw [List.pairwise_map]
  refine List.Pairwise.imp_of_mem (fun {a b} ha hb h => ?_)
    (Std.TreeMap.ordered_keys_toList.sublist List.filter_sublist)
  obtain ⟨ha, hap⟩ := List.mem_filter.mp ha
  obtain ⟨hb, hbp⟩ := List.mem_filter.mp hb
  obtain ⟨_, hav⟩ := Std.TreeMap.mem_toList_iff_getKey?_eq_some_and_getElem?_eq_some.mp ha
  obtain ⟨_, hbv⟩ := Std.TreeMap.mem_toList_iff_getKey?_eq_some_and_getElem?_eq_some.mp hb
  rw [ho a.1 a.2 hav, ho b.1 b.2 hbv]
  -- the paths are one key, so the events decide
  have hab : Path.cmp a.1.1 b.1.1 = .eq :=
    Std.TransCmp.eq_trans (of_decide_eq_true hap) (Std.OrientedCmp.eq_symm (of_decide_eq_true hbp))
  have h : (Path.cmp a.1.1 b.1.1).then (compare a.1.2 b.1.2) = .lt := h
  rw [hab] at h
  exact compare_lt_iff_lt.mp h

/-- A run is read off its effect table. -/
theorem exists_analyze_eq_ok {trace : Trace} {rows : List (Path × List FSAccess)}
    (h : (analyze trace).toOption.map (fun st => st.effectTable.toList) = some rows) :
    ∃ st, analyze trace = .ok st ∧ st.effectTable.toList = rows := by
  obtain ⟨st, hst, hr⟩ := Option.map_eq_some_iff.mp h
  cases ha : analyze trace with
  | error e =>
      rw [ha] at hst
      cases hst
  | ok st' =>
      rw [ha] at hst
      cases hst
      exact ⟨st, rfl, hr⟩

end FSAnalyzer

end Fsracer

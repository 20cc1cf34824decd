/-
  File:      Fsracer/Agreement.lean
  Subject:   WHICH EVENTS THE TWO ANALYZERS KNOW.

  `FSAnalyzer` walks every block and charges effects to ids that it takes from operations and
  blocks; `DependencyInferenceAnalyzer` skips the blocks of unknown events.
  **`analyzersAgree_iff`**: `Analyze` returns and charges nodes of the dependency graph only iff
  every step finds its paths and keys, every effect goes to a main block or to an event that was
  declared further up, and the effects that go to an event the other analyzer does not know
  cancel out on every path.
-/
import Mathlib
import Fsracer.RaceDetector
import Fsracer.Returns
import Fsracer.Summary

namespace Fsracer

/-! ## 1. The walk over a trace -/

/-- The expressions of a trace in the order in which they are analysed, each with its block. -/
def Trace.walk (t : Trace) : List (Block × Expr) :=
  t.blocks.flatMap fun b => b.exprs.map fun e => (b, e)

namespace FSAnalyzer

/-- The interpretation of a part of the walk. -/
def interpretWalk (t : Trace) (ws : List (Block × Expr)) :
    Except Abort (FsState × List Charge) := do
  let st ← setUp t
  interpretAll (fun st w => interpretExpr w.1 st w.2) st ws

theorem interpretAll_append {α : Type} (f : FsState → α → Except Abort (FsState × List Charge))
    (st : FsState) (as bs : List α) : interpretAll f st (as ++ bs) = do
      let r ← interpretAll f st as
      let r' ← interpretAll f r.1 bs
      return (r'.1, r.2 ++ r'.2) := by
  unfold interpretAll
  rw [List.foldlM_append]
  cases as.foldlM (interpretStep f) (st, []) with
  | error e => rfl
  | ok r =>
      show bs.foldlM (interpretStep f) (r.1, r.2) = _
      rw [foldlM_interpretStep]
      show _ = (interpretAll f r.1 bs >>= fun r' => pure (r'.1, r.2 ++ r'.2))
      cases interpretAll f r.1 bs <;> rfl

theorem interpretAll_map {α β : Type} (f : FsState → α → Except Abort (FsState × List Charge))
    (g : β → α) (st : FsState) (bs : List β) :
    interpretAll f st (bs.map g) = interpretAll (fun st b => f st (g b)) st bs := by
  unfold interpretAll
  rw [List.foldlM_map]
  rfl

theorem interpretAll_singleton {α : Type} (f : FsState → α → Except Abort (FsState × List Charge))
    (st : FsState) (a : α) : interpretAll f st [a] = f st a := by
  show (interpretStep f (st, []) a >>= pure) = f st a
  unfold interpretStep
  cases f st a <;> rfl

/-- The interpretation is that of the whole walk. -/
theorem interpret_eq_walk (t : Trace) : interpret t = interpretWalk t t.walk := by
  unfold interpret interpretWalk Trace.walk
  congr 1
  funext st
  generalize t.blocks = bs
  induction bs generalizing st with
  | nil => rfl
  | cons b bs ih =>
      rw [← List.singleton_append, interpretAll_append, interpretAll_singleton, List.flatMap_append,
        interpretAll_append, List.flatMap_singleton, interpretAll_map]
      simp only [ih]
      rfl

/-! ## 2. Whom the interpretation charges -/

theorem sameEvents_unlinkPath {st st' : FsState} {p : Path} {effect : EffectType}
    (h : unlinkPath st p effect = .ok st') : SameEvents st st' := by
  cases effect with
  | consumed => cases h; exact .refl _
  | produced => cases h; exact .refl _
  | expunged =>
      obtain ⟨r, hr, h⟩ := bind_eq_ok.mp h
      obtain ⟨t, _, rfl⟩ := unlinkResource_eq_ok.mp h
      exact (sameEvents_toInode hr).trans ⟨rfl, rfl, rfl⟩

/-- The charges go to the event of the state, with its tags. -/
def ChargedTo (st : FsState) (log : List Charge) : Prop :=
  ∀ c ∈ log, c.eventId = st.blockId ∧ c.tags = tagsOf st

theorem charge_spec {st st' : FsState} {p : Path} {effect : EffectType} {operationName : String}
    {log : List Charge} (h : charge st p effect operationName = .ok (st', log)) :
    SameEvents st st' ∧ ChargedTo st log := by
  obtain ⟨hu, rfl⟩ := charge_eq_ok.mp h
  refine ⟨sameEvents_unlinkPath hu, fun c hc => ?_⟩
  rw [List.mem_singleton.mp hc]
  exact ⟨rfl, rfl⟩

theorem interpretOperation_spec {st st' : FsState} {op : Operation} {log : List Charge}
    (h : interpretOperation st op = .ok (st', log)) : SameEvents st st' ∧ ChargedTo st log := by
  have hquiet : (do let st ← analyzeOperation st op; return (st, [])) =
      (.ok (st', log) : Except Abort (FsState × List Charge)) →
      analyzeOperation st op = .ok st' ∧ ChargedTo st log := by
    intro hq
    obtain ⟨st₁, h1, h2⟩ := bind_eq_ok.mp hq
    cases pure_eq_ok.mp h2
    exact ⟨h1, fun c hc => absurd hc List.not_mem_nil⟩
  obtain ⟨kind, name, failed⟩ := op
  cases kind with
  | newFd dirfd path fd => exact (hquiet h).imp_left sameEvents_newFd
  | delFd fd => exact (hquiet h).imp_left sameEvents_delFd
  | link od op nd np => exact (hquiet h).imp_left sameEvents_link
  | rename od op nd np => exact (hquiet h).imp_left sameEvents_rename
  | symlink dirfd path target => exact (hquiet h).imp_left sameEvents_symlink
  | hpathSym dirfd path effect =>
      simp only [interpretOperation] at h
      split at h
      · cases h
        exact ⟨.refl _, fun c hc => absurd hc List.not_mem_nil⟩
      · exact charge_spec h
  | hpath dirfd path effect =>
      simp only [interpretOperation] at h
      split at h
      · cases h
        exact ⟨.refl _, fun c hc => absurd hc List.not_mem_nil⟩
      · obtain ⟨r, hr, h⟩ := bind_eq_ok.mp h
        obtain ⟨hs, hc⟩ := charge_spec h
        have hi := sameEvents_toInode hr
        exact ⟨hi.trans hs, fun c hm => ⟨(hc c hm).1.trans hi.blockId,
          (hc c hm).2.trans hi.tagsOf⟩⟩

theorem interpretOperations_spec {st st' : FsState} {ops : List Operation} {log : List Charge}
    (h : interpretAll interpretOperation st ops = .ok (st', log)) :
    SameEvents st st' ∧ ChargedTo st log := by
  induction ops generalizing st log with
  | nil =>
      cases h
      exact ⟨.refl _, fun c hc => absurd hc List.not_mem_nil⟩
  | cons op ops ih =>
      obtain ⟨st₁, log₁, log₂, h1, h2, rfl⟩ := interpretAll_cons_eq_ok.mp h
      obtain ⟨hs1, hc1⟩ := interpretOperation_spec h1
      obtain ⟨hs2, hc2⟩ := ih h2
      refine ⟨hs1.trans hs2, fun c hc => (List.mem_append.mp hc).elim (hc1 c) fun hc => ?_⟩
      exact ⟨(hc2 c hc).1.trans hs1.blockId, (hc2 c hc).2.trans hs1.tagsOf⟩

theorem interpretSubmitOp_spec {st st' : FsState} {b : Block} {submitOp : SubmitOp}
    {log : List Charge} (h : interpretSubmitOp st b submitOp = .ok (st', log)) :
    st'.eventInfo = st.eventInfo ∧
      ChargedTo { st with blockId := submitBlockId b submitOp } log := by
  unfold interpretSubmitOp at h
  split at h
  · cases h
    exact ⟨rfl, fun c hc => absurd hc List.not_mem_nil⟩
  · obtain ⟨hs, hc⟩ := interpretOperations_spec h
    exact ⟨hs.eventInfo, hc⟩

theorem interpretWalk_append_singleton {t : Trace} {ws : List (Block × Expr)} {w : Block × Expr}
    {st : FsState} {log : List Charge} : interpretWalk t (ws ++ [w]) = .ok (st, log) ↔
      ∃ st₁ log₁ log₂, interpretWalk t ws = .ok (st₁, log₁) ∧
        interpretExpr w.1 st₁ w.2 = .ok (st, log₂) ∧ log = log₁ ++ log₂ := by
  unfold interpretWalk
  simp only [interpretAll_append, interpretAll_singleton, bind_eq_ok, pure_eq_ok, Prod.mk.injEq]
  constructor
  · intro ⟨st₀, h0, r, h1, r', h2, hs, hl⟩
    exact ⟨r.1, r.2, r'.2, ⟨st₀, h0, h1⟩, hs ▸ h2, hl.symm⟩
  · intro ⟨st₁, log₁, log₂, ⟨st₀, h0, h1⟩, h2, hl⟩
    exact ⟨st₀, h0, _, h1, _, h2, rfl, hl.symm⟩

/-- The charges of a walk stem from its submitted operations. -/
theorem mem_interpretWalk {t : Trace} {ws : List (Block × Expr)} {st : FsState}
    {log : List Charge} (h : interpretWalk t ws = .ok (st, log)) {c : Charge} :
    c ∈ log ↔ ∃ us b submitOp st₁ log₁ st₂ log₂, us ++ [(b, .submitOp submitOp)] <+: ws ∧
      interpretWalk t us = .ok (st₁, log₁) ∧
      interpretSubmitOp st₁ b submitOp = .ok (st₂, log₂) ∧ c ∈ log₂ := by
  induction ws using List.reverseRecOn generalizing st log with
  | nil =>
      obtain ⟨st₀, _, h⟩ := bind_eq_ok.mp h
      cases h
      exact iff_of_false List.not_mem_nil fun ⟨us, _, _, _, _, _, _, hp, _⟩ => by simp at hp
  | append_singleton ws w ih =>
      obtain ⟨st₁, log₁, log₂, h1, h2, rfl⟩ := interpretWalk_append_singleton.mp h
      rw [List.mem_append, ih h1]
      constructor
      · intro hc
        rcases hc with ⟨us, b, s, st₂, l₂, st₃, l₃, hp, hr⟩ | hc
        · exact ⟨us, b, s, st₂, l₂, st₃, l₃, hp.trans (List.prefix_append _ _), hr⟩
        · obtain ⟨b, e⟩ := w
          cases e with
          | submitOp e => exact ⟨ws, b, e, st₁, log₁, st, log₂, List.prefix_refl _, h1, h2, hc⟩
          | newEvent e => cases h2; exact absurd hc List.not_mem_nil
          | link e => cases h2; exact absurd hc List.not_mem_nil
          | trigger e => cases h2; exact absurd hc List.not_mem_nil
      · intro ⟨us, b, s, st₂, l₂, st₃, l₃, hp, hu, hs, hc⟩
        rcases snoc_prefix_snoc.mp hp with hp | ⟨rfl, rfl⟩
        · exact .inl ⟨us, b, s, st₂, l₂, st₃, l₃, hp, hu, hs, hc⟩
        · right
          cases h1.symm.trans hu
          cases h2.symm.trans hs
          exact hc

end FSAnalyzer

open FSAnalyzer

/-! ## 3. Whom a run charges -/

/-- The event that is charged after some actions. -/
def chargedBy (as : List FsAction) (blockId : String) : String :=
  as.foldl (fun
    | _, .charge x => x
    | blockId, .newEvent _ | blockId, .operation _ => blockId) blockId

/-- `x` is declared by a `newEvent` among the actions, in whatever block. -/
def DeclaredIn (as : List FsAction) (x : String) : Prop :=
  ∃ e, .newEvent e ∈ as ∧ toString e.eventId = x

theorem declaredIn_snoc {as : List FsAction} {a : FsAction} {x : String} :
    DeclaredIn (as ++ [a]) x ↔ DeclaredIn as x ∨ ∃ e, a = .newEvent e ∧ toString e.eventId = x := by
  unfold DeclaredIn
  simp only [List.mem_append, List.mem_singleton, or_and_right, exists_or]
  exact or_congr_right (exists_congr fun e => and_congr_left' eq_comm)

/-- The events of a state after a run. -/
theorem events_run {st st' : FsState} {as : List FsAction} (hw : st.tables.WellFormed)
    (h : fsRun st as = .ok st') : st'.blockId = chargedBy as st.blockId ∧
      ∀ x, (st'.eventInfo.getValue x).isSome ↔
        (st.eventInfo.getValue x).isSome ∨ DeclaredIn as x := by
  induction as using List.reverseRecOn generalizing st' with
  | nil =>
      cases h
      refine ⟨rfl, fun x => (or_iff_left fun hd => ?_).symm⟩
      obtain ⟨e, he, -⟩ := hd
      cases he
  | append_singleton as a ih =>
      obtain ⟨st₁, h1, h2⟩ := fsRun_snoc_eq_ok.mp h
      obtain ⟨hid, hinfo⟩ := ih h1
      have hlast : chargedBy (as ++ [a]) st.blockId = chargedBy [a] st₁.blockId := by
        unfold chargedBy
        rw [List.foldl_append, hid]
        rfl
      rw [hlast]
      cases a with
      | charge x =>
          cases h2
          refine ⟨rfl, fun y => (hinfo y).trans ?_⟩
          rw [declaredIn_snoc]
          simp
      | operation op =>
          obtain ⟨hinfo', hid', -⟩ := charged_step (wellFormed_run hw h1) h2
          refine ⟨hid', fun y => ?_⟩
          rw [hinfo', hinfo y, declaredIn_snoc]
          simp
      | newEvent e =>
          cases h2
          refine ⟨rfl, fun y => ?_⟩
          rw [declaredIn_snoc, ← or_assoc, ← hinfo y]
          show ((st₁.eventInfo.addEntry (toString e.eventId) e).getValue y).isSome ↔ _
          rw [Table.getValue_addEntry]
          split
          · rename_i hc
            exact iff_of_true rfl (.inr ⟨e, rfl, Std.compare_eq_iff_eq.mp hc⟩)
          · rename_i hc
            refine (or_iff_left fun hd => ?_).symm
            obtain ⟨e', he, hy⟩ := hd
            cases he
            exact hc (Std.compare_eq_iff_eq.mpr hy)

theorem isSome_tagsOf {st : FsState} : (tagsOf st).isSome ↔
    startsWith st.blockId "MAIN_" = true ∨ (st.eventInfo.getValue st.blockId).isSome := by
  unfold tagsOf
  split
  · rename_i h
    simp [h]
  · rename_i h
    simp [h]

theorem setUp_events {t : Trace} {st : FsState} (h : setUp t = .ok st) :
    st.blockId = "" ∧ st.eventInfo = ∅ ∧ st.blockAccesses = ∅ := by
  obtain ⟨r, hr, h⟩ := bind_eq_ok.mp h
  obtain ⟨i, _, hr⟩ := toInode_eq_ok.mp hr
  rw [← pure_eq_ok.mp h]
  show r.2.blockId = "" ∧ r.2.eventInfo = ∅ ∧ r.2.blockAccesses = ∅
  rw [hr]
  exact ⟨rfl, rfl, rfl⟩

/-! ## 4. What a run leaves recorded -/

/-- The effect of a step on the path `p` by the event `x`, if it has one. -/
def stepEffects (p : Path) (x : String) (st : FsState) : FsAction → List EffectType
  | .charge _ | .newEvent _ => []
  | .operation op =>
      match effectOf st op with
      | none => []
      | some (q, effect) => if st.blockId = x ∧ Path.cmp q p = .eq then [effect] else []

/-- The effects of a run on the path `p` by the event `x`, in order. -/
def runEffects (p : Path) (x : String) (st : FsState) : List FsAction → List EffectType
  | [] => []
  | a :: as =>
      stepEffects p x st a ++
        match fsStep st a with
        | .ok st' => runEffects p x st' as
        | .error _ => []

theorem runEffects_cons {p : Path} {x : String} {st st₁ : FsState} {a : FsAction}
    {as : List FsAction} (h : fsStep st a = .ok st₁) :
    runEffects p x st (a :: as) = stepEffects p x st a ++ runEffects p x st₁ as := by
  simp only [runEffects, h]

/-- The effect that is recorded for a path and an event. -/
def recordedEffect (st : FsState) (p : Path) (x : String) : Option EffectType :=
  (st.blockAccesses.getValue (p, x)).map (·.effectType)

theorem recordedEffect_step {st st' : FsState} {a : FsAction} (hw : st.tables.WellFormed)
    (h : fsStep st a = .ok st') (p : Path) (x : String) :
    recordedEffect st' p x = (stepEffects p x st a).foldl updateEffect (recordedEffect st p x) := by
  cases a with
  | charge id =>
      cases h
      rfl
  | newEvent e =>
      cases h
      rfl
  | operation op =>
      obtain ⟨-, -, hcharged⟩ := charged_step hw h
      unfold recordedEffect stepEffects
      dsimp only
      generalize st'.blockAccesses = accesses at hcharged
      cases hcharged with
      | nothing hnone =>
          rw [hnone]
          rfl
      | @effect q effect tags hsome htags =>
          rw [hsome, getValue_addPathEffect]
          dsimp only
          by_cases hk : SameKey (q, st.blockId) (p, x)
          · rw [if_pos hk, if_pos ⟨hk.2, hk.1⟩, update_effectType]
            rfl
          · rw [if_neg hk, if_neg fun hc => hk ⟨hc.2, hc.1⟩]
            rfl

/-- **What is recorded is what the effects leave.** -/
theorem recordedEffect_run {st st' : FsState} {as : List FsAction} (hw : st.tables.WellFormed)
    (h : fsRun st as = .ok st') (p : Path) (x : String) :
    recordedEffect st' p x = (runEffects p x st as).foldl updateEffect (recordedEffect st p x) := by
  induction as generalizing st with
  | nil =>
      cases h
      rfl
  | cons a as ih =>
      obtain ⟨st₁, h1, h2⟩ := fsRun_cons_eq_ok.mp h
      have hw₁ : st₁.tables.WellFormed := wellFormed_run hw ((fsRun_singleton st a).trans h1)
      rw [ih hw₁ h2, recordedEffect_step hw h1, runEffects_cons h1, List.foldl_append]

/-! ## 5. Agreement -/

/-- `Analyze` returns, and every event in its effect table is a node of the dependency graph. -/
def AnalyzersAgree (t : Trace) : Prop :=
  ∃ st, analyze t = .ok st ∧
    ∀ p x, Detector.HasAccess st.effectTable p x → (dependencyGraph t).HasNode x.eventId

/-- **When the analyzers agree.** The first three let every lookup and every removal return; an
    effect goes to an event that was declared before it; and an event that the dependency analyzer
    never enters or creates removes again whatever it produced, on each path, and last of all. -/
structure EventsAgree (t : Trace) : Prop where
  cwd : t.cwd = "/" ∨ (⟨t.cwd⟩ : Path).BelowRoot
  grounded : ∀ st₀, setUp t = .ok st₀ → EachStep Grounded st₀ t.fsActions
  keysFound : ∀ st₀, setUp t = .ok st₀ → EachStep KeysFound st₀ t.fsActions
  declared : ∀ st₀, setUp t = .ok st₀ → ∀ as op st, as ++ [.operation op] <+: t.fsActions →
    fsRun st₀ as = .ok st → (effectOf st op).isSome →
      startsWith (chargedBy as "") "MAIN_" = true ∨ DeclaredIn as (chargedBy as "")
  known : ∀ st₀, setUp t = .ok st₀ → ∀ p x, ¬ (history t.actions).Known x →
    LeavesNothing (runEffects p x st₀ t.fsActions)

/-- A row of the effect table holds what the charges leave recorded under its path. -/
theorem recorded_of_hasAccess {log : List Charge} {p : String} {x : FSAccess}
    (h : Detector.HasAccess (groupAccesses ∅ (summarise log)) p x) :
    recorded log (⟨p⟩, x.eventId) = some x := by
  obtain ⟨row, hm, hx⟩ := h
  have hv : (groupAccesses ∅ (summarise log)).getValue ⟨p⟩ = some row :=
    (Std.TreeMap.mem_toList_iff_getKey?_eq_some_and_getElem?_eq_some.mp hm).2
  rw [getValue_groupAccesses] at hv
  split at hv
  · cases hv
  · cases hv
    rwa [mem_accessesOf (ownEvent_summarise log), getValue_summarise] at hx

/-- The effect table lists what the charges leave recorded. -/
theorem hasAccess_groupAccesses {log : List Charge} {x : FSAccess} :
    (∃ p, Detector.HasAccess (groupAccesses ∅ (summarise log)) p x) ↔
      ∃ q, recorded log (q, x.eventId) = some x := by
  constructor
  · intro hc
    obtain ⟨p, hp⟩ := hc
    exact ⟨⟨p⟩, recorded_of_hasAccess hp⟩
  · intro hc
    obtain ⟨q, hq⟩ := hc
    rw [← getValue_summarise] at hq
    have hx := (mem_accessesOf (ownEvent_summarise log)).mpr hq
    have hv : (groupAccesses ∅ (summarise log)).getValue q =
        some (accessesOf (summarise log).toList q) := by
      rw [getValue_groupAccesses, if_neg (List.ne_nil_of_mem hx)]
    obtain ⟨q', _, hm⟩ :=
      Std.TreeMap.getElem?_eq_some_iff_exists_compare_eq_eq_and_mem_toList.mp hv
    exact ⟨q'.native, _, hm, hx⟩

theorem recorded_eventId {log : List Charge} {k : Path × String} {x : FSAccess}
    (h : recorded log k = some x) : x.eventId = k.2 :=
  ownEvent_summarise log k x ((getValue_summarise log k).trans h)

/-- The tags of an event are there iff it is a main block or was declared. -/
theorem tagged_iff {t : Trace} {st₀ st : FsState} {as : List FsAction} (h0 : setUp t = .ok st₀)
    (h : fsRun st₀ as = .ok st) : (tagsOf st).isSome ↔
      startsWith (chargedBy as "") "MAIN_" = true ∨ DeclaredIn as (chargedBy as "") := by
  obtain ⟨hid, hinfo, -⟩ := setUp_events h0
  obtain ⟨hid', hinfo'⟩ := events_run (wellFormed_setUp h0) h
  rw [isSome_tagsOf, hinfo' st.blockId, hid', hid, hinfo]
  refine or_congr_right (or_iff_right fun hc => ?_)
  cases hc

theorem analyze_returns_iff_declared (t : Trace) : (∃ st, analyze t = .ok st) ↔
    (t.cwd = "/" ∨ (⟨t.cwd⟩ : Path).BelowRoot) ∧
      (∀ st₀, setUp t = .ok st₀ → EachStep Grounded st₀ t.fsActions) ∧
      (∀ st₀, setUp t = .ok st₀ → EachStep KeysFound st₀ t.fsActions) ∧
      ∀ st₀, setUp t = .ok st₀ → ∀ as op st, as ++ [.operation op] <+: t.fsActions →
        fsRun st₀ as = .ok st → (effectOf st op).isSome →
          startsWith (chargedBy as "") "MAIN_" = true ∨ DeclaredIn as (chargedBy as "") := by
  rw [analyze_returns_iff]
  refine and_congr_right fun _ => ⟨fun h => ⟨?_, ?_, ?_⟩, fun h st₀ h0 as a st hp hst => ?_⟩
  · exact fun st₀ h0 as a st hp hst => (h st₀ h0 as a st hp hst).grounded
  · exact fun st₀ h0 as a st hp hst => (h st₀ h0 as a st hp hst).keysFound
  · intro st₀ h0 as op st hp hst heffect
    exact (tagged_iff h0 hst).mp ((h st₀ h0 as _ st hp hst).tagged heffect)
  · obtain ⟨hgrounded, hkeys, hdeclared⟩ := h
    refine ⟨hgrounded st₀ h0 as a st hp hst, hkeys st₀ h0 as a st hp hst, ?_⟩
    cases a with
    | charge id => trivial
    | newEvent e => trivial
    | operation op =>
        exact fun heffect => (tagged_iff h0 hst).mpr (hdeclared st₀ h0 as op st hp hst heffect)

/-- The events of the effect table are those with a recorded effect. -/
theorem hasAccess_iff_recordedEffect {t : Trace} {st₀ st st' : FsState} (h0 : setUp t = .ok st₀)
    (h : fsRun st₀ t.fsActions = .ok st) (ha : analyze t = .ok st') (x : String) :
    (∃ p a, Detector.HasAccess st'.effectTable p a ∧ a.eventId = x) ↔
      ∃ p, recordedEffect st p x ≠ none := by
  have htrace : analyzeTrace .init t = .ok st := by
    rw [analyzeTrace_eq_run]
    exact bind_eq_ok.mpr ⟨st₀, h0, h⟩
  obtain ⟨st₁, log, hi, -, rfl⟩ := analyzeTrace_eq_ok_iff.mp htrace
  obtain ⟨st₂, log₂, hi₂, -, rfl⟩ := analyze_eq_ok_iff.mp ha
  cases hi.symm.trans hi₂
  have hrec : ∀ p, recordedEffect (withAccesses st₁ (summarise log)) p x =
      (recorded log (p, x)).map (·.effectType) := by
    intro p
    unfold recordedEffect
    rw [← getValue_summarise]
    rfl
  constructor
  · intro hx
    obtain ⟨p, a, hx, rfl⟩ := hx
    obtain ⟨q, hq⟩ := hasAccess_groupAccesses.mp ⟨p, hx⟩
    refine ⟨q, ?_⟩
    rw [hrec, hq]
    exact nofun
  · intro hx
    obtain ⟨q, hq⟩ := hx
    rw [hrec] at hq
    obtain ⟨a, ha⟩ := Option.ne_none_iff_exists'.mp (mt Option.map_eq_none_iff.mpr hq)
    obtain rfl : a.eventId = x := recorded_eventId ha
    obtain ⟨p, hp⟩ := hasAccess_groupAccesses.mpr ⟨q, ha⟩
    exact ⟨p, a, hp, rfl⟩

/-- **When the two analyzers agree on the events.** -/
theorem analyzersAgree_iff (t : Trace) : AnalyzersAgree t ↔ EventsAgree t := by
  have hnode : ∀ x, (dependencyGraph t).HasNode x ↔ (history t.actions).Known x := by
    intro x
    rw [dependencyGraph, inferTrace_eq_run]
    exact (agrees_run (List.prefix_refl t.actions)).node x
  -- what is recorded at the end, for a run that returns
  have hnothing : ∀ st₀ st, setUp t = .ok st₀ → fsRun st₀ t.fsActions = .ok st → ∀ p x,
      recordedEffect st p x = none ↔ LeavesNothing (runEffects p x st₀ t.fsActions) := by
    intro st₀ st h0 h p x
    rw [recordedEffect_run (wellFormed_setUp h0) h, ← foldl_eq_none_iff]
    unfold recordedEffect
    rw [(setUp_events h0).2.2]
    rfl
  have hrun : ∀ st₀ st', setUp t = .ok st₀ → analyze t = .ok st' →
      ∃ st, fsRun st₀ t.fsActions = .ok st := by
    intro st₀ st' h0 ha
    obtain ⟨st, hst, -⟩ := bind_eq_ok.mp ha
    rw [analyzeTrace_eq_run] at hst
    obtain ⟨st₁, h1, hst⟩ := bind_eq_ok.mp hst
    cases h0.symm.trans h1
    exact ⟨st, hst⟩
  constructor
  · intro h
    obtain ⟨st', ha, hx⟩ := h
    obtain ⟨hcwd, hgrounded, hkeys, hdeclared⟩ := (analyze_returns_iff_declared t).mp ⟨st', ha⟩
    refine ⟨hcwd, hgrounded, hkeys, hdeclared, fun st₀ h0 p x hno => ?_⟩
    obtain ⟨st, hst⟩ := hrun st₀ st' h0 ha
    refine (hnothing st₀ st h0 hst p x).mp (by_contra fun hne => hno ?_)
    obtain ⟨q, a, hq, rfl⟩ := (hasAccess_iff_recordedEffect h0 hst ha x).mpr ⟨p, hne⟩
    exact (hnode _).mp (hx q a hq)
  · intro h
    obtain ⟨st', ha⟩ := (analyze_returns_iff_declared t).mpr
      ⟨h.cwd, h.grounded, h.keysFound, h.declared⟩
    refine ⟨st', ha, fun p a hx => (hnode _).mpr (by_contra fun hno => ?_)⟩
    obtain ⟨st₀, h0⟩ := setUp_returns_iff.mpr h.cwd
    obtain ⟨st, hst⟩ := hrun st₀ st' h0 ha
    obtain ⟨q, hq⟩ := (hasAccess_iff_recordedEffect h0 hst ha a.eventId).mp ⟨p, a, hx, rfl⟩
    exact hq ((hnothing st₀ st h0 hst q a.eventId).mpr (h.known st₀ h0 q a.eventId hno))

/-- Block 5 opens a file, and no `newEvent` declares event 5. -/
def undeclaredBlock : Trace where
  threadId := 1
  cwd := "/home"
  execOps := [⟨"sync_1", [⟨.hpath atFdcwd "/log" .produced, false, "open"⟩]⟩]
  blocks := [⟨1, .MAIN, [.newEvent ⟨4, ⟨.S, 0⟩, []⟩]⟩,
    ⟨5, .REG, [.submitOp ⟨"sync_1", none, ["node_open"]⟩]⟩]

/-- The parser accepts a file on which `ProcessPathEffect` dereferences an entry that is not
    there. -/
theorem analyzersAgree_fails : ¬ ∀ t, TraceParser.Accepts t → AnalyzersAgree t := by
  intro h
  have hp : TraceParser.parse (dump undeclaredBlock) = .ok undeclaredBlock := by decide +kernel
  obtain ⟨st, hst, _⟩ := h _ ⟨_, hp⟩
  have hf : (analyze undeclaredBlock).toOption.isSome = false := by decide +kernel
  rw [hst] at hf
  cases hf

end Fsracer

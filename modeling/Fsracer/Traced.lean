/-
  File:      Fsracer/Traced.lean
  Subject:   WHAT THE ANALYZERS MAKE OF A TRACE OF THE TRACER.

  In the blocks of a prompt run every link stands right behind the creation of the event that it
  names, and every operation in the block in which it was submitted.

  * **`run_neverAborts`** -- so no query on the dependency graph aborts, and the race detector
    reports exactly the races of the trace;
  * **`run_charges`** -- the analysis of accesses executes every `ExecOp` once, and charges it to
    the event or block that submitted it.
-/
import Mathlib
import Fsracer.Sentences
import Fsracer.Aborts
import Fsracer.FsRun
import Fsracer.Report

namespace Fsracer

open Detector

namespace NodeGenerator

/-! ## 1. Links -/

/-- **A link follows the creation of its target.** -/
theorem Sentences.before_link {es as bs : List Expr} (h : Sentences es) {e : LinkExpr}
    (hes : es = as ++ .link e :: bs) :
    ∃ cs n, as = cs ++ [.newEvent n] ∧ n.eventId = e.targetEv := by
  induction h generalizing as bs with
  | nil => simp at hes
  | trigger y _ ih =>
      rcases append_eq_append_cons hes with ⟨cs, h⟩ | ⟨cs, -, htail⟩
      · exact ih h
      · rcases cs with _ | ⟨c, cs⟩ <;> simp at htail
  | event e _ _ ih =>
      rcases append_eq_append_cons hes with ⟨cs, h⟩ | ⟨cs, -, htail⟩
      · exact ih h
      · rcases cs with _ | ⟨c, cs⟩ <;> simp at htail
  | created y t _ ih =>
      rcases append_eq_append_cons hes with ⟨cs, h⟩ | ⟨cs, has, htail⟩
      · exact ih h
      · rcases cs with _ | ⟨c, _ | ⟨d, cs⟩⟩ <;> simp at htail
        obtain ⟨rfl, rfl, rfl⟩ := htail
        exact ⟨_, _, has, rfl⟩
  | submitted y t f _ ih =>
      rcases append_eq_append_cons hes with ⟨cs, h⟩ | ⟨cs, has, htail⟩
      · exact ih h
      · rcases cs with _ | ⟨c, _ | ⟨d, _ | ⟨d', cs⟩⟩⟩ <;> simp at htail
        obtain ⟨rfl, rfl, -⟩ := htail
        exact ⟨_, _, has, rfl⟩
  | sync n f _ ih =>
      rcases append_eq_append_cons hes with ⟨cs, h⟩ | ⟨cs, -, htail⟩
      · exact ih h
      · rcases cs with _ | ⟨c, cs⟩ <;> simp at htail

/-- A prefix of the actions of blocks ends in one of the blocks. -/
theorem exists_block_of_prefix {bs : List Block} {p : List Action} {a : Action}
    (h : p ++ [a] <+: bs.flatMap Block.actions) : ∃ b ∈ bs, ∃ before q, p = before ++ q ∧
      q ++ [a] <+: b.actions := by
  induction bs generalizing p with
  | nil => simp at h
  | cons b bs ih =>
      rw [List.flatMap_cons] at h
      rcases List.prefix_or_prefix_of_prefix h (List.prefix_append _ _) with hb | ⟨r, hr⟩
      · exact ⟨b, List.mem_cons_self, [], p, rfl, hb⟩
      · rcases List.eq_nil_or_concat r with rfl | ⟨r, a', rfl⟩
        · rw [List.append_nil] at hr
          exact ⟨b, List.mem_cons_self, [], p, rfl, hr ▸ List.prefix_refl _⟩
        · rw [List.concat_eq_append, ← List.append_assoc] at hr
          obtain ⟨rfl, rfl⟩ := List.append_singleton_inj.mp hr
          rw [List.append_assoc, List.prefix_append_right_inj] at h
          obtain ⟨b', hb', before, q, rfl, hq⟩ := ih h
          exact ⟨b', List.mem_cons_of_mem _ hb', b.actions ++ before, q,
            (List.append_assoc _ _ _).symm, hq⟩

/-- An expression in the actions of its block. -/
theorem exprs_of_prefix {b : Block} {q : List Action} {e : Expr}
    (h : q ++ [Action.expr e] <+: b.actions) :
    ∃ es, q = .enter b :: es.map .expr ∧ es ++ [e] <+: b.exprs := by
  unfold Block.actions at h
  rcases snoc_prefix_cons.mp h with ⟨-, ha⟩ | ⟨q', rfl, hq⟩
  · cases ha
  · rcases snoc_prefix_snoc.mp hq with hq | ⟨-, ha⟩
    · obtain ⟨fs, hfs, hmap⟩ := List.prefix_map_iff.mp hq
      obtain ⟨es, gs, rfl, hes, hgs⟩ := List.append_eq_map_iff.mp hmap
      obtain ⟨e', rfl, he⟩ := List.map_eq_singleton_iff.mp hgs
      cases he
      exact ⟨es, by rw [hes], hfs⟩
    · cases ha

/-- **The links of sentences are resolved.** -/
theorem linksResolved_of_sentences {t : Trace} (h : ∀ b ∈ t.blocks, Sentences b.exprs) :
    LinksResolved t := by
  intro p e he
  obtain ⟨b, hb, before, q, rfl, hq⟩ := exists_block_of_prefix he.reached
  obtain ⟨es, rfl, bs, hes⟩ := exprs_of_prefix hq
  rw [List.append_assoc] at hes
  obtain ⟨cs, n, rfl, hn⟩ := (h b hb).before_link hes.symm
  -- the action before the link creates its target, in the same block
  have hp : before ++ Action.enter b :: (cs ++ [Expr.newEvent n]).map Action.expr =
      (before ++ Action.enter b :: cs.map Action.expr) ++ [.expr (.newEvent n)] := by
    rw [List.map_append, List.append_assoc]
    rfl
  obtain ⟨c, hc, -⟩ := he.notBlock
  have hreached := (List.prefix_append _ _).trans he.reached
  rw [hp] at hc hreached
  rw [history_append_singleton, (History.step_expr _ _).1] at hc
  refine known_mono hreached (.inl ?_)
  rw [history_append_singleton, History.step_newEvent hc, ← hn]
  simp

/-- The graph of such a trace is closed. -/
theorem closed_of_sentences {t : Trace} (h : ∀ b ∈ t.blocks, Sentences b.exprs) :
    (dependencyGraph t).Closed :=
  (closed_dependencyGraph_iff t).mpr (linksResolved_of_sentences h)

/-- **No query aborts.** On the trace of a legal prompt run the race detector answers every query,
    and if the accesses can be analysed, it reports exactly their races. -/
theorem run_neverAborts (threadId : Nat) (cwd : String) {cs : List Callback} (h : Legal cs)
    (hp : Prompt cs) : ∃ g, run threadId cwd cs = .ok g ∧ NeverAborts g.trace ∧
      ∀ st, FSAnalyzer.analyze g.trace = .ok st → ∃ tags entries d',
        ExactReport (dependencyGraph g.trace) st.effectTable tags entries ∧
        detect (dependencyGraph g.trace) st.effectTable .init =
          some (reportLines tags entries, d') := by
  obtain ⟨g, hg, hr⟩ := refines_run threadId cwd h
  have hclosed : (dependencyGraph g.trace).Closed :=
    closed_of_sentences fun b hb => (written_run h hp).sentences b (hr.traceBlocks ▸ hb)
  refine ⟨g, hg, ⟨fun s x l he => hclosed s x ⟨l, he⟩, fun s hs => hclosed.dfs_done hs,
    happensBefore_returns hclosed⟩, fun st hst => ?_⟩
  obtain ⟨tags, entries, hexact, hdetect⟩ := exactReport_analyze hst hclosed
  obtain ⟨d', hd', -⟩ := hdetect .init (cacheOk_init _)
  exact ⟨tags, entries, d', hexact, hd'⟩

/-- The queries on the sample run. -/
theorem run_neverAborts_sampleRun : ∃ g, run 1 "/" sampleRun = .ok g ∧ NeverAborts g.trace ∧
    ∀ st, FSAnalyzer.analyze g.trace = .ok st → ∃ tags entries d',
      ExactReport (dependencyGraph g.trace) st.effectTable tags entries ∧
      detect (dependencyGraph g.trace) st.effectTable .init =
        some (reportLines tags entries, d') :=
  run_neverAborts 1 "/" legal_sampleRun prompt_sampleRun

/-! ## 2. Charges -/

/-- The operations that the analysis of accesses executes, with the event or block that each is
    charged to. -/
def charges (t : Trace) : List (String × ExecOp) :=
  t.blocks.flatMap fun b => (submitOpsOf b.exprs).filterMap fun e =>
    (t.opTable.getValue e.opId).map fun op => (FSAnalyzer.submitBlockId b e, op)

/-- The actions of a charged operation. -/
def chargeActions (c : String × ExecOp) : List FsAction :=
  .charge c.1 :: c.2.operations.map .operation

/-- An action that executes something. -/
def executes : FsAction → Bool
  | .newEvent _ => false
  | .charge _ | .operation _ => true

/-- Who submitted: the event of an asynchronous operation, the block otherwise. -/
def submitter (s : String × SubmitOp) : String :=
  match s.2.eventId with
  | some x => toString x
  | none => s.1

theorem fsActions_expr (table : Table String ExecOp compare) (b : Block) (e : Expr) :
    (e.fsActions table b).filter executes =
      ((submitOpsOf [e]).filterMap fun e => (table.getValue e.opId).map fun op =>
        (FSAnalyzer.submitBlockId b e, op)).flatMap chargeActions := by
  cases e with
  | submitOp e =>
      unfold Expr.fsActions
      dsimp only
      have hops : submitOpsOf [.submitOp e] = [e] := rfl
      rw [hops]
      cases h : table.getValue e.opId with
      | none => simp [h]
      | some op => simp [h, chargeActions, executes]
  | newEvent e => rfl
  | link e => rfl
  | trigger e => rfl

/-- **What the analysis executes** are the charges, one after the other. -/
theorem fsActions_charges (t : Trace) :
    t.fsActions.filter executes = (charges t).flatMap chargeActions := by
  unfold Trace.fsActions charges
  rw [List.filter_flatMap, List.flatMap_assoc]
  refine List.flatMap_congr fun b _ => ?_
  generalize b.exprs = es
  rw [List.filter_flatMap]
  induction es with
  | nil => rfl
  | cons e es ih =>
      have hops : submitOpsOf (e :: es) = submitOpsOf [e] ++ submitOpsOf es :=
        submitOpsOf_append [e] es
      rw [List.flatMap_cons, ih, fsActions_expr, hops, List.filterMap_append, List.flatMap_append]

theorem getRightSubstr_async (x : Nat) :
    getRightSubstr ("async_" ++ toString x) '_' = toString x := by
  have hdrop : ("async_" ++ toString x).toList.dropWhile (· ≠ '_') = '_' :: (toString x).toList := by
    rw [String.toList_append]
    rfl
  unfold getRightSubstr
  rw [hdrop]
  exact String.ofList_toList

/-- In sentences an operation is charged to its submitter. -/
theorem submitBlockId_eq {b : Block} (h : Sentences b.exprs) {e : SubmitOp}
    (he : e ∈ submitOpsOf b.exprs) :
    FSAnalyzer.submitBlockId b e = submitter (b.getPrettyBlockId, e) := by
  obtain ⟨id, eventId, tags⟩ := e
  cases eventId with
  | none => rfl
  | some x =>
      obtain ⟨e', he', heq⟩ := List.mem_filterMap.mp he
      obtain ⟨as, bs, hes⟩ := List.append_of_mem he'
      cases e' with
      | submitOp op =>
          cases heq
          obtain ⟨f, t, cs, rfl, -⟩ := h.before_submitOp hes
          exact getRightSubstr_async x
      | _ => cases heq

theorem charges_eq {t : Trace} (h : ∀ b ∈ t.blocks, Sentences b.exprs) :
    charges t = (t.blocks.flatMap placedOps).filterMap fun s =>
      (t.opTable.getValue s.2.opId).map fun op => (submitter s, op) := by
  unfold charges
  rw [List.filterMap_flatMap]
  refine List.flatMap_congr fun b hb => ?_
  unfold placedOps
  rw [List.filterMap_map]
  refine List.filterMap_congr fun e he => ?_
  rw [submitBlockId_eq (h b hb) he]
  rfl

/-- The operation table of a trace in which no id is used twice. -/
theorem getValue_opTable {t : Trace} (h : (t.execOps.map (·.id)).Nodup) {id : String}
    {op : ExecOp} : t.opTable.getValue id = some op ↔ op ∈ t.execOps ∧ op.id = id := by
  unfold Trace.opTable
  generalize t.execOps = es at h ⊢
  induction es using List.reverseRecOn with
  | nil => simp
  | append_singleton es e ih =>
      rw [List.map_append, List.nodup_append] at h
      obtain ⟨hes, -, hdisjoint⟩ := h
      rw [List.foldl_concat, Table.getValue_addEntry, List.mem_append, List.mem_singleton]
      by_cases hid : e.id = id
      · subst hid
        rw [if_pos Std.ReflCmp.compare_self]
        constructor
        · intro h
          cases h
          exact ⟨.inr rfl, rfl⟩
        · intro h
          obtain ⟨hop | rfl, hid⟩ := h
          · exact absurd hid (hdisjoint _ (List.mem_map_of_mem hop) _ (List.mem_singleton_self _))
          · rfl
      · rw [if_neg (by simpa using hid), ih hes]
        constructor
        · exact fun h => ⟨.inl h.1, h.2⟩
        · intro h
          obtain ⟨hop | rfl, hid'⟩ := h
          · exact ⟨hop, hid'⟩
          · exact absurd hid' hid

/-- Looking up every key once finds every element once. -/
theorem perm_of_lookup {α κ : Type} {key : α → κ} {xs : List α} {ks : List κ}
    {get : κ → Option α} (hks : ks.Nodup) (hxs : (xs.map key).Nodup)
    (hget : ∀ k x, get k = some x ↔ x ∈ xs ∧ key x = k) (hkeys : ∀ x ∈ xs, key x ∈ ks) :
    (ks.filterMap get).Perm xs := by
  have hnodup : (ks.filterMap get).Nodup := by
    refine hks.filterMap fun k k' x hx hx' => ?_
    rw [← ((hget k x).mp hx).2, ← ((hget k' x).mp hx').2]
  refine (List.perm_ext_iff_of_nodup hnodup (List.Nodup.of_map key hxs)).mpr fun x => ?_
  rw [List.mem_filterMap]
  constructor
  · intro h
    obtain ⟨k, -, hk⟩ := h
    exact ((hget k x).mp hk).1
  · exact fun hx => ⟨key x, hkeys x hx, (hget _ x).mpr ⟨hx, rfl⟩⟩

section Charges

variable {threadId : Nat} {cwd : String} {cs : List Callback} {g : TraceGenerator}

/-- The charges of a run, submission by submission. -/
theorem charges_run (h : Legal cs) (hp : Prompt cs) (hg : run threadId cwd cs = .ok g) :
    charges g.trace = (submitOps cs).filterMap fun s =>
      (g.trace.opTable.getValue s.2.opId).map fun op => (submitter s, op) := by
  obtain ⟨g₁, hg₁, hr⟩ := refines_run threadId cwd h
  cases hg.symm.trans hg₁
  have hw := written_run h hp
  have hops : g.trace.blocks.flatMap placedOps = submitOps cs := hr.traceBlocks ▸ hw.ops
  rw [charges_eq fun b hb => hw.sentences b (hr.traceBlocks ▸ hb), hops]

theorem nodup_execOps_run (h : Legal cs) (hids : (asyncIds cs).Nodup)
    (hg : run threadId cwd cs = .ok g) : (g.trace.execOps.map (·.id)).Nodup := by
  obtain ⟨g₁, hg₁, hr⟩ := refines_run threadId cwd h
  cases hg.symm.trans hg₁
  exact hr.execOps ▸ ids_nodup hids

/-- The submission behind a charge. -/
theorem submitted_of_charge (h : Legal cs) (hp : Prompt cs) (hids : (asyncIds cs).Nodup)
    (hg : run threadId cwd cs = .ok g) {c : String × ExecOp} (hc : c ∈ charges g.trace) :
    c.2 ∈ g.trace.execOps ∧ ∃ s ∈ submitOps cs, s.2.opId = c.2.id ∧ c.1 = submitter s := by
  rw [charges_run h hp hg] at hc
  obtain ⟨s, hs, hc⟩ := List.mem_filterMap.mp hc
  obtain ⟨op, hop, rfl⟩ := Option.map_eq_some_iff.mp hc
  obtain ⟨hmem, hid⟩ := (getValue_opTable (nodup_execOps_run h hids hg)).mp hop
  exact ⟨hmem, s, hs, hid.symm, rfl⟩

/-- Every `ExecOp` is charged once. -/
theorem charges_perm (h : Legal cs) (hp : Prompt cs) (hids : (asyncIds cs).Nodup)
    (hg : run threadId cwd cs = .ok g) : ((charges g.trace).map Prod.snd).Perm g.trace.execOps := by
  obtain ⟨g₁, hg₁, hr⟩ := refines_run threadId cwd h
  cases hg.symm.trans hg₁
  have hnodup := nodup_execOps_run h hids hg
  have hkeys : ∀ e ∈ g.trace.execOps, e.id ∈ (submitOps cs).map (·.2.opId) := by
    intro e he
    obtain ⟨request, hsub⟩ := execOps_submitted (hr.execOps ▸ he)
    exact submitOps_ids cs ▸ List.mem_map_of_mem (f := Prod.snd) hsub
  have hsubmitted : ((submitOps cs).map (·.2.opId)).Nodup := submitOps_ids cs ▸ (freshIds hids).nodup
  have hperm := perm_of_lookup hsubmitted hnodup (fun _ _ => getValue_opTable hnodup) hkeys
  rw [charges_run h hp hg, List.map_filterMap]
  rw [List.filterMap_map] at hperm
  refine (List.Perm.of_eq (List.filterMap_congr fun s _ => ?_)).trans hperm
  cases h : g.trace.opTable.getValue s.2.opId <;> simp [h]

end Charges

/-- **Every operation is executed once, for its submitter.** -/
theorem run_charges (threadId : Nat) (cwd : String) {cs : List Callback} (h : Legal cs)
    (hp : Prompt cs) (hids : (asyncIds cs).Nodup) : ∃ g, run threadId cwd cs = .ok g ∧
      g.trace.fsActions.filter executes = (charges g.trace).flatMap chargeActions ∧
      ((charges g.trace).map Prod.snd).Perm g.trace.execOps ∧
      ∀ c ∈ charges g.trace, ∃ s ∈ submitOps cs, s.2.opId = c.2.id ∧ c.1 = submitter s := by
  obtain ⟨g, hg, -⟩ := refines_run threadId cwd h
  exact ⟨g, hg, fsActions_charges _, charges_perm h hp hids hg,
    fun c hc => (submitted_of_charge h hp hids hg hc).2⟩

/-- What is executed of the sample run. -/
theorem run_charges_sampleRun : ∃ g, run 1 "/" sampleRun = .ok g ∧
    g.trace.fsActions.filter executes = (charges g.trace).flatMap chargeActions ∧
    ((charges g.trace).map Prod.snd).Perm g.trace.execOps ∧
    ∀ c ∈ charges g.trace, ∃ s ∈ submitOps sampleRun, s.2.opId = c.2.id ∧ c.1 = submitter s :=
  run_charges 1 "/" legal_sampleRun prompt_sampleRun (by decide +kernel)

end NodeGenerator

end Fsracer

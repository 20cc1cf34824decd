/-
  File:      Fsracer/DumpCsv.lean
  Subject:   THE CSV DUMP OF THE EFFECT TABLE (`DumpCSV` of lib/FSAnalyzer.cpp) and what a reader
             makes of it.

  A line holds a path, an event and an effect. A path may have commas, but an event and an effect
  have none, so that a line can be read from its end; and no path has a new line in it, whatever
  the operations make of the paths of the trace (`oneLine_table`).
  **`dumpCSV_decodes`** -- the dump of the accesses of an accepted trace decodes to them.
-/
import Mathlib
import Fsracer.DumpJson
import Fsracer.Naming
import Fsracer.Provenance
import Fsracer.Lib.Fields

namespace Fsracer

/-! ## 1. Paths on one line -/

namespace Path

/-- A path without a new line. -/
def OneLine (p : Path) : Prop := '\n' ∉ p.native.toList

theorem mem_names {c : Char} (hc : c ≠ '/') (cur cs : List Char) :
    (∃ n ∈ names cur cs, c ∈ n.toList) ↔ c ∈ cur ∨ c ∈ cs := by
  induction cs generalizing cur with
  | nil =>
      unfold names
      by_cases h : cur = []
      · simp [h]
      · simp [h]
  | cons d cs ih =>
      unfold names
      by_cases hd : d = '/'
      · by_cases h : cur = []
        · simp [hd, h, ih, hc]
        · simp [hd, h, ih, hc]
      · simp [hd, ih, or_assoc, or_left_comm]

theorem oneLine_iff_of_noRootName {p : Path} (hroot : p.hasRootName = false) :
    p.OneLine ↔ ∀ n ∈ p.components, '\n' ∉ n.toList := by
  have hnames := mem_names (c := '\n') (by decide) [] p.native.toList
  rw [components_of_noRootName hroot]
  unfold OneLine
  by_cases hnil : p.native.toList = []
  · simp [hnil]
  · rw [if_neg hnil]
    by_cases hall : p.native.toList.all (· = '/') = true
    · rw [if_pos hall]
      simp
    · rw [if_neg hall]
      rw [List.mem_nil_iff, false_or] at hnames
      rw [← hnames]
      constructor
      · intro h n hn
        rcases List.mem_append.mp hn with hn | hn
        · rcases List.mem_append.mp hn with hn | hn
          · split at hn
            · rw [List.mem_singleton.mp hn]
              decide
            · cases hn
          · exact fun hc => h ⟨n, hn, hc⟩
        · split at hn
          · rw [List.mem_singleton.mp hn]
            decide
          · cases hn
      · intro h hc
        obtain ⟨n, hn, hc⟩ := hc
        exact h n (List.mem_append_left _ (List.mem_append_right _ hn)) hc

theorem oneLine_iff_of_hasRootName {p : Path} (hroot : p.hasRootName = true) :
    p.OneLine ↔ ∀ n ∈ p.components, '\n' ∉ n.toList := by
  have hnames := mem_names (c := '\n') (by decide) [] p.afterRootName
  rw [List.mem_nil_iff, false_or] at hnames
  obtain ⟨cs, -, hname, hnative, -⟩ := rootName_toList hroot
  have hsplit : p.OneLine ↔ '\n' ∉ p.rootName.toList ∧ '\n' ∉ p.afterRootName := by
    unfold OneLine
    rw [hnative, hname]
    simp [not_or]
  rw [hsplit, ← hnames]
  unfold components
  dsimp only
  rw [if_pos hroot, List.forall_mem_cons]
  refine and_congr Iff.rfl ?_
  by_cases hnil : p.afterRootName = []
  · simp [hnil, names]
  · rw [if_neg hnil, List.forall_mem_cons, List.forall_mem_append]
    constructor
    · intro h
      refine ⟨by decide, fun n hn hc => h ⟨n, hn, hc⟩, fun n hn => ?_⟩
      split at hn
      · rw [List.mem_singleton.mp hn]
        decide
      · cases hn
    · intro h hc
      obtain ⟨n, hn, hc⟩ := hc
      exact h.2.1 n hn hc

/-- The new line is in a component, if it is there. -/
theorem oneLine_iff {p : Path} : p.OneLine ↔ ∀ n ∈ p.components, '\n' ∉ n.toList := by
  cases hroot : p.hasRootName with
  | true => exact oneLine_iff_of_hasRootName hroot
  | false => exact oneLine_iff_of_noRootName hroot

theorem OneLine.congr {p q : Path} (hp : p.OneLine) (h : cmp p q = .eq) : q.OneLine := by
  rw [oneLine_iff] at hp ⊢
  rw [← cmp_eq_iff.mp h]
  exact hp

theorem OneLine.append {p q : Path} (hp : p.OneLine) (hq : q.OneLine) : (p.append q).OneLine := by
  unfold OneLine at hp hq ⊢
  unfold Path.append
  split <;> simp [hp, hq]

theorem OneLine.parentPath {p : Path} (hp : p.OneLine) : p.parentPath.OneLine := by
  have hfold : ∀ (ns : List String) (ret : Path), (∀ n ∈ ns, '\n' ∉ n.toList) → ret.OneLine →
      (ns.foldl (fun ret c => ret.append ⟨c⟩) ret).OneLine := by
    intro ns
    induction ns with
    | nil => exact fun _ _ h => h
    | cons n ns ih =>
        intro ret hns hret
        have hn : OneLine ⟨n⟩ := hns n List.mem_cons_self
        exact ih _ (fun m hm => hns m (List.mem_cons_of_mem n hm)) (hret.append hn)
  have hempty : empty.OneLine := by simp [OneLine, empty]
  unfold Path.parentPath
  split
  · exact hempty
  · exact hfold _ _ (fun n hn => oneLine_iff.mp hp n (List.mem_of_mem_dropLast hn)) hempty

end Path

/-! ## 2. The tables -/

namespace InodeTable

/-- Every path of an inode is on one line. -/
def OneLine (t : InodeTable) : Prop := ∀ i, ∀ p ∈ t.toPaths i, p.OneLine

variable {t t' : InodeTable} {a i : Nat} {n : String} {p : Path}

theorem OneLine.addEntryWith (h : t.OneLine) (hp : p.OneLine) :
    (t.addEntryWith a n p i).OneLine := by
  intro j q hq
  rcases mem_toPaths_addEntryWith.mp hq with ⟨-, hc⟩ | hq
  · exact hp.congr hc
  · exact h j q hq

theorem OneLine.addEntry (h : t.OneLine) (hp : p.OneLine) : (t.addEntry a n p).OneLine :=
  OneLine.addEntryWith (a := a) (n := n) h hp

theorem OneLine.openInode (h : t.OneLine) : (t.openInode a n).OneLine := by
  unfold InodeTable.openInode
  dsimp only
  split <;> exact h

theorem OneLine.removeEntry (h : t.OneLine) (hr : t.removeEntry a n = some t') : t'.OneLine := by
  rcases removeEntry_cases hr with ⟨rfl, -⟩ | ⟨c, -, rfl⟩ | ⟨pathP, j, -, -, -, rfl⟩
  · exact h
  · exact h
  · exact fun k q hq => h k q (mem_toPaths_dropEntry.mp hq).1

theorem OneLine.closeInode (h : t.OneLine) (hc : t.closeInode a n = some t') : t'.OneLine := by
  rcases closeInode_cases hc with ⟨rfl, -⟩ | ⟨-, rfl⟩ | ⟨-, hr⟩ | ⟨ty, c, -, rfl⟩
  · exact h
  · exact h
  · have hdrop : (t.dropOpen a n).OneLine := h
    exact hdrop.removeEntry hr
  · exact h

theorem OneLine.toInodeLoop (h : t.OneLine) (hp : p.OneLine) {k : Nat}
    (hi : t.toInodeLoop k p = some (i, t')) : t'.OneLine := by
  induction k generalizing p i t' with
  | zero => cases hi
  | succ k ih =>
      unfold InodeTable.toInodeLoop at hi
      split at hi
      · cases hi
        exact h
      · split at hi
        · cases hi
        · rename_i inodeP t₁ hparent
          have h₁ : t₁.OneLine := ih hp.parentPath hparent
          split at hi
          · cases hi
            exact h₁
          · cases hi
            exact h₁.addEntry hp

theorem OneLine.toInode (h : t.OneLine) (hp : p.OneLine) (hi : t.toInode p = some (i, t')) :
    t'.OneLine :=
  h.toInodeLoop hp hi

theorem OneLine.toPath (h : t.OneLine) (hp : t.toPath i = some p) : p.OneLine :=
  h i p (Std.TreeSet.mem_of_mem_toList (mem_toList_of_toPath hp))

theorem oneLine_init : InodeTable.init.OneLine := by
  have hempty : OneLine ⟨∅, ∅, ∅, 1⟩ := by
    intro j q hq
    simp [toPaths] at hq
  exact hempty.addEntry (by simp [Path.OneLine])

end InodeTable

/-- Every path of the tables is on one line. -/
structure FileTables.OneLine (f : FileTables) : Prop where
  inodes : f.inodes.OneLine
  links : ∀ i p, f.links.getValue i = some p → p.OneLine

/-- The paths of an operation are on one line. -/
def Operation.OneLine (op : Operation) : Prop :=
  match op.kind with
  | .delFd _ => True
  | .newFd _ path _ | .hpath _ path _ | .hpathSym _ path _ => Path.OneLine ⟨path⟩
  | .link _ oldPath _ newPath | .rename _ oldPath _ newPath =>
      Path.OneLine ⟨oldPath⟩ ∧ Path.OneLine ⟨newPath⟩
  | .symlink _ path target => Path.OneLine ⟨path⟩ ∧ Path.OneLine ⟨target⟩

namespace FSAnalyzer

section Tables

variable {st st' : FsState} {p : Path}

theorem oneLine_getAbsolutePath (h : st.tables.OneLine) {dirfd : Nat} {path : String}
    (hpath : Path.OneLine ⟨path⟩) (hp : getAbsolutePath st dirfd ⟨path⟩ = some p) : p.OneLine := by
  unfold getAbsolutePath at hp
  split at hp
  · cases hp
    exact hpath
  · split at hp
    · rename_i parentP hparent
      cases hp
      unfold getParentDir at hparent
      dsimp only at hparent
      split at hparent
      · have hparentP : parentP.OneLine := h.inodes.toPath hparent
        exact hparentP.append hpath
      · cases hparent
    · cases hp

theorem oneLine_followed {links : Table Nat Path compare}
    (h : ∀ i p, links.getValue i = some p → p.OneLine) (hp : p.OneLine) (i : Nat) :
    (followed links i p).OneLine := by
  unfold followed
  split
  · rename_i derPath hl
    exact h i derPath hl
  · exact hp

/-- **One operation.** -/
theorem oneLine_outcome (h : st.tables.OneLine) {op : Operation} (hop : op.OneLine)
    {f : FileTables} (ho : Outcome st (.operation op) f) : f.OneLine := by
  have hi : st.inodeTable.OneLine := h.inodes
  unfold Operation.OneLine at hop
  cases ho with
  | idle hq => exact h
  | newFd hk hfd hp ht =>
      rw [hk] at hop
      have hp' := oneLine_getAbsolutePath h hop hp
      exact ⟨((hi.toInode hp'.parentPath ht).addEntry hp').openInode, h.links⟩
  | delFd hk hv ht => exact ⟨hi.closeInode ht, h.links⟩
  | lookup hk heff hp ht =>
      rw [hk] at hop
      exact ⟨hi.toInode (oneLine_getAbsolutePath h hop hp) ht, h.links⟩
  | expunge hk hp ht ht' hr =>
      rw [hk] at hop
      have hp' := oneLine_getAbsolutePath h hop hp
      have hf := oneLine_followed h.links hp'
      exact ⟨((hi.toInode hp' ht).toInode (hf _).parentPath ht').removeEntry hr, h.links⟩
  | expungeSym hk hp ht hr =>
      rw [hk] at hop
      have hp' := oneLine_getAbsolutePath h hop hp
      exact ⟨(hi.toInode hp'.parentPath ht).removeEntry hr, h.links⟩
  | link hk hp hq ht ht' =>
      rw [hk] at hop
      have hp' := oneLine_getAbsolutePath h hop.1 hp
      have hq' := oneLine_getAbsolutePath h hop.2 hq
      exact ⟨((hi.toInode hp' ht).toInode hq'.parentPath ht').addEntryWith hq', h.links⟩
  | renameSame hk hp hq ht ht' hs =>
      rw [hk] at hop
      have hp' := oneLine_getAbsolutePath h hop.1 hp
      have hq' := oneLine_getAbsolutePath h hop.2 hq
      exact ⟨(hi.toInode hp' ht).toInode hq'.parentPath ht', h.links⟩
  | rename hk hp hq ht ht' hs ht'' hr =>
      rw [hk] at hop
      have hp' := oneLine_getAbsolutePath h hop.1 hp
      have hq' := oneLine_getAbsolutePath h hop.2 hq
      have hi' := (hi.toInode hp' ht).toInode hq'.parentPath ht'
      exact ⟨((hi'.addEntryWith hq').toInode hp'.parentPath ht'').removeEntry hr, h.links⟩
  | symlink hk hp ht =>
      rw [hk] at hop
      refine ⟨hi.toInode (oneLine_getAbsolutePath h hop.1 hp) ht, fun i q hq => ?_⟩
      rw [Table.getValue_addEntry] at hq
      split at hq
      · cases hq
        exact hop.2
      · exact h.links i q hq

/-! ## 3. The charges -/

/-- The tables and the operations that are declared are on one line. -/
structure OneLine (st : FsState) : Prop where
  tables : st.tables.OneLine
  declared : ∀ id e, st.opTable.getValue id = some e → ∀ op ∈ e.operations, op.OneLine

/-- What an interpreted part of a trace leaves. -/
def OneLineResult (st : FsState) (log : List Charge) : Prop :=
  OneLine st ∧ ∀ c ∈ log, c.path.OneLine

theorem OneLine.result_nil (h : OneLine st) : OneLineResult st [] :=
  ⟨h, fun _ hc => absurd hc List.not_mem_nil⟩

theorem oneLine_unlinkPath (h : st.tables.OneLine) (hp : p.OneLine) {effect : EffectType}
    (hu : unlinkPath st p effect = .ok st') : st'.tables.OneLine := by
  cases effect with
  | consumed =>
      cases hu
      exact h
  | produced =>
      cases hu
      exact h
  | expunged =>
      obtain ⟨⟨a, st₁⟩, h1, hu⟩ := bind_eq_ok.mp hu
      obtain ⟨u, hi, rfl⟩ := toInode_eq_ok.mp h1
      obtain ⟨t, hr, rfl⟩ := unlinkResource_eq_ok.mp hu
      exact ⟨(h.inodes.toInode hp.parentPath hi).removeEntry hr, h.links⟩

theorem opTable_unlinkPath {effect : EffectType} (h : unlinkPath st p effect = .ok st') :
    st'.opTable = st.opTable := by
  cases effect with
  | consumed => cases h; rfl
  | produced => cases h; rfl
  | expunged =>
      obtain ⟨⟨a, st₁⟩, h1, h⟩ := bind_eq_ok.mp h
      obtain ⟨u, -, rfl⟩ := toInode_eq_ok.mp h1
      obtain ⟨t, -, rfl⟩ := unlinkResource_eq_ok.mp h
      rfl

/-- The table of operations is not written. -/
theorem opTable_interpretOperation {op : Operation} {log : List Charge}
    (h : interpretOperation st op = .ok (st', log)) : st'.opTable = st.opTable := by
  have hquiet : (do let st ← analyzeOperation st op; return (st, [])) =
      (.ok (st', log) : Except Abort (FsState × List Charge)) → st'.opTable = st.opTable := by
    intro hq
    obtain ⟨st₁, h1, h2⟩ := bind_eq_ok.mp hq
    cases pure_eq_ok.mp h2
    exact (outcome_step (a := .operation op) h1).1.opTable
  obtain ⟨kind, failed, name⟩ := op
  cases kind with
  | hpath dirfd path effect =>
      simp only [interpretOperation] at h
      split at h
      · cases h
        rfl
      · obtain ⟨⟨i, st₁⟩, h1, h⟩ := bind_eq_ok.mp h
        obtain ⟨u, -, rfl⟩ := toInode_eq_ok.mp h1
        obtain ⟨hu, rfl⟩ := charge_eq_ok.mp h
        have hops := opTable_unlinkPath hu
        exact hops
  | hpathSym dirfd path effect =>
      simp only [interpretOperation] at h
      split at h
      · cases h
        rfl
      · obtain ⟨hu, rfl⟩ := charge_eq_ok.mp h
        exact opTable_unlinkPath hu
  | _ => exact hquiet h

theorem oneLine_interpretOperation (h : OneLine st) {op : Operation} (hop : op.OneLine)
    {log : List Charge} (hr : interpretOperation st op = .ok (st', log)) :
    OneLineResult st' log := by
  have hdeclared := opTable_interpretOperation hr ▸ h.declared
  have hquiet : (do let st ← analyzeOperation st op; return (st, [])) =
      (.ok (st', log) : Except Abort (FsState × List Charge)) → OneLineResult st' log := by
    intro hq
    obtain ⟨st₁, h1, h2⟩ := bind_eq_ok.mp hq
    cases pure_eq_ok.mp h2
    have ho := (outcome_step (a := .operation op) h1).2
    exact OneLine.result_nil ⟨oneLine_outcome h.tables hop ho, hdeclared⟩
  have hcharge : ∀ st₁ q effect, st₁.tables.OneLine → q.OneLine →
      charge st₁ q effect op.actualOpName = .ok (st', log) → OneLineResult st' log := by
    intro st₁ q effect h₁ hq hc
    obtain ⟨hu, rfl⟩ := charge_eq_ok.mp hc
    refine ⟨⟨oneLine_unlinkPath h₁ hq hu, hdeclared⟩, fun c hc => ?_⟩
    rw [List.mem_singleton.mp hc]
    exact hq
  unfold Operation.OneLine at hop
  unfold interpretOperation at hr
  cases hk : op.kind with
  | hpath dirfd path effect =>
      rw [hk] at hr hop
      dsimp only at hr
      split at hr
      · cases hr
        exact h.result_nil
      · rename_i q hq
        obtain ⟨⟨i, st₁⟩, h1, hr⟩ := bind_eq_ok.mp hr
        obtain ⟨u, hi, rfl⟩ := toInode_eq_ok.mp h1
        have hq' := oneLine_getAbsolutePath h.tables hop hq
        have h₁ : FileTables.OneLine ({ st with inodeTable := u } : FsState).tables :=
          ⟨h.tables.inodes.toInode hq' hi, h.tables.links⟩
        exact hcharge _ _ _ h₁ (oneLine_followed h.tables.links hq' i) hr
  | hpathSym dirfd path effect =>
      rw [hk] at hr hop
      dsimp only at hr
      split at hr
      · cases hr
        exact h.result_nil
      · rename_i q hq
        exact hcharge st q effect h.tables (oneLine_getAbsolutePath h.tables hop hq) hr
  | _ =>
      rw [hk] at hr
      exact hquiet hr

/-- What holds of every step holds of a list of them. -/
theorem oneLine_interpretAll {α : Type} {f : FsState → α → Except Abort (FsState × List Charge)}
    {as : List α}
    (hf : ∀ a ∈ as, ∀ st st' log, OneLine st → f st a = .ok (st', log) → OneLineResult st' log)
    (h : OneLine st) {log : List Charge} (hr : interpretAll f st as = .ok (st', log)) :
    OneLineResult st' log := by
  induction as generalizing st log with
  | nil =>
      cases hr
      exact h.result_nil
  | cons a as ih =>
      obtain ⟨st₁, log₁, log₂, h1, h2, rfl⟩ := interpretAll_cons_eq_ok.mp hr
      obtain ⟨h₁, hlog₁⟩ := hf a List.mem_cons_self st st₁ log₁ h h1
      obtain ⟨h₂, hlog₂⟩ := ih (fun b hb => hf b (List.mem_cons_of_mem a hb)) h₁ h2
      exact ⟨h₂, fun c hc => (List.mem_append.mp hc).elim (hlog₁ c) (hlog₂ c)⟩

theorem oneLine_interpretExpr {b : Block} {e : Expr} (h : OneLine st) {log : List Charge}
    (hr : interpretExpr b st e = .ok (st', log)) : OneLineResult st' log := by
  cases e with
  | submitOp e =>
      have hr : interpretSubmitOp st b e = .ok (st', log) := hr
      unfold interpretSubmitOp at hr
      split at hr
      · cases hr
        exact h.result_nil
      · rename_i execOp he
        have hst : OneLine { st with blockId := submitBlockId b e } := ⟨h.tables, h.declared⟩
        refine oneLine_interpretAll (fun op hop st₁ st₂ log₁ h₁ h2 => ?_) hst hr
        exact oneLine_interpretOperation h₁ (h.declared _ _ he op hop) h2
  | newEvent e =>
      cases hr
      exact OneLine.result_nil ⟨h.tables, h.declared⟩
  | link e =>
      cases hr
      exact h.result_nil
  | trigger e =>
      cases hr
      exact h.result_nil

end Tables

/-- A declared operation is one of the trace. -/
theorem mem_of_opTable {t : Trace} {id : String} {e : ExecOp}
    (h : t.opTable.getValue id = some e) : e ∈ t.execOps := by
  unfold Trace.opTable at h
  generalize t.execOps = es at h ⊢
  induction es using List.reverseRecOn with
  | nil => simp at h
  | append_singleton es e' ih =>
      rw [List.foldl_concat, Table.getValue_addEntry] at h
      split at h
      · cases h
        exact List.mem_append_right es (List.mem_singleton_self e)
      · exact List.mem_append_left [e'] (ih h)

theorem oneLine_of_identifier {text : String} (h : TraceLexer.IsIdentifier text) :
    Path.OneLine ⟨text⟩ := by
  intro hc
  have hchar := h.chars '\n' hc
  simp [TraceLexer.isIdentChar] at hchar

theorem oneLine_of_readable {op : Operation} (h : ReadableArgs op) : op.OneLine := by
  unfold ReadableArgs at h
  unfold Operation.OneLine
  split at h <;> rename_i hk <;> rw [hk]
  · trivial
  · exact oneLine_of_identifier h.2
  · exact oneLine_of_identifier h.2
  · exact ⟨oneLine_of_identifier h.2.1, oneLine_of_identifier h.2.2⟩
  · exact ⟨oneLine_of_identifier h.2.1, oneLine_of_identifier h.2.2⟩
  · exact oneLine_of_identifier h.2.1
  · exact ⟨oneLine_of_identifier h.2.1, oneLine_of_identifier h.2.2⟩

/-- **The charges of a trace that the parser builds** are on paths of one line. -/
theorem oneLine_interpret {t : Trace} (ht : ParsedTrace t) {st : FsState} {log : List Charge}
    (h : interpret t = .ok (st, log)) : ∀ c ∈ log, c.path.OneLine := by
  rw [interpret_eq_walk] at h
  obtain ⟨st₀, h0, h⟩ := bind_eq_ok.mp h
  obtain ⟨i, u, hu, htables, -, hops⟩ := setUp_eq_ok h0
  have hstart : OneLine st₀ := by
    refine ⟨⟨?_, fun j q hq => ?_⟩, fun id e he op hop => ?_⟩
    · rw [htables]
      exact InodeTable.oneLine_init.toInode (oneLine_of_identifier ht.cwd) hu
    · rw [htables] at hq
      simp at hq
    · rw [hops] at he
      exact oneLine_of_readable ((ht.execOps e (mem_of_opTable he)).operations op hop).args
  exact (oneLine_interpretAll (fun w _ _ _ _ h₁ h2 => oneLine_interpretExpr h₁ h2) hstart h).2

/-- What is recorded under a key is a charge of that key. -/
theorem mem_of_recorded {log : List Charge} {k : Path × String} {x : FSAccess}
    (h : recorded log k = some x) :
    ∃ c ∈ log, c.access = x ∧ SameKey (c.path, c.eventId) k := by
  unfold recorded at h
  induction log using List.reverseRecOn with
  | nil => cases h
  | append_singleton log c ih =>
      have hprev : recorded log k = some x →
          ∃ c' ∈ log ++ [c], c'.access = x ∧ SameKey (c'.path, c'.eventId) k := by
        intro hr
        obtain ⟨c', hc', hx⟩ := ih hr
        exact ⟨c', List.mem_append_left [c] hc', hx⟩
      rw [List.filter_append, List.foldl_append] at h
      by_cases hk : SameKey (c.path, c.eventId) k
      · rw [List.filter_singleton, decide_eq_true hk] at h
        rcases eq_of_update h with h | h
        · exact hprev h
        · exact ⟨c, List.mem_append_right log (List.mem_singleton_self c), h, hk⟩
      · rw [List.filter_singleton, decide_eq_false hk] at h
        exact hprev h

/-- **The paths of the effect table** are on one line. -/
theorem oneLine_table {t : Trace} (ht : ParsedTrace t) {st : FsState} (h : analyze t = .ok st) :
    ∀ entry ∈ st.effectTable.toList, entry.1.OneLine := by
  obtain ⟨st₁, log, hi, -, rfl⟩ := analyze_eq_ok_iff.mp h
  intro entry hentry
  have hv : (groupAccesses ∅ (summarise log)).getValue entry.1 = some entry.2 :=
    (Std.TreeMap.mem_toList_iff_getKey?_eq_some_and_getElem?_eq_some.mp hentry).2
  rw [getValue_groupAccesses] at hv
  split at hv
  · cases hv
  · rename_i hne
    obtain ⟨x, hx⟩ := List.exists_mem_of_ne_nil _ hne
    rw [mem_accessesOf (ownEvent_summarise log), getValue_summarise] at hx
    obtain ⟨c, hc, -, hk⟩ := mem_of_recorded hx
    exact (oneLine_interpret ht hi c hc).congr hk.1

end FSAnalyzer

/-! ## 4. The ids of events -/

namespace FSAnalyzer

theorem comma_of_mark_digits (mark : String) {id : String} {ds : List Char}
    (hmark : ',' ∉ mark.toList) (hd : ∀ c ∈ ds, c.isDigit = true)
    (h : id.toList = mark.toList ++ ds) : ',' ∉ id.toList := by
  intro hc
  rw [h] at hc
  rcases List.mem_append.mp hc with hc | hc
  · exact hmark hc
  · exact absurd (hd ',' hc) (by decide)

theorem comma_submitBlockId {b : Block} {submitOp : SubmitOp}
    (h : TraceLexer.IsOpIdText submitOp.opId) : ',' ∉ (submitBlockId b submitOp).toList := by
  have hdigits : ∀ n : Nat, ∀ c ∈ (toString n).toList, c.isDigit = true :=
    fun _ _ hc => isDigit_of_mem_toString hc
  unfold submitBlockId
  cases submitOp.getType with
  | sync =>
      dsimp only
      cases hm : b.isMain with
      | false =>
          rw [getPrettyBlockId_reg hm]
          exact fun hc => absurd (hdigits b.blockId ',' hc) (by decide)
      | true =>
          rw [getPrettyBlockId_main hm]
          exact comma_of_mark_digits "MAIN_" (by decide) (hdigits _)
            String.toList_append
  | async =>
      intro hc
      obtain ⟨ds, -, hd, hid | hid⟩ := h
      · exact comma_of_mark_digits _ (by decide) hd hid (mem_getRightSubstr hc)
      · exact comma_of_mark_digits _ (by decide) hd hid (mem_getRightSubstr hc)

/-- The events of the effect table have no commas. -/
theorem comma_table {t : Trace} (ht : ParsedTrace t) {st : FsState} (h : analyze t = .ok st) :
    ∀ entry ∈ st.effectTable.toList, ∀ x ∈ entry.2, ',' ∉ x.eventId.toList := by
  intro entry hentry x hx
  have haccess : Detector.HasAccess st.effectTable entry.1.native x := ⟨entry.2, hentry, hx⟩
  obtain ⟨before, op, hevent, hshows⟩ := charged_of_access h haccess
  obtain ⟨e, hc, -⟩ := NodeGenerator.charge_of_operation hshows.reached
  rw [hevent] at hc
  obtain ⟨b, hb, hc⟩ := List.mem_flatMap.mp hc
  obtain ⟨submitOp, hs, hc⟩ := List.mem_filterMap.mp hc
  obtain ⟨op, -, heq⟩ := Option.map_eq_some_iff.mp hc
  obtain ⟨expr, hexpr, hsub⟩ := List.mem_filterMap.mp hs
  cases expr with
  | submitOp s =>
      cases hsub
      have hid := ((ht.blocks b hb).exprs _ hexpr).opId _ rfl
      exact (Prod.mk.inj heq).1 ▸ comma_submitBlockId hid
  | _ => cases hsub

end FSAnalyzer

/-! ## 5. Lines -/

namespace FSAnalyzer

/-- `DumpCSV`. -/
def dumpCSV (effectTable : EffectTable) : String :=
  effectTable.toList.foldl (fun os entry =>
    entry.2.foldl (fun os fsAccess =>
      os ++ entry.1.native ++ "," ++ fsAccess.eventId ++ "," ++
        effToString fsAccess.effectType ++ "\n") os) ""

end FSAnalyzer

/-- A row of the dump: a path, an event and an effect. -/
abbrev AccessRow := String × String × String

/-- The accesses of a table, in their order. -/
def accessRows (effectTable : EffectTable) : List AccessRow :=
  effectTable.toList.flatMap fun entry =>
    entry.2.map fun x => (entry.1.native, x.eventId, effToString x.effectType)

/-- The line of a row. -/
def rowLine (row : AccessRow) : List Char :=
  (row.1.toList ++ ',' :: row.2.1.toList) ++ ',' :: row.2.2.toList

/-- A line, read from its end. -/
def decodeLine (line : List Char) : AccessRow :=
  let effect := Fields.cutLast ',' line
  let event := Fields.cutLast ',' effect.1
  (String.ofList event.1, String.ofList event.2, String.ofList effect.2)

/-- The rows of a dump. -/
def decodeCSV (text : String) : List AccessRow := (Fields.lines '\n' text.toList).map decodeLine

/-- The loops write one line for each access. -/
theorem dumpCSV_eq (effectTable : EffectTable) : (FSAnalyzer.dumpCSV effectTable).toList =
    Fields.unlines '\n' ((accessRows effectTable).map rowLine) := by
  have hrow : ∀ (entry : Path × List FSAccess) (xs : List FSAccess) (os : String),
      (xs.foldl (fun os fsAccess => os ++ entry.1.native ++ "," ++ fsAccess.eventId ++ "," ++
        effToString fsAccess.effectType ++ "\n") os).toList = os.toList ++ Fields.unlines '\n'
        ((xs.map fun x => (entry.1.native, x.eventId, effToString x.effectType)).map rowLine) := by
    intro entry xs
    induction xs with
    | nil => simp [Fields.unlines]
    | cons x xs ih =>
        intro os
        rw [List.foldl_cons, ih]
        simp [Fields.unlines, rowLine]
  have hrows : ∀ (entries : List (Path × List FSAccess)) (os : String),
      (entries.foldl (fun os entry => entry.2.foldl (fun os fsAccess =>
        os ++ entry.1.native ++ "," ++ fsAccess.eventId ++ "," ++
          effToString fsAccess.effectType ++ "\n") os) os).toList = os.toList ++ Fields.unlines '\n'
        ((entries.flatMap fun entry => entry.2.map fun x =>
          (entry.1.native, x.eventId, effToString x.effectType)).map rowLine) := by
    intro entries
    induction entries with
    | nil => simp [Fields.unlines]
    | cons entry entries ih =>
        intro os
        rw [List.foldl_cons, ih, hrow]
        simp [Fields.unlines]
  exact (hrows _ _).trans (by simp [accessRows])

theorem decodeLine_rowLine {row : AccessRow} (hevent : ',' ∉ row.2.1.toList)
    (heffect : ',' ∉ row.2.2.toList) : decodeLine (rowLine row) = row := by
  unfold decodeLine rowLine
  rw [Fields.cutLast_append ',' _ heffect]
  dsimp only
  rw [Fields.cutLast_append ',' _ hevent]
  simp only [String.ofList_toList]

/-- **The CSV dump decodes to the accesses**, row by row, for every trace that is accepted and
    can be analysed, also where its paths have commas, quotation marks or blanks in them. -/
theorem dumpCSV_decodes {text : String} {trace : Trace} {st : FsState}
    (hparse : TraceParser.parse text = .ok trace) (hrun : FSAnalyzer.analyze trace = .ok st) :
    decodeCSV (FSAnalyzer.dumpCSV st.effectTable) = accessRows st.effectTable := by
  have ht := TraceParser.parsedTrace_of_parse hparse
  have heffect : ∀ effect, ',' ∉ (effToString effect).toList ∧
      '\n' ∉ (effToString effect).toList := by
    intro effect
    cases effect <;> simp [effToString]
  have hrow : ∀ row ∈ accessRows st.effectTable, ',' ∉ row.2.1.toList ∧
      ',' ∉ row.2.2.toList ∧ '\n' ∉ rowLine row := by
    intro row hrow
    obtain ⟨entry, hentry, hrow⟩ := List.mem_flatMap.mp hrow
    obtain ⟨x, hx, rfl⟩ := List.mem_map.mp hrow
    have hpath := FSAnalyzer.oneLine_table ht hrun entry hentry
    have hcomma := FSAnalyzer.comma_table ht hrun entry hentry x hx
    have hid : '\n' ∉ x.eventId.toList := by
      intro hc
      have hplain := (FSAnalyzer.plainIds_analyze ht hrun entry hentry x hx '\n' hc).2.2
      exact absurd hplain (by decide)
    refine ⟨hcomma, (heffect x.effectType).1, ?_⟩
    simp [rowLine, hid, (heffect x.effectType).2, show '\n' ∉ entry.1.native.toList from hpath]
  unfold decodeCSV
  rw [dumpCSV_eq, Fields.lines_unlines]
  · rw [List.map_map]
    refine (List.map_congr_left fun row hm => ?_).trans (List.map_id _)
    obtain ⟨hevent, heff, -⟩ := hrow row hm
    exact decodeLine_rowLine hevent heff
  · intro l hl
    obtain ⟨row, hm, rfl⟩ := List.mem_map.mp hl
    exact (hrow row hm).2.2

/-- The dump of a table with a path that has a comma and a quotation mark. -/
theorem dumpCSV_decodes_open : ∃ st, FSAnalyzer.analyze (openTrace "/a,\"b") = .ok st ∧
    decodeCSV (FSAnalyzer.dumpCSV st.effectTable) = [("/a,\"b", "MAIN_1", "produced")] := by
  have hparse : TraceParser.parse (openText "/a,\"b") = .ok (openTrace "/a,\"b") := by
    decide +kernel
  obtain ⟨st, hst, hr⟩ : ∃ st, FSAnalyzer.analyze (openTrace "/a,\"b") = .ok st ∧
      st.effectTable.toList = [(⟨"/a,\"b"⟩, [openAccess])] :=
    FSAnalyzer.exists_analyze_eq_ok (by decide +kernel)
  refine ⟨st, hst, (dumpCSV_decodes hparse hst).trans ?_⟩
  unfold accessRows
  rw [hr]
  rfl

end Fsracer

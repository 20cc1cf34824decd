/-
  File:      Fsracer/LinkFollowing.lean
  Subject:   WHERE AN `hpath` IS RECORDED, against the resolution of paths.

  `posixPath` reads the path of an operation as POSIX does: the names between the slashes, however
  many, from the root or from the directory of the descriptor. `linkSpace` is what the links
  recorded so far make of names: "." and ".." are followed, a relative target starts in the
  directory of its link, an absolute one at the root. `AnalyzeHpath` looks at the last name only,
  replaces it once, and takes the target as it was written.

  * `effectPath` -- the path that `AnalyzeHpath` passes to `ProcessPathEffect`;
  * `RecordedUnder` -- it is the path of certain names;
  * **`followsLinks_iff`** -- it is the resolved path if there is nothing to resolve but one link at
    the end, to an absolute target with nothing to resolve (`Straight`). Otherwise it is not, but
    for paths that the code misreads and may still come out right with (`Misread`).
-/
import Mathlib
import Fsracer.ReverseTable
import Fsracer.Lib.LinkResolution

namespace Fsracer

open FSAnalyzer LinkResolution

/-! ## 1. Paths and links as POSIX reads them -/

/-- The names of a path: what stands between the slashes. -/
def posixNames (p : Path) : List String := Path.names [] p.native.toList

/-- A path that starts at the root, with however many slashes. -/
def fromRoot (p : Path) : Bool := p.native.toList.head? = some '/'

/-- **The names of the path of an operation**, from the root: those of the directory of the
    descriptor come first if the path is relative. -/
def posixPath (st : FsState) (dirfd : Nat) (path : String) : Option (List String) :=
  if fromRoot ⟨path⟩ then some (posixNames ⟨path⟩)
  else (getParentDir st dirfd).map fun parentP => posixNames parentP ++ posixNames ⟨path⟩

/-- The target of the link that names lead to in the inode table. -/
def knownLink (st : FsState) (ns : List String) : Option Path :=
  (st.inodeTable.walk ns).bind fun inode => st.symlinkTable.getValue inode

/-- The names of a target, from the root or from the directory of the link. -/
def linkTarget (p : Path) : Target String :=
  if fromRoot p then .fromRoot (posixNames p) else .fromHere (posixNames p)

/-- **The name space of a state**: its links, and the two names that POSIX reserves. -/
def linkSpace (st : FsState) : Space String where
  role n := if n = "." then .here else if n = ".." then .up else .entry
  link ns := (knownLink st ns).map linkTarget

theorem posixNames_append (p q : Path) :
    posixNames (p.append q) = posixNames p ++ posixNames q := by
  have hjoin : ∀ xs ys : List Char, Path.names [] (xs ++ '/' :: ys) =
      Path.names [] xs ++ Path.names [] ys := fun xs ys => Path.names_slash [] xs ys
  have hlast : Path.names [] [] = [] := rfl
  unfold posixNames Path.append
  split
  · show Path.names [] (p.native ++ "/" ++ q.native).toList = _
    rw [String.toList_append, String.toList_append, List.append_assoc]
    exact hjoin _ _
  · rename_i hno
    show Path.names [] (p.native ++ q.native).toList = _
    rw [String.toList_append]
    rcases List.eq_nil_or_concat p.native.toList with hp | ⟨xs, x, hp⟩
    · rw [hp, hlast]
      rfl
    · rcases hq : q.native.toList with _ | ⟨y, ys⟩
      · rw [List.append_nil, hlast, List.append_nil]
      · rw [List.concat_eq_append] at hp
        rw [hp, hq] at hno
        rw [hp]
        by_cases hx : x = '/'
        · subst hx
          rw [List.append_assoc, hjoin xs [], hlast, List.append_nil]
          exact hjoin xs (y :: ys)
        · have hy : y = '/' := by
            by_contra hy
            exact hno ⟨by simp, by simpa using hx, nofun, by simpa using hy⟩
          subst hy
          have hys : Path.names [] ('/' :: ys) = Path.names [] ys := hjoin [] ys
          rw [hys]
          exact hjoin (xs ++ [x]) ys

/-- The names of a rooted path; a slash at the end is read as one more. -/
theorem rooted_posixNames {p : Path} {ns : List String} (h : p.Rooted ns) :
    ns = posixNames p ∨ ns = posixNames p ++ ["."] := by
  have hc : p.components = "/" :: ns := h
  rw [Path.components_of_head h.hasRootName h.head] at hc
  split at hc
  · left
    have hroot : p.native = "/" := (List.cons.inj hc).1
    have hnil : ns = [] := (List.cons.inj hc).2.symm
    unfold posixNames
    rw [hnil, hroot]
    decide
  · have hns := (List.cons.inj hc).2
    unfold posixNames
    split at hns
    · exact .inr hns.symm
    · rw [List.append_nil] at hns
      exact .inl hns.symm

/-- Without a root name the code joins a path as POSIX does. -/
theorem posixPath_eq {st : FsState} {dirfd : Nat} {path : String} {p : Path}
    (hroot : (⟨path⟩ : Path).hasRootName = false)
    (hp : getAbsolutePath st dirfd ⟨path⟩ = some p) :
    posixPath st dirfd path = some (posixNames p) := by
  unfold getAbsolutePath at hp
  rw [Path.isAbsolute_of_noRootName hroot] at hp
  unfold posixPath fromRoot
  split at hp
  · rename_i hhead
    cases hp
    rw [if_pos hhead]
  · rename_i hhead
    rw [if_neg hhead]
    cases hdir : getParentDir st dirfd with
    | none =>
        rw [hdir] at hp
        cases hp
    | some parentP =>
        rw [hdir] at hp
        cases hp
        rw [Option.map_some, posixNames_append]

/-- A target with nothing to resolve is read from the root. -/
theorem linkTarget_rooted {st : FsState} {target : Path} {ts : List String}
    (h : target.Rooted ts) (hp : Plain (linkSpace st) ts) : linkTarget target = .fromRoot ts := by
  have hnames : ts = posixNames target := by
    rcases rooted_posixNames h with hts | hts
    · exact hts
    · rw [hts] at hp
      have hdot := (plain_snoc.mp hp).2.1
      cases hdot
  have hroot : fromRoot target = true := by
    unfold fromRoot
    rw [h.head]
    rfl
  unfold linkTarget
  rw [if_pos hroot, ← hnames]

/-! ## 2. The path of an `hpath` -/

/-- The path that `AnalyzeHpath` passes to `ProcessPathEffect`. -/
def effectPath (st : FsState) (dirfd : Nat) (path : String) : Option Path :=
  match getAbsolutePath st dirfd ⟨path⟩ with
  | none => none
  | some p => (st.inodeTable.toInode p).map fun r => followed st.symlinkTable r.1 p

/-- A path that is passed on was made absolute and looked up. -/
theorem effectPath_eq_some {st : FsState} {dirfd : Nat} {path : String} {q : Path} :
    effectPath st dirfd path = some q ↔ ∃ p i t, getAbsolutePath st dirfd ⟨path⟩ = some p ∧
      st.inodeTable.toInode p = some (i, t) ∧ followed st.symlinkTable i p = q := by
  unfold effectPath
  cases getAbsolutePath st dirfd ⟨path⟩ with
  | none => simp
  | some p => simp [Option.map_eq_some_iff]

/-- `AnalyzeHpath` processes `effectPath`, and nothing else. -/
theorem analyzeHpath_of_effectPath {st : FsState} {dirfd : Nat} {path : String} {q : Path}
    (hq : effectPath st dirfd path = some q) : ∃ t, ∀ effect name,
      analyzeHpath st dirfd path effect name =
        processPathEffect { st with inodeTable := t } q effect name := by
  obtain ⟨p, i, t, hp, hr, rfl⟩ := effectPath_eq_some.mp hq
  refine ⟨t, fun effect name => ?_⟩
  unfold analyzeHpath
  rw [hp]
  dsimp only
  rw [toInode_eq_ok.mpr ⟨t, hr, rfl⟩]
  rfl

/-- **The `hpath` is recorded under the names `rs`.** -/
def RecordedUnder (st : FsState) (dirfd : Nat) (path : String) (rs : List String) : Prop :=
  ∃ q, effectPath st dirfd path = some q ∧ q.Rooted rs

/-! ## 3. When it is resolved -/

/-- **There is nothing to resolve but one link**, at the end of the path. The code reads the names
    `ns` of POSIX, and there is no ".", no ".." and no link before the last of them; if that is a
    link, then its target is absolute and has nothing to resolve at all. -/
structure Straight (st : FsState) (dirfd : Nat) (path : String) (ns : List String) : Prop where
  read : ∃ p, getAbsolutePath st dirfd ⟨path⟩ = some p ∧ p.Rooted ns
  direct : Direct (linkSpace st) ns
  target : ∀ target, knownLink st ns = some target →
    ∃ ts, target.Rooted ts ∧ Plain (linkSpace st) ts ∧ (ns = [] → ts = [])

/-- The code misreads the path and may come to the right file still: two slashes in front are put
    behind a directory; or the path ends in a link for the code, which has not resolved what comes
    before it. -/
def Misread (st : FsState) (dirfd : Nat) (path : String) (ns : List String) : Prop :=
  (⟨path⟩ : Path).hasRootName = true ∨
    ∃ p cs, getAbsolutePath st dirfd ⟨path⟩ = some p ∧ p.Rooted cs ∧ (knownLink st cs).isSome ∧
      ¬ (cs = ns ∧ Direct (linkSpace st) ns)

section Following

variable {st : FsState} {dirfd : Nat} {path : String} {ns rs cs : List String} {p : Path}

/-- `AnalyzeHpath` passes the target of a known link, or the path itself. -/
theorem effectPath_eq (hw : st.tables.WellFormed)
    (hp : getAbsolutePath st dirfd ⟨path⟩ = some p) (hr : p.Rooted cs) :
    effectPath st dirfd path = some ((knownLink st cs).getD p) := by
  have hwi : st.inodeTable.WellFormed := hw.inodes
  obtain ⟨i, t, ht, hl⟩ := InodeTable.toInode_rooted hwi hr
  have hfollow : followed st.symlinkTable i p = (knownLink st cs).getD p := by
    rw [followed_eq hw hr hl]
    unfold dereferenced knownLink
    rw [InodeTable.resolve_rooted hr]
    cases st.inodeTable.walk cs with
    | none => rfl
    | some j =>
        show followed st.symlinkTable j p = (st.symlinkTable.getValue j).getD p
        unfold followed
        cases st.symlinkTable.getValue j <;> rfl
  exact effectPath_eq_some.mpr ⟨p, i, t, hp, ht, hfollow⟩

/-- A path that is passed on was looked up, so it is rooted. -/
theorem rooted_of_effectPath (hw : st.tables.WellFormed) {q : Path}
    (hq : effectPath st dirfd path = some q) :
    ∃ p cs, getAbsolutePath st dirfd ⟨path⟩ = some p ∧ p.Rooted cs := by
  obtain ⟨p, i, t, hp, ht, -⟩ := effectPath_eq_some.mp hq
  obtain ⟨cs, hcs, -⟩ := InodeTable.toInode_spec hw.inodes ht
  exact ⟨p, cs, hp, hcs⟩

/-- A straight path is recorded under what it resolves to. -/
theorem Straight.recordedUnder (hw : st.tables.WellFormed) (h : Straight st dirfd path ns)
    (hres : Resolves (linkSpace st) [] ns rs) : RecordedUnder st dirfd path rs := by
  obtain ⟨p, hp, hr⟩ := h.read
  unfold RecordedUnder
  rw [effectPath_eq hw hp hr]
  cases hl : knownLink st ns with
  | none =>
      have hplain : Plain (linkSpace st) ns := by
        refine h.direct.plain ?_
        show (knownLink st ns).map linkTarget = none
        rw [hl]
        rfl
      refine ⟨p, rfl, ?_⟩
      rw [← hplain.resolves.unique hres]
      exact hr
  | some target =>
      obtain ⟨ts, ht, hplain, hroot⟩ := h.target target hl
      refine ⟨target, rfl, ?_⟩
      have hts : ts = rs := by
        by_cases hnil : ns = []
        · rw [hroot hnil]
          rw [hnil] at hres
          exact (Resolves.done []).unique hres
        · refine (h.direct.resolves_link hnil ?_ hplain).unique hres
          show (knownLink st ns).map linkTarget = _
          rw [hl, Option.map_some, linkTarget_rooted ht hplain]
      rw [← hts]
      exact ht

/-- A path that is recorded under what it resolves to is straight, or misread. -/
theorem straight_or_misread (hw : st.tables.WellFormed) (hns : posixPath st dirfd path = some ns)
    (hres : Resolves (linkSpace st) [] ns rs) (h : RecordedUnder st dirfd path rs) :
    Straight st dirfd path ns ∨ Misread st dirfd path ns := by
  have hplain : Plain (linkSpace st) rs := hres.plain plain_nil
  obtain ⟨q, hq, hqr⟩ := h
  cases hroot : (⟨path⟩ : Path).hasRootName with
  | true => exact .inr (.inl hroot)
  | false =>
      obtain ⟨p, cs, hp, hcs⟩ := rooted_of_effectPath hw hq
      have hnames : posixNames p = ns := Option.some.inj ((posixPath_eq hroot hp).symm.trans hns)
      rw [effectPath_eq hw hp hcs] at hq
      cases hl : knownLink st cs with
      | none =>
          rw [hl] at hq
          cases hq
          have hsame : cs = ns := by
            rcases rooted_posixNames hcs with he | he
            · rw [he, hnames]
            · -- a slash at the end is an entry "." for the code, and nothing to POSIX
              rw [he] at hcs
              rw [← hcs.inj hqr] at hplain
              cases (plain_snoc.mp hplain).2.1
          subst hsame
          rw [← hcs.inj hqr] at hplain
          refine .inl ⟨⟨_, hp, hcs⟩, hplain.direct, fun target htarget => ?_⟩
          cases hl.symm.trans htarget
      | some target =>
          rw [hl] at hq
          cases hq
          by_cases hread : cs = ns ∧ Direct (linkSpace st) ns
          · obtain ⟨rfl, hdirect⟩ := hread
            refine .inl ⟨⟨p, hp, hcs⟩, hdirect, fun target' htarget => ?_⟩
            cases hl.symm.trans htarget
            refine ⟨rs, hqr, hplain, fun hnil => ?_⟩
            rw [hnil] at hres
            exact hres.unique (.done [])
          · exact .inr (.inr ⟨p, cs, hp, hcs, by rw [hl]; rfl, hread⟩)

end Following

/-- **An `hpath` is recorded under the resolved path if there is nothing to resolve but one link**
    at its end, and two of them that resolve to one file are processed under one key. A path that
    is recorded there is such a path, or is misread. -/
theorem followsLinks_iff {st : FsState} (hst : Reached st) {dirfd : Nat} {path : String}
    {ns rs : List String} (hns : posixPath st dirfd path = some ns)
    (hres : Resolves (linkSpace st) [] ns rs) :
    (Straight st dirfd path ns → RecordedUnder st dirfd path rs) ∧
    (RecordedUnder st dirfd path rs →
      Straight st dirfd path ns ∨ Misread st dirfd path ns) ∧
    ∀ dirfd' path', RecordedUnder st dirfd path rs → RecordedUnder st dirfd' path' rs →
      ∃ q q' t t', Path.cmp q q' = .eq ∧ ∀ effect name,
        analyzeHpath st dirfd path effect name =
          processPathEffect { st with inodeTable := t } q effect name ∧
        analyzeHpath st dirfd' path' effect name =
          processPathEffect { st with inodeTable := t' } q' effect name := by
  have hw := hst.wellFormed
  refine ⟨fun h => h.recordedUnder hw hres, straight_or_misread hw hns hres, ?_⟩
  intro dirfd' path' h h'
  obtain ⟨q, hq, hr⟩ := h
  obtain ⟨q', hq', hr'⟩ := h'
  obtain ⟨t, ht⟩ := analyzeHpath_of_effectPath hq
  obtain ⟨t', ht'⟩ := analyzeHpath_of_effectPath hq'
  exact ⟨q, q', t, t', Path.cmp_eq_iff.mpr (hr.trans hr'.symm),
    fun effect name => ⟨ht effect name, ht' effect name⟩⟩

/-- A file is read through a link with an absolute target. -/
def absoluteTarget : Trace where
  threadId := 1
  cwd := "/home"
  execOps := [⟨"sync_1", [⟨.symlink atFdcwd "/l" "/t", false, "symlinkat"⟩,
    ⟨.hpath atFdcwd "/l" .consumed, false, "open"⟩]⟩]
  blocks := [⟨1, .MAIN, [.submitOp ⟨"sync_1", none, ["node_open"]⟩]⟩]

theorem followsLinks_iff_absoluteTarget : ∃ st, Reached st ∧
    Straight st atFdcwd "/l" ["l"] ∧ RecordedUnder st atFdcwd "/l" ["t"] := by
  have hlinks : ((analyzeTrace .init absoluteTarget).toOption.map fun st =>
      (knownLink st ["l"], knownLink st ["t"])) = some (some ⟨"/t"⟩, none) := by decide +kernel
  obtain ⟨st, hst, hlinks⟩ := Option.map_eq_some_iff.mp hlinks
  obtain ⟨hl, ht⟩ := Prod.mk.inj hlinks
  have hreached := reached_analyzeTrace (toOption_eq_some.mp hst)
  have hplain : Plain (linkSpace st) ["t"] := by
    show Plain (linkSpace st) ([] ++ ["t"])
    refine plain_snoc.mpr ⟨plain_nil, rfl, ?_⟩
    show (knownLink st ["t"]).map linkTarget = none
    rw [ht]
    rfl
  have hdirect : Direct (linkSpace st) ["l"] := by
    intro os n he
    obtain ⟨rfl, hn⟩ := List.append_inj' (show [] ++ ["l"] = os ++ [n] from he) rfl
    cases hn
    exact ⟨plain_nil, rfl⟩
  have hstraight : Straight st atFdcwd "/l" ["l"] := by
    refine ⟨⟨⟨"/l"⟩, rfl, by decide⟩, hdirect, fun target htarget => ?_⟩
    cases hl.symm.trans htarget
    exact ⟨["t"], by decide, hplain, nofun⟩
  have hres : Resolves (linkSpace st) [] ["l"] ["t"] := by
    refine hdirect.resolves_link nofun ?_ hplain
    show (knownLink st ["l"]).map linkTarget = _
    rw [hl]
    decide
  have hns : posixPath st atFdcwd "/l" = some ["l"] := rfl
  exact ⟨st, hreached, hstraight, (followsLinks_iff hreached hns hres).1 hstraight⟩

/-- A file is read through a link with a relative target. -/
def relativeTarget : Trace where
  threadId := 1
  cwd := "/home"
  execOps := [⟨"sync_1", [⟨.symlink atFdcwd "/l" "t", false, "symlinkat"⟩,
    ⟨.hpath atFdcwd "/l" .consumed, false, "open"⟩]⟩]
  blocks := [⟨1, .MAIN, [.submitOp ⟨"sync_1", none, ["node_open"]⟩]⟩]

theorem relativeTarget_links : ((analyzeTrace .init relativeTarget).toOption.map fun st =>
    (knownLink st ["l"], knownLink st ["t"])) = some (some ⟨"t"⟩, none) := by decide +kernel

/-- After a trace that the parser accepts, "/l" is recorded under "t". -/
theorem followsLinks_fails : ¬ ∀ t st, TraceParser.Accepts t → analyzeTrace .init t = .ok st →
    ∀ dirfd path ns rs, posixPath st dirfd path = some ns → Resolves (linkSpace st) [] ns rs →
      RecordedUnder st dirfd path rs := by
  intro h
  have hp : TraceParser.parse (dump relativeTarget) = .ok relativeTarget := by decide +kernel
  obtain ⟨st, hst, hlinks⟩ := Option.map_eq_some_iff.mp relativeTarget_links
  obtain ⟨hl, ht⟩ := Prod.mk.inj hlinks
  have hst := toOption_eq_some.mp hst
  have habs : getAbsolutePath st atFdcwd ⟨"/l"⟩ = some ⟨"/l"⟩ := rfl
  have hrooted : Path.Rooted ⟨"/l"⟩ ["l"] := by decide
  have hlink : (linkSpace st).link ([] ++ ["l"]) = some (.fromHere ["t"]) := by
    show (knownLink st ["l"]).map linkTarget = _
    rw [hl]
    decide
  have hres : Resolves (linkSpace st) [] ["l"] ["t"] := by
    refine .fromHere rfl hlink (.entry rfl ?_ (.done _))
    show (knownLink st ["t"]).map linkTarget = none
    rw [ht]
    rfl
  obtain ⟨q, hq, hqr⟩ := h _ st ⟨_, hp⟩ hst atFdcwd "/l" ["l"] ["t"] rfl hres
  rw [effectPath_eq (reached_analyzeTrace hst).wellFormed habs hrooted, hl] at hq
  cases hq
  revert hqr
  decide

end Fsracer

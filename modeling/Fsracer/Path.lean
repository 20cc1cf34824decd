/-
  File:      Fsracer/Path.lean
  Subject:   PATHS (std::experimental::filesystem::path of libstdc++, POSIX): components,
             `parent_path`, `filename`, `operator/` and the order of paths as map keys.

  A path is its native string. Everything else is computed from its components: a root name, the
  root directory "/", the names between slashes, and "." for a slash at the end. Two slashes and
  no third one begin a root name: "//a/b" has the components "//a", "/" and "b", and "//a" and
  "//" are root names without a root directory, so they are not absolute. Three slashes are the
  root directory again. Paths are compared by their components, so "/a/b" and "/a//b" are one
  key; the key that is stored is the first one that was inserted.
-/
import Mathlib

namespace Fsracer

/-- `fs::path`. -/
structure Path where
  native : String
  deriving DecidableEq, Repr

namespace Path

/-- The path of the default constructor. -/
def empty : Path := ⟨""⟩

/-- The non-empty names between the slashes. -/
def names : List Char → List Char → List String
  | cur, [] => if cur = [] then [] else [String.ofList cur.reverse]
  | cur, c :: cs =>
      if c = '/' then
        if cur = [] then names [] cs else String.ofList cur.reverse :: names [] cs
      else names (c :: cur) cs

/-- Whether `_M_split_cmpts` finds a root name: two slashes in front, and no third one. -/
def hasRootName (p : Path) : Bool :=
  decide (p.native.toList.take 2 = ['/', '/']) &&
    decide ((p.native.toList.drop 2).head? ≠ some '/')

/-- The root name: the two slashes and what stands before the next one. -/
def rootName (p : Path) : String :=
  String.ofList (p.native.toList.take 2 ++ (p.native.toList.drop 2).takeWhile (· ≠ '/'))

/-- What stands behind the root name, if there is one. -/
def afterRootName (p : Path) : List Char :=
  if p.hasRootName then (p.native.toList.drop 2).dropWhile (· ≠ '/') else p.native.toList

/-- `_M_split_cmpts`: what an iterator over the path visits. A string of slashes is one
    component, unless a root name stands before it. -/
def components (p : Path) : List String :=
  let cs := p.afterRootName
  if p.hasRootName then
    p.rootName :: if cs = [] then [] else "/" :: (names [] cs ++
      if names [] cs ≠ [] ∧ cs.getLast? = some '/' then ["."] else [])
  else if cs = [] then []
  else if cs.all (· = '/') then [p.native]
  else
    (if cs.head? = some '/' then ["/"] else []) ++ names [] cs ++
      (if cs.getLast? = some '/' then ["."] else [])

/-- `is_absolute`: there is a root directory. -/
def isAbsolute (p : Path) : Bool := p.afterRootName.head? = some '/'

/-- `operator/=`: a separator is put between the strings unless one is there. -/
def append (p q : Path) : Path :=
  if p.native.toList ≠ [] ∧ p.native.toList.getLast? ≠ some '/' ∧ q.native.toList ≠ [] ∧
      q.native.toList.head? ≠ some '/' then
    ⟨p.native ++ "/" ++ q.native⟩
  else ⟨p.native ++ q.native⟩

/-- `parent_path`: everything but the last component; empty for a path of one component, the
    empty path included. -/
def parentPath (p : Path) : Path :=
  if p.components.length < 2 then empty
  else p.components.dropLast.foldl (fun ret c => ret.append ⟨c⟩) empty

/-- `filename`: the last component. -/
def filename (p : Path) : Path := ⟨p.components.getLast?.getD ""⟩

/-- `path::compare`. -/
def cmp : Path → Path → Ordering := compareOn components

instance : Std.TransCmp cmp := inferInstanceAs (Std.TransCmp (compareOn components))

theorem cmp_eq_iff {p q : Path} : cmp p q = .eq ↔ p.components = q.components := by
  unfold cmp compareOn
  exact Std.compare_eq_iff_eq

example : (⟨"/usr//lib/"⟩ : Path).components = ["/", "usr", "lib", "."] := by decide
example : (⟨"/usr/lib"⟩ : Path).parentPath = ⟨"/usr"⟩ := by decide
example : (⟨"/usr"⟩ : Path).parentPath = ⟨"/"⟩ := by decide
example : (⟨"lib"⟩ : Path).parentPath = .empty := by decide
example : (⟨"//usr/lib"⟩ : Path).components = ["//usr", "/", "lib"] := by decide
example : (⟨"///usr/lib"⟩ : Path).components = ["/", "usr", "lib"] := by decide
example : (⟨"//usr"⟩ : Path).isAbsolute = false := by decide

/-! ## Root names -/

section RootName

variable {p : Path}

theorem hasRootName_iff : p.hasRootName = true ↔
    ∃ ds, p.native.toList = '/' :: '/' :: ds ∧ ds.head? ≠ some '/' := by
  unfold hasRootName
  rw [Bool.and_eq_true, decide_eq_true_iff, decide_eq_true_iff]
  constructor
  · intro h
    refine ⟨p.native.toList.drop 2, ?_, h.2⟩
    rw [← List.take_append_drop 2 p.native.toList, h.1]
    simp
  · intro h
    obtain ⟨ds, hds, hhead⟩ := h
    rw [hds]
    exact ⟨rfl, hhead⟩

/-- A path with a root name begins with a slash. -/
theorem head_of_hasRootName (h : p.hasRootName = true) : p.native.toList.head? = some '/' := by
  obtain ⟨ds, hds, -⟩ := hasRootName_iff.mp h
  rw [hds]
  rfl

/-- One slash, or three, is no root name. -/
theorem hasRootName_of_second {c : Char} {cs : List Char} (hc : c ≠ '/')
    (h : p.native.toList = '/' :: c :: cs) : p.hasRootName = false := by
  rw [← Bool.not_eq_true, hasRootName_iff]
  intro hr
  obtain ⟨ds, hds, -⟩ := hr
  rw [h] at hds
  exact hc (List.cons.inj (List.cons.inj hds).2).1

theorem hasRootName_of_head (h : p.native.toList.head? ≠ some '/') : p.hasRootName = false := by
  rw [← Bool.not_eq_true]
  exact fun hr => h (head_of_hasRootName hr)

/-- Nothing that is written behind more than one slash makes a root name of it. -/
theorem hasRootName_of_prefix {q : Path} {ds : List Char} (hroot : p.hasRootName = false)
    (hne : p.native ≠ "/") (hhead : p.native.toList.head? = some '/')
    (h : q.native.toList = p.native.toList ++ ds) : q.hasRootName = false := by
  rw [← Bool.not_eq_true]
  intro hq
  obtain ⟨es, hes, hno⟩ := hasRootName_iff.mp hq
  rw [h] at hes
  rcases hp : p.native.toList with _ | ⟨c, _ | ⟨c', cs⟩⟩
  · rw [hp] at hhead
    cases hhead
  · rw [hp] at hhead
    cases hhead
    exact hne (String.toList_inj.mp (by rw [hp]; rfl))
  · rw [hp] at hes
    have htail : cs ++ ds = es := (List.cons.inj (List.cons.inj hes).2).2
    obtain rfl : c = '/' := (List.cons.inj hes).1
    obtain rfl : c' = '/' := (List.cons.inj (List.cons.inj hes).2).1
    -- a third slash of `p` is one of `q`
    have hthird : ¬ cs.head? ≠ some '/' := fun hc =>
      absurd (hasRootName_iff.mpr ⟨cs, hp, hc⟩) (by rw [hroot]; exact Bool.false_ne_true)
    rw [← htail, List.head?_append, not_not.mp hthird] at hno
    exact hno rfl

/-- The components of a path without a root name. -/
theorem components_of_noRootName (h : p.hasRootName = false) : p.components =
    if p.native.toList = [] then []
    else if p.native.toList.all (· = '/') then [p.native]
    else (if p.native.toList.head? = some '/' then ["/"] else []) ++ names [] p.native.toList ++
      (if p.native.toList.getLast? = some '/' then ["."] else []) := by
  unfold components afterRootName
  simp only [h, Bool.false_eq_true, if_false]

theorem isAbsolute_of_noRootName (h : p.hasRootName = false) :
    p.isAbsolute = decide (p.native.toList.head? = some '/') := by
  unfold isAbsolute afterRootName
  rw [if_neg (by rw [h]; exact Bool.false_ne_true)]

/-- The components of a path with a root name. -/
theorem components_of_hasRootName (h : p.hasRootName = true) :
    ∃ cs, p.components = p.rootName :: cs := by
  unfold components
  dsimp only
  rw [if_pos h]
  exact ⟨_, rfl⟩

/-- A root name holds two slashes, and a name if anything stands behind it. -/
theorem rootName_toList (h : p.hasRootName = true) : ∃ cs, '/' ∉ cs ∧
    p.rootName.toList = '/' :: '/' :: cs ∧
    p.native.toList = '/' :: '/' :: (cs ++ p.afterRootName) ∧
    (cs = [] → p.afterRootName = []) := by
  obtain ⟨ds, hds, hhead⟩ := hasRootName_iff.mp h
  refine ⟨ds.takeWhile (· ≠ '/'), fun hm => ?_, ?_, ?_, fun hnil => ?_⟩
  · have := List.mem_takeWhile_imp hm
    simp at this
  · unfold rootName
    rw [String.toList_ofList, hds]
    rfl
  · unfold afterRootName
    rw [if_pos h, hds]
    show _ = '/' :: '/' :: (ds.takeWhile (· ≠ '/') ++ ds.dropWhile (· ≠ '/'))
    rw [List.takeWhile_append_dropWhile]
  · unfold afterRootName
    rw [if_pos h, hds]
    cases ds with
    | nil => rfl
    | cons d ds =>
        have hd : d ≠ '/' := fun he => hhead (by rw [he]; rfl)
        simp [hd] at hnil

theorem rootName_ne (h : p.hasRootName = true) : p.rootName ≠ "/" := by
  intro he
  obtain ⟨cs, -, hcs, -, -⟩ := rootName_toList h
  rw [he] at hcs
  cases hcs

end RootName

/-! ## Names and joined paths -/

/-- A name is not empty and holds no slash. -/
def IsName (n : String) : Prop := n.toList ≠ [] ∧ '/' ∉ n.toList

/-- The characters of the names, each behind a slash. -/
def slashed (ns : List String) : List Char := ns.flatMap fun n => '/' :: n.toList

theorem names_append (cur xs cs : List Char) (hx : '/' ∉ xs) :
    names cur (xs ++ '/' :: cs) =
      (if cur.reverse ++ xs = [] then [] else [String.ofList (cur.reverse ++ xs)]) ++
        names [] cs := by
  induction xs generalizing cur with
  | nil =>
      rw [List.nil_append, names, List.append_nil]
      by_cases hc : cur = []
      · simp [hc]
      · simp [hc]
  | cons x xs ih =>
      have hne : x ≠ '/' := fun h => hx (h ▸ List.mem_cons_self)
      rw [List.cons_append, names, if_neg hne, ih _ fun h => hx (List.mem_cons_of_mem _ h)]
      simp

theorem names_last (cur xs : List Char) (hx : '/' ∉ xs) :
    names cur xs =
      if cur.reverse ++ xs = [] then [] else [String.ofList (cur.reverse ++ xs)] := by
  induction xs generalizing cur with
  | nil =>
      rw [names, List.append_nil]
      by_cases hc : cur = []
      · simp [hc]
      · simp [hc]
  | cons x xs ih =>
      have hne : x ≠ '/' := fun h => hx (h ▸ List.mem_cons_self)
      rw [names, if_neg hne, ih _ fun h => hx (List.mem_cons_of_mem _ h)]
      simp

/-- The names on both sides of a slash. -/
theorem names_slash (cur cs ds : List Char) :
    names cur (cs ++ '/' :: ds) = names cur cs ++ names [] ds := by
  induction cs generalizing cur with
  | nil =>
      have hslash : names cur ('/' :: ds) =
          if cur = [] then names [] ds else String.ofList cur.reverse :: names [] ds := by
        rw [names, if_pos rfl]
      rw [List.nil_append, hslash, names]
      split
      · rfl
      · rfl
  | cons c cs ih =>
      rw [List.cons_append, names, names]
      split
      · split
        · exact ih []
        · rw [ih [], List.cons_append]
      · exact ih (c :: cur)

/-- The names between slashes are read back. -/
theorem names_slashed {n : String} {ns : List String} (hn : IsName n) (hns : ∀ m ∈ ns, IsName m) :
    names [] (n.toList ++ slashed ns) = n :: ns := by
  induction ns generalizing n with
  | nil =>
      have h : slashed [] = [] := rfl
      rw [h, List.append_nil, names_last [] _ hn.2]
      simp [hn.1]
  | cons m ns ih =>
      have h : slashed (m :: ns) = '/' :: (m.toList ++ slashed ns) := rfl
      rw [h, names_append [] _ _ hn.2, ih (hns m List.mem_cons_self) fun x hx =>
        hns x (List.mem_cons_of_mem _ hx)]
      simp [hn.1]

/-- What is read between slashes is a name. -/
theorem isName_names {cur cs : List Char} (hcur : '/' ∉ cur) {n : String}
    (hn : n ∈ names cur cs) : IsName n := by
  have hname : ∀ xs : List Char, xs ≠ [] → '/' ∉ xs → IsName (String.ofList xs.reverse) := by
    intro xs h1 h2
    refine ⟨?_, ?_⟩ <;> rw [String.toList_ofList]
    · exact mt List.reverse_eq_nil_iff.mp h1
    · rwa [List.mem_reverse]
  induction cs generalizing cur with
  | nil =>
      unfold names at hn
      split at hn
      · cases hn
      · rename_i hc
        rw [List.mem_singleton.mp hn]
        exact hname cur hc hcur
  | cons c cs ih =>
      unfold names at hn
      split at hn
      · split at hn
        · exact ih (by simp) hn
        · rename_i hc
          rcases List.mem_cons.mp hn with rfl | hn
          · exact hname cur hc hcur
          · exact ih (by simp) hn
      · rename_i hc
        refine ih (fun h => ?_) hn
        rcases List.mem_cons.mp h with h | h
        · exact hc h.symm
        · exact hcur h

/-- Without names there are slashes only. -/
theorem all_slash_of_names {cur cs : List Char} (h : names cur cs = []) :
    cur = [] ∧ cs.all (· = '/') = true := by
  induction cs generalizing cur with
  | nil =>
      unfold names at h
      split at h
      · rename_i hc
        exact ⟨hc, rfl⟩
      · cases h
  | cons c cs ih =>
      unfold names at h
      split at h
      · rename_i hc
        split at h
        · rename_i hcur
          exact ⟨hcur, by simp [hc, (ih h).2]⟩
        · cases h
      · exact absurd (ih h).1 (by simp)

theorem getLast?_slashed {n : String} {ns : List String} (hn : IsName n)
    (hns : ∀ m ∈ ns, IsName m) : (n.toList ++ slashed ns).getLast? ≠ some '/' := by
  intro h
  rcases List.eq_nil_or_concat ns with rfl | ⟨ns, m, rfl⟩
  · have h0 : slashed [] = [] := rfl
    rw [h0, List.append_nil] at h
    exact hn.2 (List.mem_of_getLast? h)
  · have hm : IsName m := hns m (by simp)
    have hs : slashed (ns.concat m) = slashed ns ++ '/' :: m.toList := by simp [slashed]
    obtain ⟨c, cs, hc⟩ := List.exists_cons_of_ne_nil hm.1
    rw [hs, hc, ← List.append_assoc, List.getLast?_append_of_ne_nil _ (by simp),
      List.getLast?_cons_cons, ← hc] at h
    exact hm.2 (List.mem_of_getLast? h)

theorem all_slash_false {n : String} {cs : List Char} (hn : IsName n) :
    (n.toList ++ cs).all (· = '/') = false := by
  obtain ⟨c, ds, hc⟩ := List.exists_cons_of_ne_nil hn.1
  have hne : c ≠ '/' := fun h => hn.2 (by rw [hc, h]; exact List.mem_cons_self)
  rw [hc]
  simp [hne]

/-- The components of an absolute path made from names. -/
theorem components_slashed {n : String} {ns : List String} (hn : IsName n)
    (hns : ∀ m ∈ ns, IsName m) :
    (⟨String.ofList (slashed (n :: ns))⟩ : Path).components = "/" :: n :: ns := by
  have hs : slashed (n :: ns) = '/' :: (n.toList ++ slashed ns) := rfl
  have hroot : (⟨String.ofList (slashed (n :: ns))⟩ : Path).hasRootName = false := by
    obtain ⟨c, cs, hc⟩ := List.exists_cons_of_ne_nil hn.1
    have hne : c ≠ '/' := fun h => hn.2 (by rw [hc, h]; exact List.mem_cons_self)
    have hnative : (String.ofList (slashed (n :: ns))).toList = '/' :: c :: (cs ++ slashed ns) := by
      rw [String.toList_ofList, hs, hc, List.cons_append]
    exact hasRootName_of_second hne hnative
  rw [components_of_noRootName hroot]
  simp only [String.toList_ofList, hs]
  rw [if_neg (by simp), if_neg (by simp [all_slash_false hn]), if_pos (by simp)]
  have hlast : ('/' :: (n.toList ++ slashed ns)).getLast? ≠ some '/' := by
    obtain ⟨c, cs, hc⟩ := List.exists_cons_of_ne_nil hn.1
    have h := getLast?_slashed hn hns
    rw [hc, List.cons_append] at h ⊢
    rwa [List.getLast?_cons_cons]
  rw [if_neg hlast, List.append_nil]
  have hnames : names [] ('/' :: (n.toList ++ slashed ns)) =
      names [] (n.toList ++ slashed ns) := by rw [names, if_pos rfl, if_pos rfl]
  rw [hnames, names_slashed hn hns]
  rfl

/-- The components of a relative path made from names. -/
theorem components_relative {n : String} {ns : List String} (hn : IsName n)
    (hns : ∀ m ∈ ns, IsName m) :
    (⟨String.ofList (n.toList ++ slashed ns)⟩ : Path).components = n :: ns := by
  obtain ⟨c, cs, hc⟩ := List.exists_cons_of_ne_nil hn.1
  have hne : c ≠ '/' := fun h => hn.2 (by rw [hc, h]; exact List.mem_cons_self)
  have hhead : (n.toList ++ slashed ns).head? ≠ some '/' := by
    rw [hc]
    simp [hne]
  rw [components_of_noRootName (hasRootName_of_head (by rwa [String.toList_ofList]))]
  simp only [String.toList_ofList]
  rw [if_neg (by simp [hn.1]), if_neg (by simp [all_slash_false hn]), if_neg hhead,
    if_neg (getLast?_slashed hn hns), names_slashed hn hns]
  simp

/-- What is joined stands behind the path. -/
theorem prefix_foldl_append (p : Path) (ns : List String) :
    ∃ cs, (ns.foldl (fun ret c => ret.append ⟨c⟩) p).native.toList = p.native.toList ++ cs := by
  induction ns generalizing p with
  | nil => exact ⟨[], by simp⟩
  | cons n ns ih =>
      obtain ⟨cs, hcs⟩ := ih (p.append ⟨n⟩)
      rw [List.foldl_cons, hcs]
      unfold append
      split
      · exact ⟨"/".toList ++ n.toList ++ cs, by simp⟩
      · exact ⟨n.toList ++ cs, by simp⟩

/-- Names are joined behind a path that does not end in a slash. -/
theorem foldl_append {p : Path} {ns : List String} (hp : p.native.toList ≠ [])
    (hlast : p.native.toList.getLast? ≠ some '/') (hns : ∀ m ∈ ns, IsName m) :
    (ns.foldl (fun ret c => ret.append ⟨c⟩) p).native.toList = p.native.toList ++ slashed ns := by
  induction ns using List.reverseRecOn with
  | nil => simp [slashed]
  | append_singleton ns n ih =>
      have hn : IsName n := hns n (by simp)
      have hns' : ∀ m ∈ ns, IsName m := fun m hm => hns m (by simp [hm])
      have ih := ih hns'
      rw [List.foldl_concat]
      generalize ns.foldl (fun ret c => ret.append ⟨c⟩) p = q at ih ⊢
      have hq : q.native.toList ≠ [] := by
        rw [ih]
        simp [hp]
      have hqlast : q.native.toList.getLast? ≠ some '/' := by
        rw [ih]
        rcases List.eq_nil_or_concat ns with rfl | ⟨ms, m, rfl⟩
        · simpa [slashed] using hlast
        · have hm := hns' m (by simp)
          obtain ⟨c, cs, hc⟩ := List.exists_cons_of_ne_nil hm.1
          have hs : slashed (ms.concat m) = slashed ms ++ '/' :: m.toList := by simp [slashed]
          rw [hs, hc, ← List.append_assoc, List.getLast?_append_of_ne_nil _ (by simp),
            List.getLast?_cons_cons, ← hc]
          exact fun h => hm.2 (List.mem_of_getLast? h)
      have hhead : n.toList.head? ≠ some '/' := fun h => hn.2 (List.mem_of_head? h)
      have ha : (q.append ⟨n⟩).native = q.native ++ "/" ++ n := by
        unfold append
        rw [if_pos ⟨hq, hqlast, hn.1, hhead⟩]
      rw [ha]
      simp [ih, slashed]

/-- The path of names from the root. -/
def ofNames (ns : List String) : Path :=
  ("/" :: ns).foldl (fun ret c => ret.append ⟨c⟩) empty

theorem components_ofNames {ns : List String} (hns : ∀ m ∈ ns, IsName m) :
    (ofNames ns).components = "/" :: ns := by
  cases ns with
  | nil => decide
  | cons n ns =>
      have hn : IsName n := hns n List.mem_cons_self
      have hns : ∀ m ∈ ns, IsName m := fun m hm => hns m (List.mem_cons_of_mem _ hm)
      have hfirst : (empty.append ⟨"/"⟩).append ⟨n⟩ = ⟨"/" ++ n⟩ := by
        have h : empty.append ⟨"/"⟩ = ⟨"/"⟩ := by decide
        rw [h]
        rfl
      have hchars : (ofNames (n :: ns)).native.toList = slashed (n :: ns) := by
        have h : ofNames (n :: ns) = ns.foldl (fun ret c => ret.append ⟨c⟩) ⟨"/" ++ n⟩ := by
          rw [← hfirst]
          rfl
        rw [h, foldl_append (by simp) ?_ hns]
        · simp [slashed]
        · obtain ⟨c, cs, hc⟩ := List.exists_cons_of_ne_nil hn.1
          have hl : ("/" ++ n).toList = '/' :: n.toList := by simp
          rw [hl, hc, List.getLast?_cons_cons, ← hc]
          exact fun h => hn.2 (List.mem_of_getLast? h)
      rw [← components_slashed hn hns, ← hchars]
      simp

/-! ## Rooted and relative paths -/

/-- The components are the root directory and the names `ns`. -/
def Rooted (p : Path) (ns : List String) : Prop := p.components = "/" :: ns

instance (p : Path) (ns : List String) : Decidable (p.Rooted ns) :=
  inferInstanceAs (Decidable (_ = _))

/-- A rooted path with a name, which is below a directory. -/
def Named (p : Path) : Prop := p.components.head? = some "/" ∧ p.components.tail ≠ []

instance (p : Path) : Decidable p.Named := inferInstanceAs (Decidable (_ ∧ _))

theorem named_iff {p : Path} : p.Named ↔ ∃ ns n, p.Rooted (ns ++ [n]) := by
  unfold Named Rooted
  cases hc : p.components with
  | nil => simp
  | cons c cs =>
      constructor
      · intro he
        obtain ⟨hh, ht⟩ := he
        cases Option.some.inj hh
        have ht : cs ≠ [] := ht
        exact ⟨cs.dropLast, cs.getLast ht, by rw [List.dropLast_append_getLast]⟩
      · intro he
        obtain ⟨ns, n, h⟩ := he
        cases h
        exact ⟨rfl, by simp⟩

/-- The components are names. -/
def Relative (p : Path) : Prop := ∀ n ∈ p.components, IsName n

theorem isName_dot : IsName "." := by
  refine ⟨by decide, by decide⟩

theorem not_isName_slash : ¬ IsName "/" := fun h => h.2 (by decide)

/-- What is read between the slashes of a path, and the "." behind the last one, are names. -/
theorem isName_components (p : Path) {n : String} (hn : n ∈ names [] p.native.toList ++
    (if p.native.toList.getLast? = some '/' then ["."] else [])) : IsName n := by
  rcases List.mem_append.mp hn with hn | hn
  · exact isName_names (by simp) hn
  · split at hn
    · rw [List.mem_singleton.mp hn]
      exact isName_dot
    · cases hn

/-- The components of a path that starts with a slash, but not with a root name. -/
theorem components_of_head {p : Path} (hroot : p.hasRootName = false)
    (h : p.native.toList.head? = some '/') :
    p.components = if p.native.toList.all (· = '/') then [p.native] else
      "/" :: (names [] p.native.toList ++
        if p.native.toList.getLast? = some '/' then ["."] else []) := by
  have hnil : p.native.toList ≠ [] := fun he => by rw [he] at h; cases h
  rw [components_of_noRootName hroot]
  simp only [hnil, h, if_true, if_false]
  rfl

/-- A path without a slash in front is relative. -/
theorem relative_of_head {p : Path} (h : p.native.toList.head? ≠ some '/') : p.Relative := by
  intro n hn
  rw [components_of_noRootName (hasRootName_of_head h)] at hn
  by_cases hnil : p.native.toList = []
  · simp [hnil] at hn
  · have hall : ¬ p.native.toList.all (· = '/') = true := by
      intro hall
      obtain ⟨c, cs, hc⟩ := List.exists_cons_of_ne_nil hnil
      rw [hc] at hall h
      have hslash : c = '/' := by simpa using (List.all_eq_true.mp hall) c List.mem_cons_self
      exact h (by rw [hslash]; rfl)
    refine isName_components p ?_
    simpa only [hnil, hall, h, if_false, List.nil_append, Bool.false_eq_true] using hn

/-- A path is rooted or relative, or its first component is a root name or slashes. -/
theorem components_cases (p : Path) :
    (p.native = "/" ∧ p.Rooted []) ∨
    (∃ ns, ns ≠ [] ∧ p.Rooted ns ∧ p.native ≠ "/" ∧ ∀ n ∈ ns, IsName n) ∨
    (p.native ≠ "/" ∧ p.Relative) ∨
    (p.native ≠ "/" ∧ ∃ c cs, p.components = c :: cs ∧ c ≠ "/" ∧
      (p.hasRootName = false → cs = [])) := by
  by_cases hroot : p.native = "/"
  · refine .inl ⟨hroot, ?_⟩
    unfold Rooted
    rw [show p = ⟨"/"⟩ from congrArg Path.mk hroot]
    decide
  · refine .inr ?_
    by_cases hhead : p.native.toList.head? = some '/'
    · cases hname : p.hasRootName with
      | true =>
          obtain ⟨cs, hcs⟩ := components_of_hasRootName hname
          exact .inr (.inr ⟨hroot, _, cs, hcs, rootName_ne hname, fun h => nomatch h⟩)
      | false =>
          have hcomp := components_of_head hname hhead
          by_cases hall : p.native.toList.all (· = '/') = true
          · rw [if_pos hall] at hcomp
            exact .inr (.inr ⟨hroot, p.native, [], hcomp, hroot, fun _ => rfl⟩)
          · rw [if_neg hall] at hcomp
            refine .inl ⟨_, ?_, hcomp, hroot, fun n hn => isName_components p hn⟩
            intro h
            exact hall (all_slash_of_names (List.append_eq_nil_iff.mp h).1).2
    · exact .inr (.inl ⟨hroot, relative_of_head hhead⟩)

section Rooted

variable {p : Path} {ns : List String} {n : String}

theorem Rooted.names (h : p.Rooted ns) : ∀ n ∈ ns, IsName n := by
  unfold Rooted at h
  rcases components_cases p with ⟨_, h'⟩ | ⟨ms, _, h', _, hms⟩ | ⟨_, h'⟩ | ⟨_, c, cs, h', hc, _⟩
  · rw [Rooted, h] at h'
    cases h'
    exact fun n hn => absurd hn List.not_mem_nil
  · rw [Rooted, h] at h'
    cases h'
    exact hms
  · exact absurd ( h' "/" (by rw [h]; exact List.mem_cons_self)) not_isName_slash
  · rw [h] at h'
    exact absurd (List.cons.inj h').1.symm hc

theorem rooted_nil_iff : p.Rooted [] ↔ p.native = "/" := by
  have hroot : (⟨"/"⟩ : Path).Rooted [] := by decide
  refine ⟨fun h => ?_, fun h => (show p = ⟨"/"⟩ from congrArg Path.mk h) ▸ hroot⟩
  rcases components_cases p with ⟨h', _⟩ | ⟨ms, hne, h', _, _⟩ | ⟨_, h'⟩ | ⟨_, c, cs, h', hc, _⟩
  · exact h'
  · rw [Rooted, h] at h'
    exact absurd (List.cons.inj h').2.symm hne
  · exact absurd ( h' "/" (by rw [h]; exact List.mem_cons_self)) not_isName_slash
  · rw [h] at h'
    exact absurd (List.cons.inj h').1.symm hc

theorem rooted_ofNames (hns : ∀ m ∈ ns, IsName m) : (ofNames ns).Rooted ns :=
  components_ofNames hns

/-- `parent_path` drops the last name. -/
theorem Rooted.parentPath (h : p.Rooted (ns ++ [n])) : p.parentPath = ofNames ns := by
  unfold Path.parentPath
  rw [h, if_neg (by simp), ← List.cons_append, List.dropLast_concat]
  rfl

/-- `filename` is the last name. -/
theorem Rooted.filename (h : p.Rooted (ns ++ [n])) : p.filename = ⟨n⟩ := by
  unfold Path.filename
  rw [h, ← List.cons_append, List.getLast?_concat]
  rfl

theorem Rooted.inj {ms : List String} (h : p.Rooted ns) (h' : p.Rooted ms) : ns = ms := by
  rw [Rooted, h] at h'
  exact (List.cons.inj h').2

theorem relative_empty : empty.Relative := by
  have h : empty.components = [] := by decide
  unfold Relative
  rw [h]
  exact fun n hn => absurd hn List.not_mem_nil

theorem Relative.not_rooted (h : p.Relative) : ¬ p.Rooted ns := by
  intro hr
  exact not_isName_slash (h "/" (by rw [hr]; exact List.mem_cons_self))

/-- A rooted path has no root name. -/
theorem Rooted.hasRootName (h : p.Rooted ns) : p.hasRootName = false := by
  cases hname : p.hasRootName with
  | false => rfl
  | true =>
      obtain ⟨cs, hcs⟩ := components_of_hasRootName hname
      rw [Rooted, hcs] at h
      exact absurd (List.cons.inj h).1 (rootName_ne hname)

theorem Rooted.head (h : p.Rooted ns) : p.native.toList.head? = some '/' := by
  by_contra hhead
  exact (relative_of_head hhead).not_rooted h

theorem Rooted.isAbsolute (h : p.Rooted ns) : p.isAbsolute = true := by
  rw [isAbsolute_of_noRootName h.hasRootName, h.head]
  rfl

/-- `operator/` puts a name behind a rooted path, unless that ends in "." for its last slash. -/
theorem Rooted.append (h : p.Rooted ns) (hdot : ns.getLast? ≠ some ".") (hn : IsName n) :
    (p.append ⟨n⟩).Rooted (ns ++ [n]) := by
  have hname : Path.names [] n.toList = [n] := by
    rw [names_last [] _ hn.2]
    simp [hn.1]
  have hhead : n.toList.head? ≠ some '/' := fun hh => hn.2 (List.mem_of_head? hh)
  have hlast : n.toList.getLast? ≠ some '/' := fun hl => hn.2 (List.mem_of_getLast? hl)
  cases ns with
  | nil =>
      have hp : p.append ⟨n⟩ = ⟨"/" ++ n⟩ := by
        unfold Path.append
        rw [rooted_nil_iff.mp h]
        simp
      have hnil : ∀ m ∈ ([] : List String), IsName m := by simp
      have hc := components_slashed hn hnil
      rw [hp]
      have hs : String.ofList (slashed [n]) = "/" ++ n := by
        rw [← String.toList_inj]
        simp [slashed]
      rw [hs] at hc
      exact hc
  | cons m ms =>
      have hhead' := h.head
      have hnil : p.native.toList ≠ [] := fun he => by rw [he] at hhead'; cases hhead'
      have hcomp : p.components = "/" :: m :: ms := h
      rw [components_of_head h.hasRootName hhead'] at hcomp
      have hall : ¬ p.native.toList.all (· = '/') = true := by
        intro hall
        rw [if_pos hall] at hcomp
        exact absurd (List.cons.inj hcomp).2 nofun
      rw [if_neg hall] at hcomp
      have hns := (List.cons.inj hcomp).2
      -- a slash at the end would be read as a last component "."
      have hend : p.native.toList.getLast? ≠ some '/' := by
        intro hend
        rw [if_pos hend] at hns
        rw [← hns, List.getLast?_concat] at hdot
        exact hdot rfl
      rw [if_neg hend, List.append_nil] at hns
      have hp : (p.append ⟨n⟩).native.toList = p.native.toList ++ '/' :: n.toList := by
        unfold Path.append
        rw [if_pos ⟨hnil, hend, hn.1, hhead⟩]
        simp
      have hlast' : (p.native.toList ++ '/' :: n.toList).getLast? ≠ some '/' := by
        obtain ⟨c, cs, hc⟩ := List.exists_cons_of_ne_nil hn.1
        rw [List.getLast?_append_of_ne_nil _ (by simp), hc, List.getLast?_cons_cons, ← hc]
        exact hlast
      have hall' : ¬ (p.native.toList ++ '/' :: n.toList).all (· = '/') = true := by
        rw [List.all_append]
        simp [hall]
      have hhead₂ : (p.append ⟨n⟩).native.toList.head? = some '/' := by
        rw [hp, List.head?_append, hhead']
        rfl
      have hne : p.native ≠ "/" := fun he => by
        have hr : p.Rooted [] := rooted_nil_iff.mpr he
        rw [Rooted, h] at hr
        cases hr
      have hroot := hasRootName_of_prefix h.hasRootName hne hhead' hp
      unfold Rooted
      rw [components_of_head hroot hhead₂, hp, if_neg hall', if_neg hlast', names_slash, hns, hname,
        List.append_nil]

/-- The parents of a relative path are relative. -/
theorem Relative.parentPath (h : p.Relative) : p.parentPath.Relative := by
  unfold Path.parentPath
  split
  · exact relative_empty
  · rename_i hlen
    unfold Relative at h
    cases hc : p.components with
    | nil =>
        rw [hc] at hlen
        simp at hlen
    | cons n ns =>
        rw [hc] at hlen h
        have hne : ns ≠ [] := by
          intro he
          rw [he] at hlen
          simp at hlen
        have hn : IsName n := h n List.mem_cons_self
        have hns : ∀ m ∈ ns.dropLast, IsName m := fun m hm =>
          h m (List.mem_cons_of_mem _ (List.mem_of_mem_dropLast hm))
        have hfirst : empty.append ⟨n⟩ = ⟨n⟩ := by
          unfold append empty
          simp
        obtain ⟨c, cs, hcs⟩ := List.exists_cons_of_ne_nil hn.1
        rw [List.dropLast_cons_of_ne_nil hne, List.foldl_cons, hfirst]
        have hchars := foldl_append (p := ⟨n⟩) hn.1
          (fun hl => hn.2 (List.mem_of_getLast? hl)) hns
        have hcomp := components_relative hn hns
        rw [← hchars, String.ofList_toList] at hcomp
        unfold Relative
        rw [hcomp]
        intro m hm
        rcases List.mem_cons.mp hm with rfl | hm
        · exact hn
        · exact hns m hm

/-- The parents of a path with a root name have one, or are empty. -/
theorem hasRootName_parentPath (h : p.hasRootName = true) :
    p.parentPath.hasRootName = true ∨ p.parentPath = empty := by
  obtain ⟨rs, hslash, hrs, hnative, hrest⟩ := rootName_toList h
  unfold Path.parentPath components
  dsimp only
  rw [if_pos h]
  by_cases hnil : p.afterRootName = []
  · rw [if_pos hnil]
    exact .inr (if_pos (by simp))
  · refine .inl ?_
    rw [if_neg hnil, if_neg (by simp), List.dropLast_cons_of_ne_nil (by simp), List.foldl_cons]
    have hfirst : empty.append ⟨p.rootName⟩ = ⟨p.rootName⟩ := by
      unfold append empty
      simp
    rw [hfirst]
    -- what is joined stands behind the root name, and that has a name in it
    obtain ⟨c, cs, rfl⟩ := List.exists_cons_of_ne_nil (mt hrest hnil)
    have hc : c ≠ '/' := fun hc => hslash (hc ▸ List.mem_cons_self)
    obtain ⟨es, hes⟩ := prefix_foldl_append ⟨p.rootName⟩ _
    refine hasRootName_iff.mpr ⟨c :: cs ++ es, ?_, fun he => hc (Option.some.inj he)⟩
    rw [hes, hrs]
    rfl

/-- A path that is not rooted has no rooted parent. -/
theorem parentPath_not_rooted (h : ∀ ns, ¬ p.Rooted ns) : ∀ ns, ¬ p.parentPath.Rooted ns := by
  rcases components_cases p with ⟨_, h'⟩ | ⟨ms, _, h', _, _⟩ | ⟨_, h'⟩ | ⟨_, c, cs, h', _, hcs⟩
  · exact absurd h' (h _)
  · exact absurd h' (h _)
  · exact fun ns => h'.parentPath.not_rooted
  · cases hname : p.hasRootName with
    | true =>
        rcases hasRootName_parentPath hname with hp | hp
        · intro ns hr
          rw [hr.hasRootName] at hp
          cases hp
        · rw [hp]
          exact fun ns => relative_empty.not_rooted
    | false =>
        unfold Path.parentPath
        rw [h', hcs hname, if_pos (by simp)]
        exact fun ns => relative_empty.not_rooted

end Rooted

end Path

end Fsracer

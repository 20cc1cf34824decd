/-
  File:      Fsracer/Lib/Munch.lean
  Subject:   MAXIMAL MUNCH: a scanner that takes, at every position, the longest match of any
             rule, and of the longest ones the first.

  A `Rule` says how long the longest prefix is that its pattern matches (`0` for none) and what
  becomes of the text. The library names no program:

  * `munch_eq` -- a rule wins that no rule before it equals and no rule behind it exceeds;
  * `exists_of_mem_lex` -- every token is made by a rule that wins;
  * `lex_append` -- the scanner on a text whose first match is known;
  * `lit_append`, `span_append` -- literals and spans on a text that a delimiter ends.
-/
import Mathlib

namespace Munch

variable {α τ : Type}

/-- A rule; `action = none` drops the text. -/
structure Rule (α τ : Type) where
  scan : List α → Nat
  action : Option (List α → τ)

/-- The length of the winning match and the action of its rule. -/
def munch : List (Rule α τ) → List α → Nat × Option (List α → τ)
  | [], _ => (0, none)
  | r :: rs, cs =>
      if (munch rs cs).1 ≤ r.scan cs then (r.scan cs, r.action) else munch rs cs

/-- The scanner, one match per unit of fuel. -/
def lexLoop (rules : List (Rule α τ)) : Nat → List α → List τ
  | _, [] => []
  | 0, _ :: _ => []
  | n + 1, c :: cs =>
      match munch rules (c :: cs) with
      | (0, _) => []
      | (k + 1, none) => lexLoop rules n (cs.drop k)
      | (k + 1, some action) => action ((c :: cs).take (k + 1)) :: lexLoop rules n (cs.drop k)

/-- The scanner; every match is of one character at least. -/
def lex (rules : List (Rule α τ)) (cs : List α) : List τ := lexLoop rules cs.length cs

/-! ## 1. The winning rule -/

theorem munch_le {rules : List (Rule α τ)} {cs : List α} {n : Nat}
    (h : ∀ r ∈ rules, r.scan cs ≤ n) : (munch rules cs).1 ≤ n := by
  induction rules with
  | nil => exact Nat.zero_le n
  | cons r rs ih =>
      unfold munch
      split
      · exact h r List.mem_cons_self
      · exact ih fun r' hr' => h r' (List.mem_cons_of_mem _ hr')

theorem munch_eq {before behind : List (Rule α τ)} {r : Rule α τ} {cs : List α} {n : Nat}
    (hn : r.scan cs = n) (h1 : ∀ r' ∈ before, r'.scan cs < n)
    (h2 : ∀ r' ∈ behind, r'.scan cs ≤ n) :
    munch (before ++ r :: behind) cs = (n, r.action) := by
  induction before with
  | nil => rw [List.nil_append, munch, hn, if_pos (munch_le h2)]
  | cons r' rs ih =>
      have ih := ih fun r'' hr'' => h1 r'' (List.mem_cons_of_mem _ hr'')
      have hlt := h1 r' List.mem_cons_self
      rw [List.cons_append, munch, ih, if_neg (by dsimp only; omega)]

/-- Rule `r` wins on `cs`: no rule before it matches as much, no rule behind it matches more. -/
def Wins (rules : List (Rule α τ)) (cs : List α) (r : Rule α τ) : Prop :=
  ∃ before behind, rules = before ++ r :: behind ∧ 0 < r.scan cs ∧
    (∀ r' ∈ before, r'.scan cs < r.scan cs) ∧ ∀ r' ∈ behind, r'.scan cs ≤ r.scan cs

theorem scan_le_munch {rules : List (Rule α τ)} {r : Rule α τ} (hr : r ∈ rules) (cs : List α) :
    r.scan cs ≤ (munch rules cs).1 := by
  induction rules with
  | nil => exact absurd hr List.not_mem_nil
  | cons r' rs ih =>
      rw [munch]
      rcases List.mem_cons.mp hr with rfl | hr
      · split
        · exact le_rfl
        · rename_i h
          exact (Nat.lt_of_not_le h).le
      · split
        · rename_i h
          exact (ih hr).trans h
        · exact ih hr

/-- A match is that of a rule that wins. -/
theorem exists_wins {rules : List (Rule α τ)} {cs : List α} (h : 0 < (munch rules cs).1) :
    ∃ r, Wins rules cs r ∧ munch rules cs = (r.scan cs, r.action) := by
  induction rules with
  | nil => exact absurd h (Nat.lt_irrefl 0)
  | cons r rs ih =>
      by_cases hle : (munch rs cs).1 ≤ r.scan cs
      · have hm : munch (r :: rs) cs = (r.scan cs, r.action) := by rw [munch, if_pos hle]
        rw [hm] at h
        exact ⟨r, ⟨[], rs, rfl, h, fun r' hr' => absurd hr' List.not_mem_nil,
          fun r' hr' => (scan_le_munch hr' cs).trans hle⟩, hm⟩
      · have hm : munch (r :: rs) cs = munch rs cs := by rw [munch, if_neg hle]
        rw [hm] at h ⊢
        obtain ⟨r₀, ⟨before, behind, rfl, hpos, h1, h2⟩, hr₀⟩ := ih h
        rw [hr₀] at hle
        exact ⟨r₀, ⟨r :: before, behind, rfl, hpos,
          List.forall_mem_cons.mpr ⟨Nat.lt_of_not_le hle, h1⟩, h2⟩, hr₀⟩

/-- The characters in front that `p` holds of. -/
def span (p : α → Bool) (cs : List α) : Nat := (cs.takeWhile p).length

/-! ## 2. The scanner -/

theorem lexLoop_eq {rules : List (Rule α τ)} {m n : Nat} {cs : List α} (hm : cs.length ≤ m)
    (hn : cs.length ≤ n) : lexLoop rules m cs = lexLoop rules n cs := by
  induction m generalizing n cs with
  | zero =>
      rw [List.length_eq_zero_iff.mp (Nat.le_zero.mp hm)]
      cases n <;> rfl
  | succ m ih =>
      cases cs with
      | nil => cases n <;> rfl
      | cons c cs =>
          cases n with
          | zero => simp at hn
          | succ n =>
              rw [List.length_cons] at hm hn
              have hd : ∀ k, (cs.drop k).length ≤ cs.length := fun k => by simp
              have hk : ∀ k, lexLoop rules m (cs.drop k) = lexLoop rules n (cs.drop k) :=
                fun k => ih ((hd k).trans (by omega)) ((hd k).trans (by omega))
              unfold lexLoop
              rcases munch rules (c :: cs) with ⟨_ | k, _ | action⟩
              · rfl
              · rfl
              · exact hk k
              · exact congrArg _ (hk k)

/-- **Every token is made by a rule that wins**, of the text it matches. -/
theorem exists_of_mem_lex {rules : List (Rule α τ)} {cs : List α} {t : τ} (h : t ∈ lex rules cs) :
    ∃ cs' r action, Wins rules cs' r ∧ r.action = some action ∧
      t = action (cs'.take (r.scan cs')) := by
  unfold lex at h
  generalize cs.length = n at h
  induction n generalizing cs with
  | zero => cases cs <;> exact absurd h List.not_mem_nil
  | succ n ih =>
      cases cs with
      | nil => exact absurd h List.not_mem_nil
      | cons c cs =>
          have hwin : 0 < (munch rules (c :: cs)).1 → _ := exists_wins
          rw [lexLoop] at h
          rcases hm : munch rules (c :: cs) with ⟨_ | k, _ | action⟩
          · rw [hm] at h
            exact absurd h List.not_mem_nil
          · rw [hm] at h
            exact absurd h List.not_mem_nil
          · rw [hm] at h
            exact ih h
          · rw [hm] at h hwin
            rcases List.mem_cons.mp h with rfl | h
            · obtain ⟨r, hr, he⟩ := hwin k.succ_pos
              injection he with hk ha
              exact ⟨c :: cs, r, action, hr, ha.symm, by rw [← hk]⟩
            · exact ih h

@[simp] theorem lex_nil (rules : List (Rule α τ)) : lex rules [] = [] := rfl

/-- The text of the first match goes to its rule. -/
theorem lex_append {rules : List (Rule α τ)} {w rest : List α} {action : Option (List α → τ)}
    (hw : w ≠ []) (h : munch rules (w ++ rest) = (w.length, action)) :
    lex rules (w ++ rest) = (action.map (· w)).toList ++ lex rules rest := by
  cases w with
  | nil => exact absurd rfl hw
  | cons c w =>
      have hd : (w ++ rest).drop w.length = rest := by simp
      have ht : (c :: (w ++ rest)).take (w.length + 1) = c :: w := by simp
      have hl : lexLoop rules (w ++ rest).length rest = lex rules rest :=
        lexLoop_eq (by simp) le_rfl
      rw [List.cons_append] at h ⊢
      rw [lex, List.length_cons, lexLoop, h]
      cases action with
      | none =>
          simp only [List.length_cons, hd]
          exact hl
      | some action =>
          simp only [List.length_cons, hd, ht, hl]
          rfl

/-- A rule that drops spans of `p` drops every such character. -/
theorem lex_skip {rules : List (Rule α τ)} {p : α → Bool}
    (h : ∀ c cs, p c → munch rules (c :: cs) = (span p (c :: cs), none)) {c : α} (hc : p c)
    (rest : List α) : lex rules (c :: rest) = lex rules rest := by
  have hdrop : ∀ c rest, p c → lex rules (c :: rest) = lex rules (rest.dropWhile p) := by
    intro c rest hc
    have hsplit : c :: rest = (c :: rest.takeWhile p) ++ rest.dropWhile p := by simp
    have hm := h c rest hc
    rw [hsplit] at hm ⊢
    have hw : munch rules ((c :: rest.takeWhile p) ++ rest.dropWhile p) =
        ((c :: rest.takeWhile p).length, none) := by
      rw [hm, ← hsplit, span, List.takeWhile_cons_of_pos hc]
    exact lex_append (List.cons_ne_nil _ _) hw
  rw [hdrop c rest hc]
  cases rest with
  | nil => rfl
  | cons c' rest =>
      by_cases hc' : p c'
      · rw [List.dropWhile_cons_of_pos hc', hdrop c' rest hc']
      · rw [List.dropWhile_cons_of_neg hc']

/-! ## 3. Literals and spans -/

/-- A literal text. -/
def lit [DecidableEq α] (s : List α) (cs : List α) : Nat := if s <+: cs then s.length else 0

/-- A text does not reach over a delimiter that it does not contain. -/
theorem isPrefix_append_iff {s w rest : List α} {d : α} (hd : d ∉ s) :
    s <+: w ++ d :: rest ↔ s <+: w := by
  refine ⟨fun ⟨r, hr⟩ => ?_, fun h => h.trans (List.prefix_append w _)⟩
  rcases List.append_eq_append_iff.mp hr with ⟨a, ha, _⟩ | ⟨a, ha, hb⟩
  · exact ⟨a, ha.symm⟩
  · cases a with
    | nil => exact ⟨[], by simpa using ha⟩
    | cons x a =>
        cases hb
        exact absurd (by simp [ha]) hd

theorem lit_append [DecidableEq α] {s w rest : List α} {d : α} (hd : d ∉ s) :
    lit s (w ++ d :: rest) = lit s w := by
  unfold lit
  simp only [isPrefix_append_iff hd]

theorem lit_le [DecidableEq α] (s w : List α) : lit s w ≤ w.length := by
  unfold lit
  split
  · rename_i h
    exact h.length_le
  · exact Nat.zero_le _

/-- Only the text itself is matched to its end. -/
theorem lit_lt [DecidableEq α] {s w : List α} (h : s ≠ w) (hw : w ≠ []) : lit s w < w.length := by
  unfold lit
  split
  · rename_i hp
    exact lt_of_le_of_ne hp.length_le fun he => h (hp.eq_of_length he)
  · exact List.length_pos_iff.mpr hw

theorem lit_self [DecidableEq α] (s : List α) : lit s s = s.length := if_pos (List.prefix_refl s)

theorem lit_cons_ne [DecidableEq α] {a c : α} {s cs : List α} (h : a ≠ c) :
    lit (a :: s) (c :: cs) = 0 := if_neg fun hp => h (List.cons_prefix_cons.mp hp).1

theorem lit_cons_cons_ne [DecidableEq α] {a b c : α} {s cs : List α} (h : b ≠ c) :
    lit (a :: b :: s) (a :: c :: cs) = 0 :=
  if_neg fun hp => h (List.cons_prefix_cons.mp (List.cons_prefix_cons.mp hp).2).1

theorem lit_append_self [DecidableEq α] (s rest : List α) : lit s (s ++ rest) = s.length :=
  if_pos (List.prefix_append s rest)

/-- A span stops at a delimiter. -/
theorem span_append {p : α → Bool} {w rest : List α} {d : α} (hd : p d = false) :
    span p (w ++ d :: rest) = span p w := by
  unfold span
  induction w with
  | nil => simp [hd]
  | cons c w ih =>
      rw [List.cons_append, List.takeWhile_cons, List.takeWhile_cons]
      split
      · rw [List.length_cons, List.length_cons, ih]
      · rfl

theorem span_le (p : α → Bool) (w : List α) : span p w ≤ w.length :=
  (List.takeWhile_prefix p).length_le

theorem span_eq_length_iff {p : α → Bool} {w : List α} : span p w = w.length ↔ ∀ c ∈ w, p c := by
  unfold span
  rw [← List.takeWhile_eq_self_iff]
  exact ⟨fun h => (List.takeWhile_prefix p).eq_of_length h, fun h => by rw [h]⟩

theorem span_cons_false {p : α → Bool} {c : α} {cs : List α} (h : p c = false) :
    span p (c :: cs) = 0 := by simp [span, h]

end Munch

/-
  File:      Fsracer/Lib/Json.lean
  Subject:   JSON TEXTS: a decoder for the whole grammar, and the rules by which a writer
             shows that its text is read as the value it means.

  The decoder is a recursive descent on a list of characters. Its fuel is one more than their
  number: a call takes a character of its own, or it reads an element of an array, whose bracket
  still has to be closed. An object is the list of its members in the order of the text, a key
  that comes twice included; a number is its text. The library names no program:

  * `Reads text v` -- the text is the value `v`, whatever stands behind it, with rules for white
    space, strings, arrays and objects;
  * `plain_of_string` -- a key that comes back as it was written has no character to escape.
-/
import Mathlib

namespace Json

/-- A JSON value. -/
inductive Value where
  | null
  | bool (b : Bool)
  | number (text : String)
  | string (s : String)
  | array (vs : List Value)
  | object (ms : List (String × Value))
  deriving Repr

/-! ## 1. Tokens -/

/-- White space. -/
def isWs (c : Char) : Bool := c = ' ' || c = '\t' || c = '\n' || c = '\r'

/-- What follows white space. -/
def skipWs (cs : List Char) : List Char := cs.dropWhile isWs

/-- The value of a hexadecimal digit: `0` to `9`, `a` to `f`, `A` to `F`. -/
def hexVal (c : Char) : Option Nat :=
  if 0x30 ≤ c.toNat ∧ c.toNat ≤ 0x39 then some (c.toNat - 0x30)
  else if 0x61 ≤ c.toNat ∧ c.toNat ≤ 0x66 then some (c.toNat - 0x57)
  else if 0x41 ≤ c.toNat ∧ c.toNat ≤ 0x46 then some (c.toNat - 0x37)
  else none

/-- Four hexadecimal digits. -/
def hex4 : List Char → Option (Nat × List Char)
  | a :: b :: c :: d :: cs => do
      return (((← hexVal a) * 16 + (← hexVal b)) * 256 + (← hexVal c) * 16 + (← hexVal d), cs)
  | _ => none

/-- What follows `\u`: a character of the basic plane, or a pair of surrogates. -/
def unicode (cs : List Char) : Option (Char × List Char) :=
  match hex4 cs with
  | none => none
  | some (high, cs) =>
      if 0xD800 ≤ high ∧ high < 0xDC00 then
        match cs with
        | '\\' :: 'u' :: cs =>
            match hex4 cs with
            | none => none
            | some (low, cs) =>
                if 0xDC00 ≤ low ∧ low < 0xE000 then
                  some (Char.ofNat (0x10000 + (high - 0xD800) * 0x400 + (low - 0xDC00)), cs)
                else none
        | _ => none
      else if 0xDC00 ≤ high ∧ high < 0xE000 then none
      else some (Char.ofNat high, cs)

/-- The escapes of one character. -/
def escapes : List (Char × Char) :=
  [('"', '"'), ('\\', '\\'), ('/', '/'), ('b', '\x08'), ('f', '\x0c'), ('n', '\n'), ('r', '\r'),
    ('t', '\t')]

/-- One character of a string, with its escapes; control characters have to be escaped. -/
def char : List Char → Option (Char × List Char)
  | [] => none
  | c :: cs =>
      if c = '\\' then
        match cs with
        | [] => none
        | e :: cs => if e = 'u' then unicode cs else (escapes.lookup e).map fun c => (c, cs)
      else if c.toNat < 0x20 then none
      else some (c, cs)

/-- The characters of a string behind its first quotation mark, and what follows the second. -/
def string : Nat → List Char → Option (List Char × List Char)
  | 0, _ => none
  | n + 1, cs =>
      if cs.head? = some '"' then some ([], cs.tail)
      else
        match char cs with
        | none => none
        | some (c, cs) => (string n cs).map fun r => (c :: r.1, r.2)

/-- A sign that may be missing. -/
def sign (signs : List Char) : List Char → List Char × List Char
  | [] => ([], [])
  | c :: cs => if c ∈ signs then ([c], cs) else ([], c :: cs)

/-- Digits, at least one. -/
def digits (cs : List Char) : Option (List Char × List Char) :=
  match cs.takeWhile Char.isDigit with
  | [] => none
  | ds => some (ds, cs.dropWhile Char.isDigit)

/-- The integer part of a number: zero stands alone. -/
def intPart : List Char → Option (List Char × List Char)
  | '0' :: cs => some (['0'], cs)
  | cs => digits cs

/-- A part of a number that may be missing: the mark that starts it, and digits with a sign. -/
def part (marks signs : List Char) : List Char → Option (List Char × List Char)
  | [] => some ([], [])
  | c :: cs =>
      if c ∈ marks then
        (digits (sign signs cs).2).map fun r => (c :: (sign signs cs).1 ++ r.1, r.2)
      else some ([], c :: cs)

/-- A number. -/
def number (cs : List Char) : Option (List Char × List Char) := do
  let (minus, cs) := sign ['-'] cs
  let (int, cs) ← intPart cs
  let (frac, cs) ← part ['.'] [] cs
  let (exp, cs) ← part ['e', 'E'] ['+', '-'] cs
  return (minus ++ int ++ frac ++ exp, cs)

/-! ## 2. Values -/

mutual

/-- A value, and what follows it. -/
def value : Nat → List Char → Option (Value × List Char)
  | 0, _ => none
  | n + 1, cs =>
      match skipWs cs with
      | '{' :: cs =>
          if (skipWs cs).head? = some '}' then some (.object [], (skipWs cs).tail)
          else (members n cs).map fun r => (.object r.1, r.2)
      | '[' :: cs =>
          if (skipWs cs).head? = some ']' then some (.array [], (skipWs cs).tail)
          else (elements n cs).map fun r => (.array r.1, r.2)
      | '"' :: cs => (string n cs).map fun r => (.string (String.ofList r.1), r.2)
      | 't' :: 'r' :: 'u' :: 'e' :: cs => some (.bool true, cs)
      | 'f' :: 'a' :: 'l' :: 's' :: 'e' :: cs => some (.bool false, cs)
      | 'n' :: 'u' :: 'l' :: 'l' :: cs => some (.null, cs)
      | cs => (number cs).map fun r => (.number (String.ofList r.1), r.2)

/-- The members of an object that has one, and what follows the object. -/
def members : Nat → List Char → Option (List (String × Value) × List Char)
  | 0, _ => none
  | n + 1, cs =>
      match skipWs cs with
      | '"' :: cs =>
          match string n cs with
          | none => none
          | some (key, cs) =>
              match skipWs cs with
              | ':' :: cs =>
                  match value n cs with
                  | none => none
                  | some (v, cs) =>
                      match skipWs cs with
                      | ',' :: cs =>
                          (members n cs).map fun r => ((String.ofList key, v) :: r.1, r.2)
                      | '}' :: cs => some ([(String.ofList key, v)], cs)
                      | _ => none
              | _ => none
      | _ => none

/-- The elements of an array that has one, and what follows the array. -/
def elements : Nat → List Char → Option (List Value × List Char)
  | 0, _ => none
  | n + 1, cs =>
      match value n cs with
      | none => none
      | some (v, cs) =>
          match skipWs cs with
          | ',' :: cs => (elements n cs).map fun r => (v :: r.1, r.2)
          | ']' :: cs => some ([v], cs)
          | _ => none

end

/-- **The value of a text**; `none` for a text that is not valid JSON. -/
def decode (text : String) : Option Value :=
  match value (text.toList.length + 1) text.toList with
  | some (v, cs) => if skipWs cs = [] then some v else none
  | none => none

/-! ## 3. Strings -/

/-- A character that stands for itself in a string. -/
def Plain (c : Char) : Prop := c ≠ '"' ∧ c ≠ '\\' ∧ 0x20 ≤ c.toNat

instance (c : Char) : Decidable (Plain c) := inferInstanceAs (Decidable (_ ∧ _ ∧ _))

theorem string_plain {n : Nat} {s : List Char} (rest : List Char) (hs : ∀ c ∈ s, Plain c)
    (hn : s.length < n) : string n (s ++ '"' :: rest) = some (s, rest) := by
  induction s generalizing n with
  | nil =>
      obtain ⟨n, rfl⟩ := Nat.exists_eq_add_of_lt hn
      simp [string]
  | cons c s ih =>
      obtain ⟨n, rfl⟩ : ∃ m, n = m + 1 := ⟨n - 1, by omega⟩
      obtain ⟨hq, he, hc⟩ := hs c List.mem_cons_self
      have hchar : char (c :: (s ++ '"' :: rest)) = some (c, s ++ '"' :: rest) := by
        simp [char, he, Nat.not_lt.mpr hc]
      have hih := ih (fun c hm => hs c (List.mem_cons_of_mem _ hm)) (Nat.lt_of_succ_lt_succ hn)
      simp [string, hq, hchar, hih]

theorem le_toNat_of_hexVal {c : Char} {k : Nat} (h : hexVal c = some k) : 0x20 ≤ c.toNat := by
  unfold hexVal at h
  split at h
  · omega
  · split at h
    · omega
    · split at h
      · omega
      · cases h

theorem hex4_spec {cs cs' : List Char} {k : Nat} (h : hex4 cs = some (k, cs')) :
    ∃ used, cs = used ++ cs' ∧ ∀ u ∈ used, 0x20 ≤ u.toNat := by
  unfold hex4 at h
  split at h
  · rename_i a b c d cs
    simp only [Option.bind_eq_bind, Option.bind_eq_some_iff] at h
    obtain ⟨x, hx, y, hy, z, hz, w, hw, h⟩ := h
    cases h
    refine ⟨[a, b, c, d], rfl, fun u hu => ?_⟩
    simp only [List.mem_cons, List.not_mem_nil, or_false] at hu
    obtain rfl | rfl | rfl | rfl := hu
    · exact le_toNat_of_hexVal hx
    · exact le_toNat_of_hexVal hy
    · exact le_toNat_of_hexVal hz
    · exact le_toNat_of_hexVal hw
  · cases h

theorem unicode_spec {cs cs' : List Char} {c : Char} (h : unicode cs = some (c, cs')) :
    ∃ used, cs = used ++ cs' ∧ ∀ u ∈ used, 0x20 ≤ u.toNat := by
  unfold unicode at h
  split at h
  · cases h
  · rename_i high cs₁ h1
    obtain ⟨used, rfl, hu⟩ := hex4_spec h1
    split at h
    · split at h
      · rename_i cs₂
        split at h
        · cases h
        · rename_i low cs₃ h2
          obtain ⟨used', rfl, hu'⟩ := hex4_spec h2
          split at h
          · simp only [Option.some.injEq, Prod.mk.injEq] at h
            obtain ⟨_, rfl⟩ := h
            refine ⟨used ++ '\\' :: 'u' :: used', by simp, fun u hm => ?_⟩
            simp only [List.mem_append, List.mem_cons] at hm
            obtain hm | rfl | rfl | hm := hm
            · exact hu u hm
            · decide
            · decide
            · exact hu' u hm
          · cases h
      · cases h
    · split at h
      · cases h
      · cases h
        exact ⟨used, rfl, hu⟩

theorem le_toNat_of_escapes {e c : Char} (h : escapes.lookup e = some c) : 0x20 ≤ e.toNat := by
  by_contra hlt
  have hne : ∀ p ∈ escapes, e ≠ p.1 := by
    intro p hp he
    have hall : ∀ p ∈ escapes, 0x20 ≤ p.1.toNat := by decide
    exact hlt (he ▸ hall p hp)
  rw [List.lookup_eq_none_iff.mpr fun p hp => by simpa using hne p hp] at h
  cases h

/-- What the decoder takes for one character: the character, or an escape of at least two. No
    control character is among them. -/
theorem char_spec {cs cs' : List Char} {c : Char} (h : char cs = some (c, cs')) :
    ∃ used, cs = used ++ cs' ∧ (∀ u ∈ used, 0x20 ≤ u.toNat) ∧
      (used = [c] ∧ c ≠ '\\' ∨ 2 ≤ used.length) := by
  unfold char at h
  split at h
  · cases h
  · rename_i c₁ cs
    split at h
    · rename_i hc
      subst hc
      split at h
      · cases h
      · rename_i e cs
        split at h
        · rename_i he
          obtain ⟨used, rfl, hu⟩ := unicode_spec h
          refine ⟨'\\' :: e :: used, rfl, fun u hm => ?_, .inr (by simp)⟩
          simp only [List.mem_cons] at hm
          obtain rfl | rfl | hm := hm
          · decide
          · rw [he]
            decide
          · exact hu u hm
        · obtain ⟨c₂, hl, hr⟩ := Option.map_eq_some_iff.mp h
          cases hr
          refine ⟨['\\', e], rfl, fun u hm => ?_, .inr (Nat.le_refl 2)⟩
          simp only [List.mem_cons, List.not_mem_nil, or_false] at hm
          obtain rfl | rfl := hm
          · decide
          · exact le_toNat_of_escapes hl
    · rename_i he
      split at h
      · cases h
      · rename_i hc
        cases h
        refine ⟨[c], rfl, fun u hm => ?_, .inl ⟨rfl, he⟩⟩
        rw [List.mem_singleton.mp hm]
        exact Nat.not_lt.mp hc

/-- The text of a string: a quotation mark ends it, it has a character for every character of the
    string, and it has no more only if no character was escaped. -/
theorem string_spec {n : Nat} {cs s rest : List Char} (h : string n cs = some (s, rest)) :
    ∃ used, cs = used ++ '"' :: rest ∧ (∀ u ∈ used, 0x20 ≤ u.toNat) ∧
      s.length ≤ used.length ∧ (s.length = used.length → ∀ c ∈ s, Plain c) := by
  induction n generalizing cs s with
  | zero => cases h
  | succ n ih =>
      unfold string at h
      split at h
      · rename_i hq
        cases h
        refine ⟨[], ?_, fun u hm => absurd hm List.not_mem_nil, Nat.le_refl 0,
          fun _ c hm => absurd hm List.not_mem_nil⟩
        exact (List.cons_head?_tail hq).symm
      · rename_i hq
        split at h
        · cases h
        · rename_i c cs₁ hc
          obtain ⟨r, hs, hr⟩ := Option.map_eq_some_iff.mp h
          cases hr
          obtain ⟨used, rfl, hu, hlen⟩ := char_spec hc
          obtain ⟨used', rfl, hu', hle, hplain⟩ := ih hs
          refine ⟨used ++ used', (List.append_assoc ..).symm,
            fun u hm => (List.mem_append.mp hm).elim (hu u) (hu' u), ?_, fun heq x hx => ?_⟩
          · simp only [List.length_cons, List.length_append]
            obtain ⟨hone, _⟩ | htwo := hlen
            · rw [hone, List.length_singleton]
              omega
            · omega
          · simp only [List.length_cons, List.length_append] at heq
            obtain ⟨hone, he⟩ | htwo := hlen
            · rw [hone, List.length_singleton] at heq
              obtain rfl | hx := List.mem_cons.mp hx
              · refine ⟨fun hx => hq ?_, he, hu x (hone ▸ List.mem_singleton_self x)⟩
                rw [hone, hx]
                rfl
              · exact hplain (by omega) x hx
            · omega

/-- **A key that comes back as it was written is plain**, when its quotation mark is followed by a
    control character before the next one. -/
theorem plain_of_string {n : Nat} {key t₁ t₂ rest : List Char} {ctrl : Char} (ht : '"' ∉ t₁)
    (hc : ctrl.toNat < 0x20)
    (h : string n (key ++ '"' :: (t₁ ++ ctrl :: t₂)) = some (key, rest)) :
    ∀ c ∈ key, Plain c := by
  obtain ⟨used, heq, hu, hle, hplain⟩ := string_spec h
  obtain hlt | hlen := Nat.lt_or_eq_of_le hle
  · exfalso
    obtain ⟨w, rfl, hw⟩ | ⟨w, rfl, hw⟩ := List.append_eq_append_iff.mp heq
    · -- an escape has shifted the end of the string past the mark behind the key
      cases w with
      | nil => simp at hlt
      | cons q w =>
          simp only [List.cons_append, List.cons.injEq] at hw
          obtain ⟨v, rfl, hv⟩ | ⟨v, rfl, hv⟩ := List.append_eq_append_iff.mp hw.2
          · cases v with
            | nil =>
                cases hv
                exact absurd hc (by decide)
            | cons x v =>
                cases hv
                have hx : 0x20 ≤ ctrl.toNat := hu ctrl (by simp)
                omega
          · cases v with
            | nil =>
                cases hv
                exact absurd hc (by decide)
            | cons x v =>
                cases hv
                exact ht (by simp)
    · simp at hlt
  · exact hplain hlen

/-! ## 4. Texts that are read as a value -/

/-- The text is the value, whatever stands behind it. -/
def Reads (text : List Char) (v : Value) : Prop :=
  ∀ n rest, text.length < n → value n (text ++ rest) = some (v, rest)

/-- The text is the elements of an array, with the bracket that closes it. -/
def ReadsElements (text : List Char) (vs : List Value) : Prop :=
  ∀ n rest, text.length < n → elements n (text ++ rest) = some (vs, rest)

/-- The text is the members of an object, with the brace that closes it. -/
def ReadsMembers (text : List Char) (ms : List (String × Value)) : Prop :=
  ∀ n rest, text.length < n → members n (text ++ rest) = some (ms, rest)

/-- A text of white space. -/
def IsWs (ws : List Char) : Prop := ∀ c ∈ ws, isWs c = true

theorem isWs_nil : IsWs [] := fun _ h => absurd h List.not_mem_nil

theorem skipWs_append {ws : List Char} (hws : IsWs ws) (cs : List Char) :
    skipWs (ws ++ cs) = skipWs cs := List.dropWhile_append_of_pos hws

theorem value_ws {ws : List Char} (hws : IsWs ws) (n : Nat) (cs : List Char) :
    value n (ws ++ cs) = value n cs := by
  cases n with
  | zero => rfl
  | succ n => rw [value, value, skipWs_append hws]

theorem members_ws {ws : List Char} (hws : IsWs ws) (n : Nat) (cs : List Char) :
    members n (ws ++ cs) = members n cs := by
  cases n with
  | zero => rfl
  | succ n => rw [members, members, skipWs_append hws]

theorem value_string (n : Nat) (cs : List Char) :
    value (n + 1) ('"' :: cs) = (string n cs).map fun r => (.string (String.ofList r.1), r.2) := rfl

theorem reads_ws {ws text : List Char} {v : Value} (hws : IsWs ws) (h : Reads text v) :
    Reads (ws ++ text) v := by
  intro n rest hn
  rw [List.append_assoc, value_ws hws]
  exact h n rest (by simp at hn; omega)

theorem readsMembers_ws {ws text : List Char} {ms : List (String × Value)} (hws : IsWs ws)
    (h : ReadsMembers text ms) : ReadsMembers (ws ++ text) ms := by
  intro n rest hn
  rw [List.append_assoc, members_ws hws]
  exact h n rest (by simp at hn; omega)

theorem reads_string {s : List Char} (hs : ∀ c ∈ s, Plain c) :
    Reads ('"' :: s ++ ['"']) (.string (String.ofList s)) := by
  intro n rest hn
  obtain ⟨n, rfl⟩ : ∃ m, n = m + 1 := ⟨n - 1, by omega⟩
  have htext : '"' :: s ++ ['"'] ++ rest = '"' :: (s ++ '"' :: rest) := by simp
  rw [htext, value_string, string_plain rest hs (by simp at hn; omega)]
  rfl

/-- A mark behind white space. -/
theorem skipWs_mark {ws : List Char} (hws : IsWs ws) {c : Char} (hc : isWs c = false)
    (cs : List Char) : skipWs (ws ++ c :: cs) = c :: cs := by
  rw [skipWs_append hws]
  exact List.dropWhile_cons_of_neg (by simp [hc])

/-! ## 5. Arrays -/

/-- A value does not start with the bracket that closes an array. -/
theorem head_of_value {n : Nat} {cs : List Char} {r : Value × List Char}
    (h : value n cs = some r) : (skipWs cs).head? ≠ some ']' := by
  intro hh
  cases n with
  | zero => cases h
  | succ n =>
      obtain ⟨cs', hcs⟩ := List.head?_eq_some_iff.mp hh
      rw [value, hcs] at h
      cases h

theorem head_of_elements {n : Nat} {cs : List Char} {r : List Value × List Char}
    (h : elements n cs = some r) : (skipWs cs).head? ≠ some ']' := by
  cases n with
  | zero => cases h
  | succ n =>
      unfold elements at h
      cases hv : value n cs with
      | none => simp [hv] at h
      | some r => exact head_of_value hv

theorem value_array {n : Nat} {cs : List Char} (h : (skipWs cs).head? ≠ some ']') :
    value (n + 1) ('[' :: cs) = (elements n cs).map fun r => (.array r.1, r.2) := by
  show (if (skipWs cs).head? = some ']' then _ else _) = _
  rw [if_neg h]

theorem reads_array {text : List Char} {vs : List Value} (h : ReadsElements text vs) :
    Reads ('[' :: text) (.array vs) := by
  intro n rest hn
  obtain ⟨n, rfl⟩ : ∃ m, n = m + 1 := ⟨n - 1, by omega⟩
  have hel := h n rest (by simp at hn; omega)
  rw [List.cons_append, value_array (head_of_elements hel), hel]
  rfl

theorem reads_array_nil {ws : List Char} (hws : IsWs ws) :
    Reads ('[' :: ws ++ [']']) (.array []) := by
  intro n rest hn
  obtain ⟨n, rfl⟩ : ∃ m, n = m + 1 := ⟨n - 1, by omega⟩
  have htext : '[' :: ws ++ [']'] ++ rest = '[' :: (ws ++ ']' :: rest) := by simp
  rw [htext]
  show (if (skipWs (ws ++ ']' :: rest)).head? = some ']' then _ else _) = _
  rw [skipWs_mark hws rfl]
  rfl

theorem elements_close {n : Nat} {cs ws rest : List Char} {v : Value} (hws : IsWs ws)
    (h : value n cs = some (v, ws ++ ']' :: rest)) : elements (n + 1) cs = some ([v], rest) := by
  simp only [elements, h, skipWs_mark hws (c := ']') rfl]

theorem elements_sep {n : Nat} {cs ws rest : List Char} {v : Value} (hws : IsWs ws)
    (h : value n cs = some (v, ws ++ ',' :: rest)) :
    elements (n + 1) cs = (elements n rest).map fun r => (v :: r.1, r.2) := by
  simp only [elements, h, skipWs_mark hws (c := ',') rfl]

theorem readsElements_one {text ws : List Char} {v : Value} (h : Reads text v) (hws : IsWs ws) :
    ReadsElements (text ++ (ws ++ [']'])) [v] := by
  intro n rest hn
  obtain ⟨n, rfl⟩ : ∃ m, n = m + 1 := ⟨n - 1, by omega⟩
  simp only [List.length_append, List.length_cons] at hn
  have htext : text ++ (ws ++ [']']) ++ rest = text ++ (ws ++ ']' :: rest) := by simp
  rw [htext]
  exact elements_close hws (h n _ (by omega))

theorem readsElements_cons {text ws more : List Char} {v : Value} {vs : List Value}
    (h : Reads text v) (hws : IsWs ws) (hmore : ReadsElements more vs) :
    ReadsElements (text ++ (ws ++ ',' :: more)) (v :: vs) := by
  intro n rest hn
  obtain ⟨n, rfl⟩ : ∃ m, n = m + 1 := ⟨n - 1, by omega⟩
  simp only [List.length_append, List.length_cons] at hn
  have htext : text ++ (ws ++ ',' :: more) ++ rest = text ++ (ws ++ ',' :: (more ++ rest)) := by
    simp
  rw [htext, elements_sep hws (h n _ (by omega)), hmore n rest (by omega)]
  rfl

/-! ## 6. Objects -/

theorem head_of_members {n : Nat} {cs : List Char} {r : List (String × Value) × List Char}
    (h : members n cs = some r) : (skipWs cs).head? ≠ some '}' := by
  intro hh
  cases n with
  | zero => cases h
  | succ n =>
      obtain ⟨cs', hcs⟩ := List.head?_eq_some_iff.mp hh
      rw [members, hcs] at h
      cases h

theorem value_object {n : Nat} {cs : List Char} (h : (skipWs cs).head? ≠ some '}') :
    value (n + 1) ('{' :: cs) = (members n cs).map fun r => (.object r.1, r.2) := by
  show (if (skipWs cs).head? = some '}' then _ else _) = _
  rw [if_neg h]

theorem reads_object {text : List Char} {ms : List (String × Value)} (h : ReadsMembers text ms) :
    Reads ('{' :: text) (.object ms) := by
  intro n rest hn
  obtain ⟨n, rfl⟩ : ∃ m, n = m + 1 := ⟨n - 1, by omega⟩
  have hms := h n rest (by simp at hn; omega)
  rw [List.cons_append, value_object (head_of_members hms), hms]
  rfl

theorem reads_object_nil {ws : List Char} (hws : IsWs ws) :
    Reads ('{' :: ws ++ ['}']) (.object []) := by
  intro n rest hn
  obtain ⟨n, rfl⟩ : ∃ m, n = m + 1 := ⟨n - 1, by omega⟩
  have htext : '{' :: ws ++ ['}'] ++ rest = '{' :: (ws ++ '}' :: rest) := by simp
  rw [htext]
  show (if (skipWs (ws ++ '}' :: rest)).head? = some '}' then _ else _) = _
  rw [skipWs_mark hws rfl]
  rfl

/-- The text of a member: its key, a colon, and the text of its value. -/
def memberText (key text : List Char) : List Char := '"' :: (key ++ '"' :: ':' :: text)

theorem memberText_append (key text rest : List Char) :
    memberText key text ++ rest = memberText key (text ++ rest) := by
  simp [memberText]

theorem members_close {n : Nat} {key text ws rest : List Char} {v : Value}
    (hk : ∀ c ∈ key, Plain c) (hn : key.length < n) (hws : IsWs ws)
    (h : value n text = some (v, ws ++ '}' :: rest)) :
    members (n + 1) (memberText key text) = some ([(String.ofList key, v)], rest) := by
  have hq : skipWs (memberText key text) = memberText key text := rfl
  have hc : skipWs (':' :: text) = ':' :: text := rfl
  simp only [members, hq]
  simp only [memberText, string_plain _ hk hn, hc, h, skipWs_mark hws (c := '}') rfl]

theorem members_sep {n : Nat} {key text ws rest : List Char} {v : Value}
    (hk : ∀ c ∈ key, Plain c) (hn : key.length < n) (hws : IsWs ws)
    (h : value n text = some (v, ws ++ ',' :: rest)) :
    members (n + 1) (memberText key text) =
      (members n rest).map fun r => ((String.ofList key, v) :: r.1, r.2) := by
  have hq : skipWs (memberText key text) = memberText key text := rfl
  have hc : skipWs (':' :: text) = ':' :: text := rfl
  simp only [members, hq]
  simp only [memberText, string_plain _ hk hn, hc, h, skipWs_mark hws (c := ',') rfl]

/-- The first key that the decoder reads is the key of the first member. -/
theorem string_of_members {n : Nat} {cs : List Char} {key : String} {v : Value}
    {ms : List (String × Value)} {rest : List Char}
    (h : members (n + 1) ('"' :: cs) = some ((key, v) :: ms, rest)) :
    ∃ cs', string n cs = some (key.toList, cs') := by
  have hq : skipWs ('"' :: cs) = '"' :: cs := rfl
  simp only [members, hq] at h
  cases hs : string n cs with
  | none => simp [hs] at h
  | some r =>
      refine ⟨r.2, ?_⟩
      simp only [hs] at h
      have hkey : String.ofList r.1 = key := by
        split at h
        · split at h
          · cases h
          · split at h
            · obtain ⟨r', _, hr'⟩ := Option.map_eq_some_iff.mp h
              cases hr'
              rfl
            · cases h
              rfl
            · cases h
        · cases h
      rw [← hkey, String.toList_ofList]

theorem readsMembers_one {key text ws : List Char} {v : Value} (hk : ∀ c ∈ key, Plain c)
    (h : Reads text v) (hws : IsWs ws) :
    ReadsMembers (memberText key text ++ (ws ++ ['}'])) [(String.ofList key, v)] := by
  intro n rest hn
  obtain ⟨n, rfl⟩ : ∃ m, n = m + 1 := ⟨n - 1, by omega⟩
  simp only [memberText, List.length_append, List.length_cons] at hn
  rw [List.append_assoc, memberText_append]
  refine members_close hk (by omega) hws ?_
  rw [h n _ (by omega)]
  simp

theorem readsMembers_cons {key text ws more : List Char} {v : Value} {ms : List (String × Value)}
    (hk : ∀ c ∈ key, Plain c) (h : Reads text v) (hws : IsWs ws) (hmore : ReadsMembers more ms) :
    ReadsMembers (memberText key text ++ (ws ++ ',' :: more)) ((String.ofList key, v) :: ms) := by
  intro n rest hn
  obtain ⟨n, rfl⟩ : ∃ m, n = m + 1 := ⟨n - 1, by omega⟩
  simp only [memberText, List.length_append, List.length_cons] at hn
  have htext : memberText key text ++ (ws ++ ',' :: more) ++ rest =
      memberText key (text ++ (ws ++ ',' :: (more ++ rest))) := by
    simp [memberText]
  rw [htext, members_sep hk (by omega) hws (h n _ (by omega)), hmore n rest (by omega)]
  rfl

/-! ## 7. Decoding -/

theorem decode_eq_some_iff {text : String} {v : Value} : decode text = some v ↔
    ∃ cs, value (text.toList.length + 1) text.toList = some (v, cs) ∧ skipWs cs = [] := by
  unfold decode
  cases value (text.toList.length + 1) text.toList with
  | none => simp
  | some r =>
      obtain ⟨v', cs⟩ := r
      by_cases hcs : skipWs cs = [] <;> simp [hcs]

/-- A text is decoded by its rule; white space may follow. -/
theorem decode_of_reads {s : String} {text ws : List Char} {v : Value} (h : Reads text v)
    (hws : IsWs ws) (hs : s.toList = text ++ ws) : decode s = some v := by
  refine decode_eq_some_iff.mpr ⟨ws, ?_, ?_⟩
  · rw [hs]
    exact h _ ws (by simp only [List.length_append]; omega)
  · exact List.dropWhile_eq_nil_iff.mpr hws

end Json

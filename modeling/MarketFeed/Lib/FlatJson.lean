import Mathlib
/-!
# Arrays of plain values as JSON in ASCII

`array` writes nulls, truth values, numbers and texts between brackets, without spaces. Whatever is not printable
ASCII is escaped by its code, above `U+FFFF` by two. What is written is read in one way only: a character ends where
`unescape` ends (`escape_append`), a value at the comma or the bracket after it (`value_append`), an array at its
own bracket (`array_append`). The text of a real number is a parameter.
-/

namespace FlatJson

/-! ## Characters -/

def hexDigit (d : ℕ) : Char := "0123456789abcdef".toList.getD d '0'

def hexValue (c : Char) : ℕ := "0123456789abcdef".toList.idxOf c

theorem hexValue_hexDigit : ∀ d < 16, hexValue (hexDigit d) = d := by decide

def hex4 (n : ℕ) : List Char :=
  [hexDigit (n / 4096), hexDigit (n / 256 % 16), hexDigit (n / 16 % 16), hexDigit (n % 16)]

def value4 (a b c d : Char) : ℕ := ((hexValue a * 16 + hexValue b) * 16 + hexValue c) * 16 + hexValue d

theorem value4_hex4 {n : ℕ} (h : n < 65536) :
    value4 (hexDigit (n / 4096)) (hexDigit (n / 256 % 16)) (hexDigit (n / 16 % 16)) (hexDigit (n % 16)) = n := by
  unfold value4
  rw [hexValue_hexDigit _ (by omega), hexValue_hexDigit _ (by omega), hexValue_hexDigit _ (by omega),
    hexValue_hexDigit _ (by omega)]
  omega

def escape (c : Char) : List Char :=
  if c = '\x22' then ['\x5c', '\x22']
  else if c = '\x5c' then ['\x5c', '\x5c']
  else if c = '\n' then ['\x5c', 'n']
  else if c = '\r' then ['\x5c', 'r']
  else if c = '\t' then ['\x5c', 't']
  else if c = '\x0c' then ['\x5c', 'f']
  else if c = '\x08' then ['\x5c', 'b']
  else if 32 ≤ c.toNat ∧ c.toNat ≤ 126 then [c]
  else if c.toNat < 0x10000 then '\x5c' :: 'u' :: hex4 c.toNat
  else '\x5c' :: 'u' :: hex4 (0xd800 + (c.toNat - 0x10000) / 1024) ++
    '\x5c' :: 'u' :: hex4 (0xdc00 + (c.toNat - 0x10000) % 1024)

/-- The first character of an escaped text, and the rest of it. -/
def unescape : List Char → Option (Char × List Char)
  | [] => none
  | c :: rest =>
    if c ≠ '\x5c' then some (c, rest)
    else match rest with
      | 'u' :: a :: b :: c :: d :: rest =>
        if value4 a b c d < 0xd800 ∨ 0xdc00 ≤ value4 a b c d then some (Char.ofNat (value4 a b c d), rest)
        else match rest with
          | _ :: _ :: e :: f :: g :: h :: rest =>
            some (Char.ofNat (0x10000 + (value4 a b c d - 0xd800) * 1024 + (value4 e f g h - 0xdc00)), rest)
          | _ => none
      | 'n' :: rest => some ('\n', rest)
      | 'r' :: rest => some ('\r', rest)
      | 't' :: rest => some ('\t', rest)
      | 'f' :: rest => some ('\x0c', rest)
      | 'b' :: rest => some ('\x08', rest)
      | c :: rest => some (c, rest)
      | [] => none

theorem toNat_valid (c : Char) : c.toNat < 0xd800 ∨ (0xdfff < c.toNat ∧ c.toNat < 0x110000) := c.valid

theorem unescape_escape (c : Char) (rest : List Char) : unescape (escape c ++ rest) = some (c, rest) := by
  have hvalid := toNat_valid c
  unfold escape
  split
  · subst_vars; rfl
  split
  · subst_vars; rfl
  split
  · subst_vars; rfl
  split
  · subst_vars; rfl
  split
  · subst_vars; rfl
  split
  · subst_vars; rfl
  split
  · subst_vars; rfl
  rename_i hslash _ _ _ _ _
  split
  · simp [unescape, hslash]
  split
  · rename_i hbmp
    have hv := value4_hex4 hbmp
    simp only [hex4, List.cons_append, List.nil_append, unescape, hv]
    rw [if_neg (by simp), if_pos (by omega), Char.ofNat_toNat]
  · rename_i hbmp
    have hhigh := @value4_hex4 (0xd800 + (c.toNat - 0x10000) / 1024) (by omega)
    have hlow := @value4_hex4 (0xdc00 + (c.toNat - 0x10000) % 1024) (by omega)
    have hcode : 0x10000 + (0xd800 + (c.toNat - 0x10000) / 1024 - 0xd800) * 1024 +
        (0xdc00 + (c.toNat - 0x10000) % 1024 - 0xdc00) =
        c.toNat := by omega
    simp only [hex4, List.cons_append, List.nil_append, unescape, hhigh, hlow, hcode]
    rw [if_neg (by simp), if_neg (by omega), Char.ofNat_toNat]

theorem escape_append {c c' : Char} {x x' : List Char} (h : escape c ++ x = escape c' ++ x') : c = c' ∧ x = x' := by
  have hread := unescape_escape c x
  rw [h, unescape_escape] at hread
  obtain ⟨hc, hx⟩ := Prod.mk.inj (Option.some.inj hread)
  exact ⟨hc.symm, hx.symm⟩

/-- No escaped character begins with a quote. -/
theorem escape_ne_quote {c : Char} {x x' : List Char} : escape c ++ x ≠ '\x22' :: x' := by
  intro h
  have hread := unescape_escape c x
  rw [h] at hread
  obtain ⟨hc, hx⟩ : '\x22' = c ∧ x' = x := by simpa [unescape] using hread
  subst hc
  cases (List.cons.inj h).1

/-! ## Values -/

inductive Value (R : Type)
  | null
  | bool (b : Bool)
  | int (n : ℤ)
  | real (x : R)
  | text (s : String)
  deriving DecidableEq

/-- How real numbers are written: with a point or an exponent, or as `NaN` or `Infinity`. -/
structure RealText (R : Type) where
  text : R → List Char
  injective : Function.Injective text
  chars : ∀ x, ∀ c ∈ text x, c ∈ "+-.0123456789eINafinty".toList
  ne_nil : ∀ x, text x ≠ []
  ne_int : ∀ x (n : ℤ), text x ≠ n.repr.toList

variable {R : Type} (rt : RealText R)

def quoted (s : List Char) : List Char := '\x22' :: (s.flatMap escape ++ ['\x22'])

def RealText.value : Value R → List Char
  | .null => "null".toList
  | .bool b => if b then "true".toList else "false".toList
  | .int n => n.repr.toList
  | .real x => rt.text x
  | .text s => quoted s.toList

/-- What can come after a value. -/
def stops (c : Char) : Bool := c == ',' || c == ']'

theorem quoted_append {s s' x x' : List Char} (h : quoted s ++ x = quoted s' ++ x') : s = s' ∧ x = x' := by
  simp only [quoted, List.cons_append, List.append_assoc, List.nil_append] at h
  replace h := (List.cons.inj h).2
  induction s generalizing s' with
  | nil =>
    cases s' with
    | nil => exact ⟨rfl, (List.cons.inj h).2⟩
    | cons c s' =>
      rw [List.flatMap_cons, List.append_assoc] at h
      exact absurd h.symm escape_ne_quote
  | cons c s ih =>
    cases s' with
    | nil =>
      rw [List.flatMap_cons, List.append_assoc] at h
      exact absurd h escape_ne_quote
    | cons c' s' =>
      rw [List.flatMap_cons, List.flatMap_cons, List.append_assoc, List.append_assoc] at h
      obtain ⟨rfl, hrest⟩ := escape_append h
      obtain ⟨rfl, hx⟩ := ih hrest
      exact ⟨rfl, hx⟩

theorem int_chars {n : ℤ} {c : Char} (h : c ∈ n.repr.toList) : c = '-' ∨ c.isDigit = true := by
  cases n with
  | ofNat n =>
    have hm : c ∈ Nat.toDigits 10 n := by simpa [Int.repr, Nat.toList_repr] using h
    exact .inr (Nat.isDigit_of_mem_toDigits (by decide) (by decide) hm)
  | negSucc n =>
    have hm : c = '-' ∨ c ∈ Nat.toDigits 10 (n + 1) := by simpa [Int.repr, Nat.toList_repr] using h
    rcases hm with hm | hm
    · exact .inl hm
    · exact .inr (Nat.isDigit_of_mem_toDigits (by decide) (by decide) hm)

theorem int_ne_nil (n : ℤ) : n.repr.toList ≠ [] := by
  cases n with
  | ofNat n => simp [Int.repr]
  | negSucc n => simp [Int.repr]

/-- The words that are not numbers. -/
def keywords : List (List Char) := ["null".toList, "true".toList, "false".toList]

theorem null_keyword : rt.value .null ∈ keywords := by simp [RealText.value, keywords]

theorem bool_keyword (b : Bool) : rt.value (.bool b) ∈ keywords := by
  cases b <;> simp [RealText.value, keywords]

/-- What is not a text has no character that can follow it and no quote. -/
theorem value_plain {v : Value R} (h : ∀ s, v ≠ .text s) {c : Char} (hc : c ∈ rt.value v) : stops c = false ∧
    c ≠ '\x22' := by
  have hwords : ∀ l ∈ keywords, ∀ c ∈ l, stops c = false ∧ c ≠ '\x22' := by simp [keywords, stops]
  cases v with
  | null => exact hwords _ (null_keyword rt) c hc
  | bool b => exact hwords _ (bool_keyword rt b) c hc
  | int n =>
    rcases int_chars hc with rfl | hd
    · decide
    · constructor
      · by_contra hstop
        simp only [stops, Bool.not_eq_false, Bool.or_eq_true, beq_iff_eq] at hstop
        rcases hstop with rfl | rfl <;> cases hd
      · rintro rfl
        cases hd
  | real x =>
    have hreal : ∀ c ∈ "+-.0123456789eINafinty".toList, stops c = false ∧ c ≠ '\x22' := by simp [stops]
    exact hreal c (rt.chars x c hc)
  | text s => exact absurd rfl (h s)

theorem value_ne_nil (v : Value R) : rt.value v ≠ [] := by
  have hwords : ∀ l ∈ keywords, l ≠ [] := by simp [keywords]
  cases v with
  | null => exact hwords _ (null_keyword rt)
  | bool b => exact hwords _ (bool_keyword rt b)
  | int n => exact int_ne_nil n
  | real x => exact rt.ne_nil x
  | text s => exact List.cons_ne_nil _ _

theorem head_mem {v : Value R} {c : Char} {x x' : List Char} (h : rt.value v ++ x = c :: x') : c ∈ rt.value v := by
  cases hv : rt.value v with
  | nil => exact absurd hv (value_ne_nil rt v)
  | cons d l =>
    rw [hv] at h
    rw [(List.cons.inj h).1]
    exact List.mem_cons_self

theorem value_ne_quote {v : Value R} (h : ∀ s, v ≠ .text s) {x x' : List Char} : rt.value v ++ x ≠ '\x22' :: x' :=
  fun he =>
  (value_plain rt h (head_mem rt he)).2 rfl

theorem value_ne_bracket {v : Value R} {x x' : List Char} : rt.value v ++ x ≠ ']' :: x' := by
  intro h
  by_cases ht : ∃ s, v = .text s
  · obtain ⟨s, rfl⟩ := ht
    cases (List.cons.inj h).1
  · cases (value_plain rt (not_exists.1 ht) (head_mem rt h)).1

theorem int_not_keyword (n : ℤ) : rt.value (.int n) ∉ keywords := by
  intro h
  have hfirst : ∀ l ∈ keywords, ∃ c ∈ l, c ≠ '-' ∧ c.isDigit = false := by simp [keywords]
  obtain ⟨c, hc, hminus, hdigit⟩ := hfirst _ h
  rcases int_chars hc with hm | hm
  · exact hminus hm
  · rw [hdigit] at hm
    cases hm

theorem real_not_keyword (x : R) : rt.value (.real x) ∉ keywords := by
  intro h
  have hother : ∀ l ∈ keywords, ∃ c ∈ l, c ∉ "+-.0123456789eINafinty".toList := by simp [keywords]
  obtain ⟨c, hc, hno⟩ := hother _ h
  exact hno (rt.chars x c hc)

/-- Values that are not texts are told apart by what is written. -/
theorem value_injective {v w : Value R} (hv : ∀ s, v ≠ .text s) (hw : ∀ s, w ≠ .text s)
    (h : rt.value v = rt.value w) : v = w := by
  cases v with
  | null =>
    cases w with
    | null => rfl
    | bool b => cases b <;> cases h
    | int n => exact absurd (h ▸ null_keyword rt) (int_not_keyword rt n)
    | real x => exact absurd (h ▸ null_keyword rt) (real_not_keyword rt x)
    | text s => exact absurd rfl (hw s)
  | bool b =>
    cases w with
    | null => cases b <;> cases h
    | bool b' => cases b <;> cases b' <;> first | rfl | cases h
    | int n => exact absurd (h ▸ bool_keyword rt b) (int_not_keyword rt n)
    | real x => exact absurd (h ▸ bool_keyword rt b) (real_not_keyword rt x)
    | text s => exact absurd rfl (hw s)
  | int n =>
    cases w with
    | null => exact absurd (h ▸ null_keyword rt) (int_not_keyword rt n)
    | bool b => exact absurd (h ▸ bool_keyword rt b) (int_not_keyword rt n)
    | int m => rw [Int.repr_injective (String.toList_inj.1 h)]
    | real x => exact absurd h.symm (rt.ne_int x n)
    | text s => exact absurd rfl (hw s)
  | real x =>
    cases w with
    | null => exact absurd (h ▸ null_keyword rt) (real_not_keyword rt x)
    | bool b => exact absurd (h ▸ bool_keyword rt b) (real_not_keyword rt x)
    | int n => exact absurd h (rt.ne_int x n)
    | real y => rw [rt.injective h]
    | text s => exact absurd rfl (hw s)
  | text s => exact absurd rfl (hv s)

/-- A list ends at the first element that satisfies `p`. -/
theorem append_stop {α : Type} {p : α → Bool} {l l' x x' : List α} {c c' : α} (hl : ∀ a ∈ l, p a = false)
    (hl' : ∀ a ∈ l', p a = false)
    (hc : p c = true) (hc' : p c' = true) (h : l ++ c :: x = l' ++ c' :: x') : l = l' ∧ c :: x = c' :: x' := by
  induction l generalizing l' with
  | nil =>
    cases l' with
    | nil => exact ⟨rfl, h⟩
    | cons a l' =>
      rw [(List.cons.inj h).1, hl' a List.mem_cons_self] at hc
      cases hc
  | cons a l ih =>
    cases l' with
    | nil =>
      rw [← (List.cons.inj h).1, hl a List.mem_cons_self] at hc'
      cases hc'
    | cons a' l' =>
      obtain ⟨rfl, hrest⟩ := List.cons.inj h
      obtain ⟨rfl, hx⟩ := ih (fun b hb => hl b (List.mem_cons_of_mem a hb))
        (fun b hb => hl' b (List.mem_cons_of_mem a hb)) hrest
      exact ⟨rfl, hx⟩

/-- A value ends at the comma or the bracket after it. -/
theorem value_append {v w : Value R} {x x' : List Char} {c c' : Char} (hc : stops c = true) (hc' : stops c' = true)
    (h : rt.value v ++ c :: x = rt.value w ++ c' :: x') : v = w ∧ c :: x = c' :: x' := by
  by_cases hv : ∃ s, v = .text s
  · obtain ⟨s, rfl⟩ := hv
    by_cases hw : ∃ s', w = .text s'
    · obtain ⟨s', rfl⟩ := hw
      obtain ⟨hs, hx⟩ := quoted_append h
      exact ⟨by rw [String.toList_inj.1 hs], hx⟩
    · exact absurd h.symm (value_ne_quote rt (not_exists.1 hw))
  · by_cases hw : ∃ s', w = .text s'
    · obtain ⟨s', rfl⟩ := hw
      exact absurd h (value_ne_quote rt (not_exists.1 hv))
    · have hplain : ∀ {u : Value R}, (¬ ∃ s, u = .text s) → ∀ d ∈ rt.value u, stops d = false := fun hu d hd =>
        (value_plain rt (not_exists.1 hu) hd).1
      obtain ⟨he, hx⟩ := append_stop (hplain hv) (hplain hw) hc hc' h
      exact ⟨value_injective rt (not_exists.1 hv) (not_exists.1 hw) he, hx⟩

/-! ## Arrays -/

def RealText.items : List (Value R) → List Char
  | [] => [']']
  | [v] => rt.value v ++ [']']
  | v :: w :: vs => rt.value v ++ ',' :: RealText.items (w :: vs)

def RealText.array (vs : List (Value R)) : List Char := '[' :: rt.items vs

theorem items_append {vs ws : List (Value R)} {x x' : List Char} (h : rt.items vs ++ x = rt.items ws ++ x') :
    vs = ws ∧ x = x' := by
  have hcomma : stops ',' = true := rfl
  have hclose : stops ']' = true := rfl
  -- one value, and a value followed by another
  have hone : ∀ {v w : Value R} {y y' : List Char}, rt.value v ++ ']' :: y ≠ rt.value w ++ ',' :: y' := fun he => by
    cases (List.cons.inj (value_append rt hclose hcomma he).2).1
  induction vs generalizing ws with
  | nil =>
    match ws with
    | [] => exact ⟨rfl, (List.cons.inj h).2⟩
    | [w] =>
      simp only [RealText.items, List.append_assoc, List.singleton_append] at h
      exact absurd h.symm (value_ne_bracket rt)
    | w :: w' :: ws =>
      simp only [RealText.items, List.append_assoc, List.cons_append] at h
      exact absurd h.symm (value_ne_bracket rt)
  | cons v vs ih =>
    match vs, ws with
    | [], [] =>
      simp only [RealText.items, List.append_assoc, List.singleton_append] at h
      exact absurd h (value_ne_bracket rt)
    | v' :: vs, [] =>
      simp only [RealText.items, List.append_assoc, List.cons_append, List.nil_append] at h
      exact absurd h (value_ne_bracket rt)
    | [], [w] =>
      simp only [RealText.items, List.append_assoc, List.singleton_append] at h
      obtain ⟨rfl, hx⟩ := value_append rt hclose hclose h
      exact ⟨rfl, (List.cons.inj hx).2⟩
    | [], w :: w' :: ws =>
      simp only [RealText.items, List.append_assoc, List.cons_append, List.nil_append] at h
      exact absurd h hone
    | v' :: vs, [w] =>
      simp only [RealText.items, List.append_assoc, List.cons_append, List.nil_append] at h
      exact absurd h.symm hone
    | v' :: vs, w :: w' :: ws =>
      simp only [RealText.items, List.append_assoc, List.cons_append] at h
      obtain ⟨rfl, hx⟩ := value_append rt hcomma hcomma h
      obtain ⟨hvs, hx⟩ := ih (List.cons.inj hx).2
      exact ⟨by rw [hvs], hx⟩

/-- An array ends at its own bracket. -/
theorem array_append {vs ws : List (Value R)} {x x' : List Char} (h : rt.array vs ++ x = rt.array ws ++ x') :
    vs = ws ∧ x = x' :=
  items_append rt (List.cons.inj h).2

/-- The arrays, a line each. -/
def RealText.lines (rows : List (List (Value R))) : List Char := rows.flatMap fun row => rt.array row ++ ['\n']

/-- **Two lists of arrays are never written alike.** -/
theorem lines_injective : Function.Injective rt.lines := by
  intro l m h
  induction l generalizing m with
  | nil =>
    cases m with
    | nil => rfl
    | cons r m => cases h
  | cons r l ih =>
    cases m with
    | nil => cases h
    | cons r' m =>
      simp only [RealText.lines, List.flatMap_cons, List.append_assoc] at h
      obtain ⟨rfl, hrest⟩ := array_append rt h
      rw [ih (List.cons.inj hrest).2]

end FlatJson

import Mathlib.Data.List.DropRight
import Mathlib.Tactic.Common
/-!
# UTF-8 in a field of fixed width

`encode` writes characters, `decode` reads them and passes over what is none. `backOff` makes of the first bytes
of a text one that does not end inside a character (`backOff_take`): it goes back over continuation bytes and
over one lead byte. The bytes of a character that ends the field exactly go too, where they are more than one, and
then what is left is not the longest prefix that fits (`keep_eq_fits_iff`).
-/

namespace Utf8

def encode (l : List Char) : List UInt8 := l.flatMap String.utf8EncodeChar

/-- The characters of `b`; a byte that starts none is passed over. -/
def decode (b : List UInt8) : List Char :=
  match b with
  | [] => []
  | x :: rest =>
    match ByteArray.utf8DecodeChar? (x :: rest).toByteArray 0 with
    | some c => c :: decode (rest.drop (c.utf8Size - 1))
    | none => decode rest
termination_by b.length

@[simp] theorem encode_nil : encode [] = [] := rfl

@[simp] theorem encode_cons (c : Char) (l : List Char) : encode (c :: l) = String.utf8EncodeChar c ++
    encode l := List.flatMap_cons

@[simp] theorem encode_append (l m : List Char) : encode (l ++ m) = encode l ++ encode m := List.flatMap_append

/-- `10xxxxxx`. -/
def isCont (x : UInt8) : Bool := x &&& 0xC0 == 0x80

/-- `11xxxxxx`. -/
def isLead (x : UInt8) : Bool := x &&& 0xC0 == 0xC0

theorem isCont_ofNat : ∀ n < 64, isCont (UInt8.ofNat (n + 128)) = true := by decide +kernel

theorem isLead_ofNat : ∀ n < 256, 192 ≤ n → isLead (UInt8.ofNat n) = true := by decide +kernel

theorem ascii_ofNat : ∀ n < 128, isCont (UInt8.ofNat n) = false ∧ isLead (UInt8.ofNat n) = false := by decide +kernel

theorem not_isCont_of_isLead {x : UInt8} (h : isLead x = true) : isCont x = false := by
  simp only [isLead, isCont, beq_iff_eq] at h ⊢
  rw [h]
  rfl

theorem ne_zero_of_isCont {x : UInt8} (h : isCont x = true) : x ≠ 0 := by
  rintro rfl
  cases h

/-- One byte below 128, or a lead byte and continuation bytes. -/
inductive Shape (c : Char) : List UInt8 → Prop
  | ascii (x : UInt8) : isCont x = false → isLead x = false → (x = 0 ↔ c = '\x00') → Shape c [x]
  | multi (x : UInt8) (t : List UInt8) : isLead x = true → t ≠ [] → (∀ y ∈ t, isCont y = true) → c ≠ '\x00' → Shape c (x :: t)

theorem shape (c : Char) : Shape c (String.utf8EncodeChar c) := by
  have hcont (n : ℕ) : isCont (UInt8.ofNat (n % 64 + 128)) = true := isCont_ofNat _ (Nat.mod_lt _ (by decide))
  have hzero : c = '\x00' ↔ c.val.toNat = 0 := by
    rw [← UInt32.toNat_inj.trans Char.ext_iff.symm]
    exact Iff.rfl
  simp only [String.utf8EncodeChar]
  generalize c.val.toNat = v at *
  split
  case isTrue h =>
    obtain ⟨hc, hl⟩ := ascii_ofNat v (by omega)
    refine .ascii _ hc hl ?_
    rw [hzero, ← UInt8.toNat_inj, UInt8.toNat_ofNat', UInt8.toNat_zero]
    omega
  case isFalse h1 =>
    have hne : c ≠ '\x00' := fun h0 => by have := hzero.1 h0; omega
    split
    case isTrue h2 => exact .multi _ _ (isLead_ofNat _ (by omega) (by omega)) (List.cons_ne_nil _ _) (List.forall_mem_singleton.2 (hcont _)) hne
    case isFalse h2 =>
      split
      case isTrue h3 =>
        exact .multi _ _ (isLead_ofNat _ (by omega) (by omega)) (List.cons_ne_nil _ _)
          (List.forall_mem_cons.2 ⟨hcont _, List.forall_mem_singleton.2 (hcont _)⟩) hne
      case isFalse h3 =>
        exact .multi _ _ (isLead_ofNat _ (by omega) (by omega)) (List.cons_ne_nil _ _)
          (List.forall_mem_cons.2 ⟨hcont _, List.forall_mem_cons.2 ⟨hcont _, List.forall_mem_singleton.2 (hcont _)⟩⟩)
            hne

/-! ## What is written is read -/

theorem decode_char (c : Char) (b : List UInt8) : decode (String.utf8EncodeChar c ++ b) = c :: decode b := by
  have hread : ByteArray.utf8DecodeChar? (String.utf8EncodeChar c ++ b).toByteArray 0 = some c := by
    rw [List.toByteArray_append]
    exact ByteArray.utf8DecodeChar?_utf8EncodeChar_append
  have hlen := String.length_utf8EncodeChar c
  have hpos := c.utf8Size_pos
  cases he : String.utf8EncodeChar c with
  | nil =>
    rw [he, List.length_nil] at hlen
    omega
  | cons x t =>
    rw [he, List.cons_append] at hread
    rw [he, List.length_cons] at hlen
    rw [List.cons_append, decode, hread]
    simp only [List.cons.injEq, true_and]
    rw [List.drop_left' (by omega)]

theorem decode_encode (l : List Char) : decode (encode l) = l := by
  induction l with
  | nil => rw [encode_nil, decode]
  | cons c l ih => rw [encode_cons, decode_char, ih]

/-! ## Cutting between characters -/

/-- Back over continuation bytes, and over one lead byte. -/
def backOff (b : List UInt8) : List UInt8 :=
  let b := b.rdropWhile isCont
  if b.getLast?.any isLead then b.dropLast else b

/-- The characters that `backOff` leaves of the first `n` bytes of a longer text. -/
def keep : ℕ → List Char → List Char
  | _, [] => []
  | n, c :: l => if n < c.utf8Size ∨ n = c.utf8Size ∧ 1 < n then [] else c :: keep (n - c.utf8Size) l

@[simp] theorem keep_zero (l : List Char) : keep 0 l = [] := by
  cases l with
  | nil => rfl
  | cons c l => exact if_pos (.inl c.utf8Size_pos)

theorem keep_prefix (n : ℕ) (l : List Char) : keep n l <+: l := by
  induction l generalizing n with
  | nil => exact List.nil_prefix
  | cons c l ih =>
    rw [keep]
    split
    · exact List.nil_prefix
    · exact List.cons_prefix_cons.2 ⟨rfl, ih _⟩

/-- What begins a character stops it. -/
theorem backOff_append {b : List UInt8} {x : UInt8} (h : isCont x = false) (a : List UInt8) :
    backOff (a ++ x :: b) = a ++ backOff (x :: b) := by
  have hdrop : ∀ b : List UInt8, ∃ r, (x :: b).rdropWhile isCont = x :: r ∧
      (a ++ x :: b).rdropWhile isCont = a ++ x :: r := by
    intro b
    induction b using List.reverseRecOn with
    | nil => exact ⟨[], List.rdropWhile_concat_neg _ [] x (by simp [h]), List.rdropWhile_concat_neg _ a x (by simp [h])⟩
    | append_singleton b y ih =>
      have hcons : x :: (b ++ [y]) = (x :: b) ++ [y] := rfl
      rw [hcons, ← List.append_assoc]
      by_cases hy : isCont y = true
      · rw [List.rdropWhile_concat_pos _ _ _ hy, List.rdropWhile_concat_pos _ _ _ hy]
        exact ih
      · rw [List.rdropWhile_concat_neg _ _ _ hy, List.rdropWhile_concat_neg _ _ _ hy]
        exact ⟨b ++ [y], rfl, by simp⟩
  obtain ⟨r, hr, har⟩ := hdrop b
  simp only [backOff, hr, har]
  rw [List.getLast?_append_of_ne_nil _ (by simp)]
  split
  · rw [List.dropLast_append_of_ne_nil (by simp)]
  · rfl

/-- A lead byte and continuation bytes go. -/
theorem backOff_multi {x : UInt8} {t : List UInt8} (hx : isLead x = true) (ht : ∀ y ∈ t, isCont y = true) :
    backOff (x :: t) = [] := by
  have hdrop : (x :: t).rdropWhile isCont = [x] := by
    have hcont := not_isCont_of_isLead hx
    induction t using List.reverseRecOn with
    | nil => exact List.rdropWhile_concat_neg _ [] x (by simp [hcont])
    | append_singleton t y ih =>
      have hcons : x :: (t ++ [y]) = (x :: t) ++ [y] := rfl
      rw [hcons, List.rdropWhile_concat_pos _ _ _ (ht y (by simp))]
      exact ih fun z hz => ht z (by simp [hz])
  simp [backOff, hdrop, hx]

/-- The first byte of what is left to write. -/
theorem encode_head (c : Char) (l : List Char) : ∃ x t, encode (c :: l) = x :: t ∧ isCont x = false := by
  rw [encode_cons]
  cases he : String.utf8EncodeChar c with
  | nil => have := String.length_utf8EncodeChar c; have := c.utf8Size_pos; simp_all
  | cons x t =>
    have hshape := shape c
    rw [he] at hshape
    cases hshape with
    | ascii _ hc _ _ => exact ⟨x, encode l, rfl, hc⟩
    | multi _ _ hl _ _ _ => exact ⟨x, t ++ encode l, rfl, not_isCont_of_isLead hl⟩

/-- The bytes of a character, cut. -/
theorem backOff_char (c : Char) (n : ℕ) : backOff ((String.utf8EncodeChar c).take n) = if n < c.utf8Size ∨
    1 < c.utf8Size then [] else String.utf8EncodeChar c := by
  have hlen := String.length_utf8EncodeChar c
  have hshape := shape c
  generalize String.utf8EncodeChar c = b at hshape hlen
  cases n with
  | zero => simp [backOff, c.utf8Size_pos]
  | succ n =>
    cases hshape with
    | ascii x hc hl _ =>
      simp only [List.length_singleton] at hlen
      have hx := List.rdropWhile_concat_neg isCont [] x (by simp [hc])
      simp only [List.nil_append] at hx
      simp [← hlen, backOff, hx, hl]
    | multi x t hl hne ht _ =>
      have hpos := List.length_pos_iff.2 hne
      rw [List.length_cons] at hlen
      rw [if_pos (.inr (by omega)), List.take_succ_cons]
      exact backOff_multi hl fun y hy => ht y (List.mem_of_mem_take hy)

/-- **A text cut between characters.** -/
theorem backOff_take {l : List Char} {n : ℕ} (h : n < (encode l).length) :
    backOff ((encode l).take n) = encode (keep n l) := by
  induction l generalizing n with
  | nil => cases h
  | cons c l ih =>
    have hlen := String.length_utf8EncodeChar c
    have hpos := c.utf8Size_pos
    rw [encode_cons, List.take_append, hlen]
    rw [encode_cons, List.length_append, hlen] at h
    rcases Nat.lt_or_ge c.utf8Size n with hlt | hge
    · -- the next character begins within the field
      obtain ⟨d, m, rfl⟩ : ∃ d m, l = d :: m := List.exists_cons_of_ne_nil (by rintro rfl; simp at h; omega)
      obtain ⟨x, t, hx, hc⟩ := encode_head d m
      have hrest : (encode (d :: m)).take (n - c.utf8Size) = x :: t.take (n - c.utf8Size - 1) := by
        rw [hx, ← Nat.sub_add_cancel (by omega : 1 ≤ n - c.utf8Size), List.take_succ_cons, Nat.add_sub_cancel]
      have hcut := @ih (n - c.utf8Size) (by omega)
      rw [hrest] at hcut ⊢
      have hkeep : keep n (c :: d :: m) = c :: keep (n - c.utf8Size) (d :: m) := if_neg (by omega)
      rw [backOff_append hc, hcut, List.take_of_length_le (by omega), hkeep, encode_cons]
    · -- it does not: the character is cut, or the last one
      rw [Nat.sub_eq_zero_of_le hge, List.take_zero, List.append_nil, backOff_char, keep]
      by_cases hgoes : n < c.utf8Size ∨ n = c.utf8Size ∧ 1 < n
      · rw [if_pos (by omega), if_pos hgoes, encode_nil]
      · rw [if_neg (by omega), if_neg hgoes, Nat.sub_eq_zero_of_le hge, keep_zero, encode_cons, encode_nil,
          List.append_nil]

theorem backOff_prefix (b : List UInt8) : backOff b <+: b := by
  have hdrop := List.rdropWhile_prefix isCont b
  rw [backOff]
  split
  · exact (List.dropLast_prefix _).trans hdrop
  · exact hdrop

/-! ## The longest prefix that fits -/

/-- The prefix of `l` that fits in `n` bytes and that every prefix that fits is a prefix of. -/
def Longest (n : ℕ) (l p : List Char) : Prop :=
  (p <+: l ∧ (encode p).length ≤ n) ∧ ∀ q, q <+: l → (encode q).length ≤ n → q <+: p

def fits : ℕ → List Char → List Char
  | _, [] => []
  | n, c :: l => if c.utf8Size ≤ n then c :: fits (n - c.utf8Size) l else []

theorem encode_cons_length (c : Char) (l : List Char) : (encode (c :: l)).length = c.utf8Size + (encode l).length := by
  rw [encode_cons, List.length_append, String.length_utf8EncodeChar]

theorem longest_fits (n : ℕ) (l : List Char) : Longest n l (fits n l) := by
  induction l generalizing n with
  | nil => exact ⟨⟨List.prefix_rfl, Nat.zero_le n⟩, fun q hq _ => hq⟩
  | cons c l ih =>
    rw [fits]
    split
    · rename_i hle
      obtain ⟨⟨hpre, hlen⟩, hmax⟩ := ih (n - c.utf8Size)
      refine ⟨⟨List.cons_prefix_cons.2 ⟨rfl, hpre⟩, ?_⟩, fun q hq hfit => ?_⟩
      · rw [encode_cons_length]
        omega
      · cases q with
        | nil => exact List.nil_prefix
        | cons d q =>
          obtain ⟨rfl, htail⟩ := List.cons_prefix_cons.1 hq
          rw [encode_cons_length] at hfit
          exact List.cons_prefix_cons.2 ⟨rfl, hmax q htail (by omega)⟩
    · rename_i hlt
      refine ⟨⟨List.nil_prefix, Nat.zero_le n⟩, fun q hq hfit => ?_⟩
      cases q with
      | nil => exact List.nil_prefix
      | cons d q =>
        obtain ⟨rfl, -⟩ := List.cons_prefix_cons.1 hq
        rw [encode_cons_length] at hfit
        omega

theorem Longest.unique {n : ℕ} {l p q : List Char} (hp : Longest n l p) (hq : Longest n l q) : p = q :=
  List.IsPrefix.eq_of_length_le (hq.2 p hp.1.1 hp.1.2) (hp.2 q hq.1.1 hq.1.2).length_le

theorem longest_iff {n : ℕ} {l p : List Char} : Longest n l p ↔ p = fits n l :=
  ⟨fun h => h.unique (longest_fits n l), fun h => h ▸ longest_fits n l⟩

theorem fits_of_length {n : ℕ} {l : List Char} (h : (encode l).length ≤ n) : fits n l = l :=
  (longest_iff.1 ⟨⟨List.prefix_rfl, h⟩, fun _ hq _ => hq⟩).symm

/-- A prefix fills the `n` bytes, and its last character takes more than one of them. -/
def EndsWide (n : ℕ) (l : List Char) : Prop := ∃ q c, q ++ [c] <+: l ∧ (encode (q ++ [c])).length = n ∧ 1 < c.utf8Size

theorem endsWide_cons {n : ℕ} {c : Char} {l : List Char} :
    EndsWide n (c :: l) ↔ (n = c.utf8Size ∧ 1 < n) ∨ (c.utf8Size ≤ n ∧ EndsWide (n - c.utf8Size) l) := by
  constructor
  · rintro ⟨q, d, hpre, hlen, hwide⟩
    cases q with
    | nil =>
      obtain ⟨rfl, -⟩ := List.cons_prefix_cons.1 hpre
      rw [List.nil_append, encode_cons_length, encode_nil, List.length_nil] at hlen
      exact .inl (by omega)
    | cons e q =>
      obtain ⟨rfl, htail⟩ := List.cons_prefix_cons.1 hpre
      rw [List.cons_append, encode_cons_length] at hlen
      exact .inr ⟨by omega, q, d, htail, by omega, hwide⟩
  · rintro (⟨rfl, hwide⟩ | ⟨hle, q, d, hpre, hlen, hwide⟩)
    · exact ⟨[], c, List.cons_prefix_cons.2 ⟨rfl, List.nil_prefix⟩, by simp, hwide⟩
    · refine ⟨c :: q, d, List.cons_prefix_cons.2 ⟨rfl, hpre⟩, ?_, hwide⟩
      rw [List.cons_append, encode_cons_length]
      omega

/-- **What `backOff` keeps is the longest prefix, unless that one fills the bytes with a wide character.** -/
theorem keep_eq_fits_iff (n : ℕ) (l : List Char) : keep n l = fits n l ↔ ¬ EndsWide n l := by
  induction l generalizing n with
  | nil => exact iff_of_true rfl fun ⟨q, c, hpre, _⟩ => by simpa using List.prefix_nil.1 hpre
  | cons c l ih =>
    rw [endsWide_cons, keep, fits]
    by_cases hle : c.utf8Size ≤ n
    · rw [if_pos hle]
      by_cases hend : n = c.utf8Size ∧ 1 < n
      · rw [if_pos (.inr hend)]
        exact iff_of_false (List.cons_ne_nil _ _).symm (not_not.2 (.inl hend))
      · rw [if_neg (by omega), List.cons_inj_right, ih]
        simp [hend, hle]
    · rw [if_neg hle, if_pos (.inl (by omega))]
      exact iff_of_true rfl (by rintro (h | h) <;> omega)

/-! ## Zero bytes at the end -/

theorem rdropWhile_zero_encode (l : List Char) :
    (encode l).rdropWhile (· == 0) = encode (l.rdropWhile (· == '\x00')) := by
  induction l using List.reverseRecOn with
  | nil => rfl
  | append_singleton l c ih =>
    rw [encode_append, encode_cons, encode_nil, List.append_nil]
    have hshape := shape c
    by_cases hzero : c = '\x00'
    · subst hzero
      rw [List.rdropWhile_concat_pos _ _ _ rfl, ← ih]
      exact List.rdropWhile_concat_pos (fun x : UInt8 => x == 0) (encode l) 0 rfl
    · rw [List.rdropWhile_concat_neg _ _ _ (by simpa using hzero), encode_append, encode_cons, encode_nil,
        List.append_nil]
      generalize String.utf8EncodeChar c = b at hshape
      -- the last byte of a character that is not NUL is not 0
      obtain ⟨t, y, rfl, hy⟩ : ∃ t y, b = t ++ [y] ∧ y ≠ 0 := by
        cases hshape with
        | ascii x _ _ hx => exact ⟨[], x, rfl, fun h0 => hzero (hx.1 h0)⟩
        | multi x t _ hne ht _ => exact ⟨x :: t.dropLast, t.getLast hne, by simp [List.dropLast_concat_getLast],
            ne_zero_of_isCont (ht _ (List.getLast_mem hne))⟩
      rw [← List.append_assoc]
      exact List.rdropWhile_concat_neg _ _ _ (by simpa using hy)

end Utf8

import Mathlib.Data.List.Lex
import Mathlib.Data.List.Pairwise
import Mathlib.Data.List.Sort
import Mathlib.Order.WithBot
/-!
# `ORDER BY` with NULLs first and with NULLs last

A row is ordered by a list of columns, each a value or NULL. One database sorts NULLs before every
value, another after. The two lists are the same exactly when in no two rows the first column that
differs is NULL in one of them (`NullDecides`); ties need no rule where equal keys mean equal rows.
-/

namespace OrderBy

variable {V α K L : Type} [LinearOrder V] [LinearOrder K] [LinearOrder L]

def nullFirst : Option V → WithBot V
  | none => ⊥
  | some v => (v : WithBot V)

def nullLast : Option V → WithTop V
  | none => ⊤
  | some v => (v : WithTop V)

def nullsFirst (k : List (Option V)) : List (WithBot V) := k.map nullFirst

def nullsLast (k : List (Option V)) : List (WithTop V) := k.map nullLast

/-- At the first column where the two rows differ, one of them is NULL. -/
def NullDecides : List (Option V) → List (Option V) → Prop
  | a :: as, b :: bs => if a = b then NullDecides as bs else a = none ∨ b = none
  | _, _ => False

instance decidableNullDecides : ∀ a b : List (Option V), Decidable (NullDecides a b)
  | [], _ => .isFalse id
  | _ :: _, [] => .isFalse id
  | a :: as, b :: bs =>
    if h : a = b then
      have := decidableNullDecides as bs
      decidable_of_iff (NullDecides as bs) (by simp [NullDecides, h])
    else decidable_of_iff (a = none ∨ b = none) (by simp [NullDecides, h])

theorem nullFirst_lt_iff {a b : Option V} (ha : a ≠ none) (hb : b ≠ none) : nullFirst a < nullFirst b ↔
    nullLast a < nullLast b := by
  obtain ⟨v, rfl⟩ := Option.ne_none_iff_exists'.1 ha
  obtain ⟨w, rfl⟩ := Option.ne_none_iff_exists'.1 hb
  simp only [nullFirst, nullLast, WithBot.coe_lt_coe, WithTop.coe_lt_coe]

omit [LinearOrder V] in
theorem nullFirst_injective : Function.Injective (nullFirst : Option V → WithBot V) := by
  intro a b h
  cases a <;> cases b <;> simp_all [nullFirst]

omit [LinearOrder V] in
theorem nullLast_injective : Function.Injective (nullLast : Option V → WithTop V) := by
  intro a b h
  cases a <;> cases b <;> simp_all [nullLast]

/-- The two orders agree on two rows in which no NULL decides. -/
theorem nullsFirst_lt_iff {a b : List (Option V)} (h : ¬ NullDecides a b) :
    nullsFirst a < nullsFirst b ↔ nullsLast a < nullsLast b := by
  induction a generalizing b with
  | nil => cases b <;> simp [nullsFirst, nullsLast]
  | cons x as ih =>
    cases b with
    | nil => simp [nullsFirst, nullsLast]
    | cons y bs =>
      simp only [nullsFirst, nullsLast, List.map_cons, List.cons_lt_cons_iff]
      by_cases hxy : x = y
      · have ht : ¬ NullDecides as bs := by simpa [NullDecides, hxy] using h
        simp only [hxy, lt_irrefl, true_and, false_or]
        exact ih ht
      · have hn : x ≠ none ∧ y ≠ none := by simpa [NullDecides, hxy, not_or] using h
        rw [nullFirst_lt_iff hn.1 hn.2]
        simp only [nullFirst_injective.ne hxy, nullLast_injective.ne hxy, false_and]

/-- Where a NULL decides, the two orders are opposite. -/
theorem opposite_of_nullDecides {a b : List (Option V)} (h : NullDecides a b) :
    (nullsFirst a < nullsFirst b ∧ nullsLast b < nullsLast a) ∨
      (nullsFirst b < nullsFirst a ∧ nullsLast a < nullsLast b) := by
  induction a generalizing b with
  | nil => cases h
  | cons x as ih =>
    cases b with
    | nil => cases h
    | cons y bs =>
      simp only [nullsFirst, nullsLast, List.map_cons, List.cons_lt_cons_iff]
      by_cases hxy : x = y
      · have ht : NullDecides as bs := by simpa [NullDecides, hxy] using h
        simp only [hxy, lt_irrefl, true_and, false_or]
        exact ih ht
      · have hn : x = none ∨ y = none := by simpa [NullDecides, hxy] using h
        cases x with
        | none =>
          obtain ⟨w, rfl⟩ := Option.ne_none_iff_exists'.1 fun h => hxy h.symm
          exact .inl ⟨.inl (WithBot.bot_lt_coe w), .inl (WithTop.coe_lt_top w)⟩
        | some v =>
          have hy : y = none := by simpa using hn
          subst hy
          exact .inr ⟨.inl (WithBot.bot_lt_coe v), .inl (WithTop.coe_lt_top v)⟩

/-- Columns without NULLs that tell the rows apart decide alike, whatever follows. -/
theorem nullsFirst_append_lt_iff {p q : List (Option V)} (hlen : p.length = q.length) (hne : p ≠ q)
    (hp : none ∉ p) (hq : none ∉ q) (u w u' w' : List (Option V)) :
    nullsFirst (p ++ u) < nullsFirst (q ++ w) ↔ nullsLast (p ++ u') < nullsLast (q ++ w') := by
  induction p generalizing q with
  | nil =>
    cases q with
    | nil => exact absurd rfl hne
    | cons y q => cases hlen
  | cons x p ih =>
    cases q with
    | nil => cases hlen
    | cons y q =>
      simp only [List.mem_cons, not_or] at hp hq
      simp only [nullsFirst, nullsLast, List.cons_append, List.map_cons, List.cons_lt_cons_iff]
      by_cases hxy : x = y
      · have hpq : p ≠ q := fun h => hne (by rw [hxy, h])
        simp only [hxy, lt_irrefl, true_and, false_or]
        exact ih (by simpa using hlen) hpq hp.2 hq.2
      · rw [nullFirst_lt_iff (Ne.symm hp.1) (Ne.symm hq.1)]
        simp only [nullFirst_injective.ne hxy, nullLast_injective.ne hxy, false_and]

theorem not_nullDecides_append {p q : List (Option V)} (hlen : p.length = q.length) (hne : p ≠ q)
    (hp : none ∉ p) (hq : none ∉ q) (u w : List (Option V)) : ¬ NullDecides (p ++ u) (q ++ w) := by
  induction p generalizing q with
  | nil =>
    cases q with
    | nil => exact absurd rfl hne
    | cons y q => cases hlen
  | cons x p ih =>
    cases q with
    | nil => cases hlen
    | cons y q =>
      simp only [List.mem_cons, not_or] at hp hq
      simp only [List.cons_append, NullDecides]
      split
      · rename_i hxy
        exact ih (by simpa using hlen) (fun h => hne (by rw [hxy, h])) hp.2 hq.2
      · exact fun h => h.elim (Ne.symm hp.1) (Ne.symm hq.1)

theorem not_nullDecides_self (a : List (Option V)) : ¬ NullDecides a a := by
  induction a with
  | nil => exact id
  | cons x a ih =>
    rw [NullDecides, if_pos rfl]
    exact ih

/-! ## Sorted lists -/

theorem pairwise_insertionSort_key (f : α → K) (l : List α) :
    (l.insertionSort fun a b => f a ≤ f b).Pairwise fun a b => f a ≤ f b := by
  have htotal : Std.Total fun a b => f a ≤ f b := ⟨fun a b => le_total (f a) (f b)⟩
  have htrans : IsTrans α fun a b => f a ≤ f b := ⟨fun _ _ _ => le_trans⟩
  exact List.pairwise_insertionSort (fun a b => f a ≤ f b) l

/-- Two sorted arrangements of the same rows are equal where the key tells the rows apart. -/
theorem sorted_unique {f : α → K} {l m : List α} (hp : l.Perm m) (hl : l.Pairwise fun a b => f a ≤ f b)
    (hm : m.Pairwise fun a b => f a ≤ f b) (hinj : ∀ a ∈ l, ∀ b ∈ l, f a = f b → a = b) : l = m := by
  have hanti : ∀ a b, a ∈ l → b ∈ m → f a ≤ f b → f b ≤ f a → a = b := fun a b ha hb hab hba =>
    hinj a ha b (hp.mem_iff.2 hb) (le_antisymm hab hba)
  exact List.Perm.eq_of_pairwise hanti hl hm hp

/-- A list sorted by one key is sorted by another that agrees with it on the rows. -/
theorem sorted_of_agree {f : α → K} {g : α → L} {l : List α} (hl : l.Pairwise fun a b => f a ≤ f b)
    (h : ∀ a ∈ l, ∀ b ∈ l, f b < f a ↔ g b < g a) : l.Pairwise fun a b => g a ≤ g b :=
  hl.imp_of_mem fun {a b} ha hb hab => not_lt.1 fun hlt => absurd ((h a ha b hb).2 hlt) (not_lt.2 hab)

/-- No list is sorted by two keys that put two of its rows in opposite order. -/
theorem not_sorted_of_opposite {f : α → K} {g : α → L} {l : List α} {a b : α} (hf : l.Pairwise fun a b => f a ≤ f b)
    (hg : l.Pairwise fun a b => g a ≤ g b) (ha : a ∈ l) (hb : b ∈ l) (hab : f a < f b) : ¬ g b < g a := by
  intro hba
  let R := fun x y => (f x ≤ f y ∧ g x ≤ g y) ∨ (f y ≤ f x ∧ g y ≤ g x)
  have hR : l.Pairwise R := (hf.and hg).imp Or.inl
  have hsymm : Std.Symm R := ⟨fun _ _ h => h.symm⟩
  have hrefl : ∀ x ∈ l, R x x := fun x _ => .inl ⟨le_refl _, le_refl _⟩
  rcases hR.forall_of_forall hrefl ha hb with ⟨-, h⟩ | ⟨h, -⟩
  · exact not_lt.2 h hba
  · exact not_lt.2 h hab

end OrderBy

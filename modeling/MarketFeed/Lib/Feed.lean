import Mathlib.Data.List.Basic
import Mathlib.Tactic.Common
/-!
# A numbered feed with holes

A receiver that passes on a numbered feed in order has, at every position from its start on, either the
item of that number or a hole it gave up on. `items` are the items in order, `holes` the numbers given up.
-/

namespace Feed

variable {α : Type}

def items (l : List (Option α)) : List α := l.filterMap id

/-- The numbers without an item, the first position having number `start`. -/
def holes (start : Nat) : List (Option α) → List Nat
  | [] => []
  | none :: l => start :: holes (start + 1) l
  | some _ :: l => holes (start + 1) l


@[simp] theorem items_cons_none (l : List (Option α)) : items (none :: l) = items l := rfl

@[simp] theorem items_cons_some (a : α) (l : List (Option α)) : items (some a :: l) = a :: items l := rfl

@[simp] theorem items_append (l m : List (Option α)) : items (l ++ m) = items l ++ items m :=
  List.filterMap_append

@[simp] theorem items_replicate_none (n : Nat) : items (List.replicate n (none : Option α)) = [] := by
  induction n with
  | zero => rfl
  | succ n ih => rw [List.replicate_succ, items_cons_none, ih]

theorem mem_items {l : List (Option α)} {a : α} : a ∈ items l ↔ ∃ i : Nat, l[i]? = some (some a) := by
  simp only [items, List.mem_filterMap, id, exists_eq_right]
  exact List.mem_iff_getElem?

theorem mem_holes {start n : Nat} {l : List (Option α)} :
    n ∈ holes start l ↔ start ≤ n ∧ l[n - start]? = some none := by
  induction l generalizing start with
  | nil => simp [holes]
  | cons x l ih =>
    have htail : n ∈ holes (start + 1) l ↔ start < n ∧ (x :: l)[n - start]? = some none := by
      rw [ih]
      constructor
      · rintro ⟨hlt, h⟩
        refine ⟨hlt, ?_⟩
        rw [show n - start = (n - (start + 1)) + 1 by omega]
        exact h
      · rintro ⟨hlt, h⟩
        refine ⟨hlt, ?_⟩
        rw [show n - start = (n - (start + 1)) + 1 by omega] at h
        exact h
    cases x with
    | none =>
      simp only [holes, List.mem_cons, htail]
      constructor
      · rintro (rfl | ⟨hlt, h⟩)
        · simp
        · exact ⟨by omega, h⟩
      · rintro ⟨hle, h⟩
        rcases Nat.eq_or_lt_of_le hle with rfl | hlt
        · exact .inl rfl
        · exact .inr ⟨hlt, h⟩
    | some a =>
      simp only [holes, htail]
      constructor
      · rintro ⟨hlt, h⟩
        exact ⟨by omega, h⟩
      · rintro ⟨hle, h⟩
        rcases Nat.eq_or_lt_of_le hle with rfl | hlt
        · simp at h
        · exact ⟨hlt, h⟩

/-- Items that carry the number of their position come out in order, each number once. -/
theorem items_sorted {key : α → Nat} {start : Nat} {l : List (Option α)}
    (h : ∀ i a, l[i]? = some (some a) → key a = start + i) : ((items l).map key).Pairwise (· < ·) := by
  induction l generalizing start with
  | nil => exact List.Pairwise.nil
  | cons x l ih =>
    have htail : ∀ i a, l[i]? = some (some a) → key a = start + 1 + i := by
      intro i a hi
      have := h (i + 1) a hi
      omega
    cases x with
    | none => exact ih htail
    | some a =>
      rw [items_cons_some, List.map_cons, List.pairwise_cons]
      refine ⟨?_, ih htail⟩
      intro k hk
      obtain ⟨b, hb, rfl⟩ := List.mem_map.1 hk
      obtain ⟨i, hi⟩ := mem_items.1 hb
      have ha := h 0 a rfl
      have hb' := htail i b hi
      omega

end Feed

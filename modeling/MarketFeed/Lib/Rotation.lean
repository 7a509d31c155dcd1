import Mathlib.Data.List.Rotate
import Mathlib.Order.Defs.LinearOrder
import Mathlib.Order.Lattice
import Mathlib.Tactic.Common
/-!
# Turns around an ordered map

The keys of an ordered map are an increasing list, and an iterator an index into it. A cursor is a key of the map or
not: a turn starts at the first key that is not below it and the cursor goes on to the first key above it, both around
the end. From a key the starts of as many turns as there are keys are all of them (`starts_getElem`); from anything
else the first two are the same (`start_eq_succ`).
-/

namespace Rotation

variable {α : Type} [LinearOrder α]

def lowerBound (l : List α) (cursor : α) : ℕ := l.findIdx fun x => decide (cursor ≤ x)

def upperBound (l : List α) (cursor : α) : ℕ := l.findIdx fun x => decide (cursor < x)

/-- The end of the map is its beginning. -/
def wrap (l : List α) (i : ℕ) : ℕ := if i = l.length then 0 else i

def startIndex (l : List α) (cursor : α) : ℕ := wrap l (lowerBound l cursor)

/-- Where the cursor goes. -/
def succ (l : List α) (cursor : α) : α := (l[wrap l (upperBound l cursor)]?).getD cursor

/-- The first keys of some turns. -/
def starts (l : List α) : ℕ → α → List α
  | 0, _ => []
  | turns + 1, cursor => (l[startIndex l cursor]?).toList ++ starts l turns (succ l cursor)

variable {l : List α}

theorem lowerBound_le (l : List α) (cursor : α) : lowerBound l cursor ≤ l.length := List.findIdx_le_length

theorem upperBound_le (l : List α) (cursor : α) : upperBound l cursor ≤ l.length := List.findIdx_le_length

omit [LinearOrder α] in
theorem wrap_lt (hne : l ≠ []) {i : ℕ} (hi : i ≤ l.length) : wrap l i < l.length := by
  have hpos := List.length_pos_of_ne_nil hne
  unfold wrap
  split <;> omega

theorem startIndex_lt (hne : l ≠ []) (cursor : α) : startIndex l cursor < l.length :=
  wrap_lt hne (lowerBound_le l cursor)

omit [LinearOrder α] in
theorem wrap_succ {i : ℕ} (hi : i < l.length) : wrap l (i + 1) = (i + 1) % l.length := by
  unfold wrap
  split
  · rename_i hlast
    rw [hlast, Nat.mod_self]
  · exact (Nat.mod_eq_of_lt (by omega)).symm

/-! ## From a key -/

theorem lowerBound_getElem (h : l.Pairwise (· < ·)) {i : ℕ} (hi : i < l.length) : lowerBound l l[i] = i := by
  apply (List.findIdx_eq hi).2
  constructor
  · simp
  · intro j hj
    simpa using List.pairwise_iff_getElem.1 h j i (by omega) hi hj

theorem upperBound_getElem (h : l.Pairwise (· < ·)) {i : ℕ} (hi : i < l.length) : upperBound l l[i] = i + 1 := by
  have hbelow : ∀ j (hj : j < l.length), j ≤ i → ¬ l[i] < l[j] := by
    intro j hj hji
    rcases Nat.lt_or_eq_of_le hji with hlt | rfl
    · exact (List.pairwise_iff_getElem.1 h j i hj hi hlt).not_gt
    · exact lt_irrefl _
  by_cases hlast : i + 1 < l.length
  · apply (List.findIdx_eq hlast).2
    constructor
    · simpa using List.pairwise_iff_getElem.1 h i (i + 1) hi hlast (Nat.lt_succ_self i)
    · intro j hj
      simpa using hbelow j (by omega) (by omega)
  · have hlen : l.length = i + 1 := by omega
    rw [upperBound, ← hlen, List.findIdx_eq_length]
    intro x hx
    obtain ⟨j, hj, rfl⟩ := List.getElem_of_mem hx
    simpa using hbelow j hj (by omega)

theorem startIndex_getElem (h : l.Pairwise (· < ·)) {i : ℕ} (hi : i < l.length) : startIndex l l[i] = i := by
  rw [startIndex, lowerBound_getElem h hi, wrap, if_neg hi.ne]

theorem succ_getElem (h : l.Pairwise (· < ·)) {i j : ℕ} (hi : i < l.length) (hj : j < l.length)
    (hnext : (i + 1) % l.length = j) :
    succ l l[i] = l[j] := by
  rw [succ, upperBound_getElem h hi, wrap_succ hi, hnext, List.getElem?_eq_getElem hj, Option.getD_some]

/-- Nobody to start at. -/
theorem starts_nil (turns : ℕ) (cursor : α) : starts [] turns cursor = [] := by
  induction turns generalizing cursor with
  | zero => rfl
  | succ turns ih => simp [starts, ih]

theorem starts_length (hne : l ≠ []) (turns : ℕ) (cursor : α) : (starts l turns cursor).length = turns := by
  induction turns generalizing cursor with
  | zero => rfl
  | succ turns ih => simp [starts, ih, List.getElem?_eq_getElem (startIndex_lt hne cursor)]

theorem starts_getElem? (h : l.Pairwise (· < ·)) (turns : ℕ) {i : ℕ} (hi : i < l.length) {j : ℕ} (hj : j < turns) :
    (starts l turns l[i])[j]? = l[(j + i) % l.length]? := by
  induction turns generalizing i j with
  | zero => omega
  | succ turns ih =>
    have hnext := Nat.mod_lt (i + 1) (Nat.zero_lt_of_lt hi)
    rw [starts, startIndex_getElem h hi, List.getElem?_eq_getElem hi, Option.toList_some, List.singleton_append,
      succ_getElem h hi hnext rfl]
    cases j with
    | zero => rw [List.getElem?_cons_zero, Nat.zero_add, Nat.mod_eq_of_lt hi, List.getElem?_eq_getElem hi]
    | succ j =>
      rw [List.getElem?_cons_succ, ih _ (by omega), Nat.add_mod_mod]
      congr 2
      omega

/-- **From a key, the starts of as many turns as there are keys are the keys from there on.** -/
theorem starts_getElem (h : l.Pairwise (· < ·)) {i : ℕ} (hi : i < l.length) : starts l l.length l[i] = l.rotate i := by
  have hne := List.ne_nil_of_length_pos (Nat.zero_lt_of_lt hi)
  apply List.ext_getElem?
  intro j
  by_cases hj : j < l.length
  · rw [starts_getElem? h l.length hi hj, List.getElem?_rotate hj]
  · rw [List.getElem?_eq_none (by rw [starts_length hne]; omega),
      List.getElem?_eq_none (by rw [List.length_rotate]; omega)]

/-! ## From anything else -/

theorem lowerBound_eq_upperBound {cursor : α} (h : cursor ∉ l) : lowerBound l cursor = upperBound l cursor := by
  unfold lowerBound upperBound
  induction l with
  | nil => rfl
  | cons x l ih =>
    obtain ⟨hne, hl⟩ := not_or.1 (mt List.mem_cons.2 h)
    have hsame : decide (cursor ≤ x) = decide (cursor < x) := by
      rw [decide_eq_decide]
      exact ⟨fun hle => lt_of_le_of_ne hle hne, le_of_lt⟩
    rw [List.findIdx_cons, List.findIdx_cons, hsame, ih hl]

/-- The cursor goes to the key the turn started at. -/
theorem start_eq_succ (hne : l ≠ []) {cursor : α} (h : cursor ∉ l) :
    l[startIndex l cursor]? = some (succ l cursor) := by
  rw [startIndex, lowerBound_eq_upperBound h, succ, List.getElem?_eq_getElem (wrap_lt hne (upperBound_le l cursor)),
    Option.getD_some]

theorem succ_mem (hne : l ≠ []) (cursor : α) : succ l cursor ∈ l := by
  rw [succ, List.getElem?_eq_getElem (wrap_lt hne (upperBound_le l cursor)), Option.getD_some]
  exact List.getElem_mem _

/-- **The turns start at each key once just from a key**, or where there is no second key. -/
theorem starts_perm_iff (h : l.Pairwise (· < ·)) (cursor : α) :
    (starts l l.length cursor).Perm l ↔ l.length ≤ 1 ∨ cursor ∈ l := by
  constructor
  · intro hperm
    by_contra hnot
    rw [not_or] at hnot
    have hne : l ≠ [] := fun hnil => hnot.1 (by simp [hnil])
    obtain ⟨turns, hturns⟩ : ∃ turns, l.length = turns + 2 := ⟨l.length - 2, by omega⟩
    -- the first two turns start at the same key
    obtain ⟨i, hi, hkey⟩ := List.getElem_of_mem (succ_mem hne cursor)
    have hagain : l[startIndex l (succ l cursor)]? = some (succ l cursor) := by
      rw [← hkey, startIndex_getElem h hi, List.getElem?_eq_getElem hi]
    have hnodup := hperm.nodup_iff.2 (h.imp ne_of_lt)
    rw [hturns, starts, starts, start_eq_succ hne hnot.2, hagain] at hnodup
    simp at hnodup
  · rintro (hone | hmem)
    · match l, hone with
      | [], _ => exact List.Perm.refl _
      | [x], _ =>
        have hindex := startIndex_lt (List.cons_ne_nil x []) cursor
        have hzero : startIndex [x] cursor = 0 := Nat.lt_one_iff.1 hindex
        simp [starts, hzero]
    · obtain ⟨i, hi, rfl⟩ := List.getElem_of_mem hmem
      rw [starts_getElem h hi]
      exact List.rotate_perm l i

end Rotation

import Mathlib.Algebra.BigOperators.Group.List.Basic
import Mathlib.Algebra.Order.BigOperators.Group.List
import Mathlib.Algebra.Order.Field.Basic
import Mathlib.Data.List.DropRight
import Mathlib.Tactic.FieldSimp
import Mathlib.Tactic.Linarith
import Mathlib.Tactic.Ring
/-!
# Windows and recurrences over a growing list

The window of a series is its last `n` values (`List.rtake`). A full window loses its oldest value when one comes in
(`rtake_concat_full`), so a sum over it can be kept up by one subtraction and one addition. A recurrence that starts
from the mean of the first `n` values (`seeded`) is known by its three steps: nothing yet, the start, one turn.
-/

namespace Series

section Window

variable {α : Type} {n : ℕ} {l : List α}

theorem length_rtake (n : ℕ) (l : List α) : (l.rtake n).length = min n l.length := by
  rw [List.rtake, List.length_drop]
  omega

theorem rtake_concat_of_lt (h : l.length < n) (x : α) : (l ++ [x]).rtake n = l.rtake n ++ [x] := by
  have hnow : (l ++ [x]).length - n = 0 := by
    rw [List.length_append, List.length_singleton]
    omega
  have hbefore : l.length - n = 0 := by omega
  rw [List.rtake, List.rtake, hnow, hbefore, List.drop_zero, List.drop_zero]

/-- A full window loses its oldest value. -/
theorem rtake_concat_full (hn : 0 < n) (h : n ≤ l.length) (x : α) :
    ∃ old rest, l.rtake n = old :: rest ∧ (l ++ [x]).rtake n = rest ++ [x] := by
  obtain ⟨k, rfl⟩ : ∃ k, n = k + 1 := ⟨n - 1, by omega⟩
  refine ⟨l[l.length - (k + 1)], l.rtake k, ?_, List.rtake_concat_succ l k x⟩
  have hnext : l.length - (k + 1) + 1 = l.length - k := by omega
  rw [List.rtake, List.rtake, ← hnext]
  exact List.drop_eq_getElem_cons (by omega)

end Window

section Field

variable {K : Type} [Field K]

def mean (l : List K) : K := l.sum / l.length

/-- The variance of a sample; 0 of a single value. -/
def variance (l : List K) : K := (l.map fun x => (x - mean l) ^ 2).sum / (l.length - 1)

theorem sum_sub_sq (c : K) (l : List K) :
    (l.map fun x => (x - c) ^ 2).sum = (l.map fun x => x * x).sum - 2 * c * l.sum + l.length * c ^ 2 := by
  induction l with
  | nil => simp
  | cons x l ih =>
    rw [List.map_cons, List.sum_cons, ih, List.map_cons, List.sum_cons, List.sum_cons, List.length_cons, Nat.cast_succ]
    ring

/-- A recurrence that starts from the mean of the first `n` values. -/
def seeded (n : ℕ) (step : K → K → K) (l : List K) : Option K :=
  if l.length < n then none else some ((l.drop n).foldl step (mean (l.take n)))

variable {n : ℕ} {step : K → K → K} {l : List K}

theorem seeded_of_lt (h : l.length < n) : seeded n step l = none := if_pos h

theorem seeded_eq_none_iff : seeded n step l = none ↔ l.length < n := by
  unfold seeded
  split
  · rename_i h
    exact iff_of_true rfl h
  · rename_i h
    exact iff_of_false nofun h

theorem le_length_of_seeded {e : K} (h : seeded n step l = some e) : n ≤ l.length := by
  by_contra hlt
  rw [seeded_of_lt (by omega)] at h
  cases h

/-- The start. -/
theorem seeded_start (h : l.length + 1 = n) (x : K) : seeded n step (l ++ [x]) = some ((l.sum + x) / n) := by
  subst h
  have hlen : (l ++ [x]).length = l.length + 1 := by rw [List.length_append, List.length_singleton]
  rw [seeded, hlen, if_neg (Nat.lt_irrefl _), ← hlen, List.drop_length, List.take_length, List.foldl_nil, mean,
    List.sum_append,
    List.sum_singleton]

/-- One turn. -/
theorem seeded_concat {e : K} (h : seeded n step l = some e) (x : K) : seeded n step (l ++ [x]) = some (step e x) := by
  have hn := le_length_of_seeded h
  rw [seeded, if_neg (by omega), Option.some_inj] at h
  rw [seeded, if_neg (by rw [List.length_append]; omega), List.drop_append_of_le_length (by omega),
    List.take_append_of_le_length (by omega), List.foldl_append, h, List.foldl_cons, List.foldl_nil]

/-- What every start has and every turn keeps. -/
theorem seeded_induction {P : K → Prop} {e : K} (h : seeded n step l = some e) (hstart : P (mean (l.take n)))
    (hstep : ∀ e, ∀ x ∈ l, P e → P (step e x)) : P e := by
  unfold seeded at h
  split at h
  · cases h
  · cases h
    have hmem : ∀ x ∈ l.drop n, x ∈ l := fun x hx => List.mem_of_mem_drop hx
    generalize mean (l.take n) = start at hstart ⊢
    generalize l.drop n = rest at hmem ⊢
    induction rest generalizing start with
    | nil => exact hstart
    | cons x rest ih =>
      exact ih (step start x) (hstep start x (hmem x List.mem_cons_self) hstart) fun y hy =>
        hmem y (List.mem_cons_of_mem x hy)

end Field

section Order

variable {K : Type} [Field K] [LinearOrder K] [IsStrictOrderedRing K]

/-- The variance by the sums of the values and of their squares. -/
theorem variance_eq {l : List K} (h : l ≠ []) :
    max ((l.map fun x => x * x).sum / l.length - mean l * mean l) 0 *
      (if 1 < l.length then (l.length : K) / (l.length - 1 : ℕ) else 1) = variance l := by
  have hpos : 0 < l.length := List.length_pos_iff.2 h
  have hlen : (0 : K) < l.length := Nat.cast_pos.2 hpos
  have hdev : (l.map fun x => x * x).sum / l.length - mean l * mean l = (l.map fun x => (x - mean l) ^ 2).sum /
      l.length := by
    rw [sum_sub_sq, mean]
    field_simp
    ring
  have hnonneg : (0 : K) ≤ (l.map fun x => (x - mean l) ^ 2).sum / l.length := by
    refine div_nonneg (List.sum_nonneg fun x hx => ?_) hlen.le
    obtain ⟨y, -, rfl⟩ := List.mem_map.1 hx
    exact sq_nonneg _
  rw [hdev, max_eq_left hnonneg, variance]
  split
  · rename_i hone
    have hcast : ((l.length - 1 : ℕ) : K) = l.length - 1 := by
      rw [Nat.cast_sub hpos, Nat.cast_one]
    have hne : (l.length : K) - 1 ≠ 0 := by
      rw [sub_ne_zero]
      exact_mod_cast hone.ne'
    rw [hcast]
    field_simp
  · rename_i hone
    obtain ⟨x, rfl⟩ := List.length_eq_one_iff.1 (by omega : l.length = 1)
    simp [mean]

end Order

end Series

import Mathlib.Algebra.Order.Ring.Cast
import Mathlib.Data.Finset.Max
import Mathlib.Data.List.Basic
import Mathlib.Data.List.Sort
/-!
# Ranks in a list, and what counts by bucket tell of them

`x` has the rank `target` in `xs` when fewer than `target` elements are below it and at least `target` are not above
it; the rank need not be a whole number. Where the elements are only counted by bucket, and the bucket grows with the
element, adding up the counts until they reach `target` stops at the bucket of that `x` (`scan_eq`).
-/

namespace Ranks

variable {α K : Type} [LinearOrder α] [Semiring K] [LinearOrder K] [IsStrictOrderedRing K]

structure HasRank (target : K) (xs : List α) (x : α) : Prop where
  mem : x ∈ xs
  below : (xs.countP (· < x) : K) < target
  upTo : target ≤ (xs.countP (· ≤ x) : K)

omit [LinearOrder α] in
theorem countP_le {p q : α → Bool} (h : ∀ x, p x = true → q x = true) (xs : List α) :
    (xs.countP p : K) ≤ (xs.countP q : K) :=
  Nat.cast_le.2 (List.countP_mono_left fun x _ => h x)

/-- Ranks grow with the elements. -/
theorem HasRank.mono {s t : K} {xs : List α} {x y : α} (hx : HasRank s xs x) (hy : HasRank t xs y) (hst : s ≤ t) :
    x ≤ y := by
  by_contra hlt
  rw [not_le] at hlt
  have hle : (xs.countP (· ≤ y) : K) ≤ (xs.countP (· < x) : K) :=
    countP_le (fun z hz => by simpa using (of_decide_eq_true hz).trans_lt hlt) xs
  exact absurd (hy.upTo.trans hle) (not_le.2 (hx.below.trans_le hst))

omit [IsStrictOrderedRing K] in
theorem exists_rank {target : K} {xs : List α} (hpos : 0 < target) (hle : target ≤ (xs.length : K)) :
    ∃ x, HasRank target xs x := by
  have hne : xs ≠ [] := by
    rintro rfl
    rw [List.length_nil, Nat.cast_zero] at hle
    exact absurd hpos (not_lt.2 hle)
  -- the greatest element has all of them up to it, so there is a least one with enough
  let s := xs.toFinset.filter fun x => target ≤ (xs.countP (· ≤ x) : K)
  have hs : s.Nonempty := by
    have hxs : xs.toFinset.Nonempty := by simpa using hne
    refine ⟨xs.toFinset.max' hxs, Finset.mem_filter.2 ⟨Finset.max'_mem _ _, ?_⟩⟩
    have hall : xs.countP (· ≤ xs.toFinset.max' hxs) = xs.length := by
      rw [List.countP_eq_length]
      exact fun x hx => decide_eq_true (Finset.le_max' _ x (List.mem_toFinset.2 hx))
    rw [hall]
    exact hle
  obtain ⟨hmem, hup⟩ := Finset.mem_filter.1 (s.min'_mem hs)
  refine ⟨s.min' hs, List.mem_toFinset.1 hmem, ?_, hup⟩
  by_contra hnot
  rw [not_lt] at hnot
  -- the greatest element below it would have enough already
  let below := xs.toFinset.filter (· < s.min' hs)
  have hbelow : below.Nonempty := by
    by_contra hempty
    have hzero : xs.countP (· < s.min' hs) = 0 := by
      rw [List.countP_eq_zero]
      intro x hx hlt
      exact hempty ⟨x, Finset.mem_filter.2 ⟨List.mem_toFinset.2 hx, of_decide_eq_true hlt⟩⟩
    rw [hzero, Nat.cast_zero] at hnot
    exact absurd hpos (not_lt.2 hnot)
  obtain ⟨hy, hlt⟩ := Finset.mem_filter.1 (below.max'_mem hbelow)
  have heq : xs.countP (· < s.min' hs) = xs.countP (· ≤ below.max' hbelow) := by
    apply List.countP_congr
    intro x hx
    simp only [decide_eq_true_eq]
    exact ⟨fun h => below.le_max' x (Finset.mem_filter.2 ⟨List.mem_toFinset.2 hx, h⟩), fun h => h.trans_lt hlt⟩
  have hin : below.max' hbelow ∈ s := Finset.mem_filter.2 ⟨hy, by rw [← heq]; exact hnot⟩
  exact absurd hlt (not_lt.2 (s.min'_le _ hin))

/-- At least the elements with fewer than `target` below them. -/
theorem HasRank.le_of_below {target : K} {xs : List α} {x lo : α} (hx : HasRank target xs x)
    (h : (xs.countP (· < lo) : K) < target) : lo ≤ x := by
  by_contra hlt
  have hle : (xs.countP (· ≤ x) : K) ≤ (xs.countP (· < lo) : K) :=
    countP_le (fun z hz => by simpa using (of_decide_eq_true hz).trans_lt (not_le.1 hlt)) xs
  exact absurd (hx.upTo.trans hle) (not_le.2 h)

theorem HasRank.le_of_upTo {target : K} {xs : List α} {x hi : α} (hx : HasRank target xs x)
    (h : target ≤ (xs.countP (· ≤ hi) : K)) : x ≤ hi := by
  by_contra hlt
  have hle : (xs.countP (· ≤ hi) : K) ≤ (xs.countP (· < x) : K) :=
    countP_le (fun z hz => by simpa using (of_decide_eq_true hz).trans_lt (not_le.1 hlt)) xs
  exact absurd hx.below (not_lt.2 (h.trans hle))

/-! ## The median -/

/-- The one in the middle, the upper one of two. -/
def median (xs : List α) : Option α := (xs.insertionSort (· ≤ ·))[xs.length / 2]?

theorem exists_median {xs : List α} (h : xs ≠ []) : ∃ x, median xs = some x := by
  have hlen : xs.length / 2 < (xs.insertionSort (· ≤ ·)).length := by
    rw [List.length_insertionSort]
    exact Nat.div_lt_self (List.length_pos_of_ne_nil h) (by decide)
  exact ⟨_, List.getElem?_eq_getElem hlen⟩

/-- The `i`-th of them in their order has one more than `i` up to it. -/
theorem hasRank_sorted {xs : List α} {i : ℕ} {x : α} (h : (xs.insertionSort (· ≤ ·))[i]? = some x) :
    HasRank (i + 1) xs x := by
  obtain ⟨l, hl⟩ : ∃ l, xs.insertionSort (· ≤ ·) = l := ⟨_, rfl⟩
  have hperm : l.Perm xs := hl ▸ List.perm_insertionSort _ xs
  have hsorted : l.Pairwise (· ≤ ·) := hl ▸ List.pairwise_insertionSort _ xs
  rw [hl] at h
  obtain ⟨a, b, rfl, rfl⟩ : ∃ a b, l = a ++ x :: b ∧ a.length = i := by
    obtain ⟨hi, rfl⟩ := List.getElem?_eq_some_iff.1 h
    exact ⟨l.take i, l.drop (i + 1), by rw [← List.drop_eq_getElem_cons hi, List.take_append_drop],
      List.length_take_of_le hi.le⟩
  rw [List.pairwise_append, List.pairwise_cons] at hsorted
  obtain ⟨-, ⟨hafter, -⟩, hbefore⟩ := hsorted
  have hself : x ∈ x :: b := List.mem_cons_self
  refine ⟨hperm.mem_iff.1 (List.mem_append_right a hself), ?_, ?_⟩
  · have hnone : (x :: b).countP (· < x) = 0 := by
      rw [List.countP_eq_zero]
      intro z hz
      rcases List.mem_cons.1 hz with rfl | hz
      · simp
      · simpa using hafter z hz
    have hfew : a.countP (· < x) ≤ a.length := List.countP_le_length
    rw [Nat.cast_id, ← hperm.countP_eq, List.countP_append, hnone]
    omega
  · have hall : a.countP (· ≤ x) = a.length := by
      rw [List.countP_eq_length]
      exact fun z hz => by simpa using hbefore z hz x hself
    rw [Nat.cast_id, ← hperm.countP_eq, List.countP_append, hall, List.countP_cons]
    simp

/-- **The median is where more than half of the elements are.** -/
theorem median_between {xs : List α} {x lo hi : α} (hx : median xs = some x)
    (h : xs.length < 2 * xs.countP (fun z => decide (lo ≤ z) && decide (z ≤ hi))) : lo ≤ x ∧ x ≤ hi := by
  have hrank := hasRank_sorted hx
  have hin : xs.countP (fun z => decide (lo ≤ z) && decide (z ≤ hi)) ≤ xs.countP (· ≤ hi) :=
    List.countP_mono_left fun z _ hz => (Bool.and_eq_true_iff.1 hz).2
  have hout : xs.countP (· < lo) + xs.countP (fun z => decide (lo ≤ z) && decide (z ≤ hi)) ≤ xs.length := by
    clear hx h hrank hin
    induction xs with
    | nil => simp
    | cons y xs ih =>
      simp only [List.countP_cons, List.length_cons, decide_eq_true_eq, Bool.and_eq_true] at ih ⊢
      by_cases hy : y < lo
      · have hno : ¬ (lo ≤ y ∧ y ≤ hi) := fun h => not_le.2 hy h.1
        rw [if_pos hy, if_neg hno]
        omega
      · rw [if_neg hy]
        split <;> omega
  exact ⟨hrank.le_of_below (by rw [Nat.cast_id]; omega), hrank.le_of_upTo (by rw [Nat.cast_id]; omega)⟩

/-! ## Buckets -/

/-- The first bucket, from the `i`-th on, at which the counts have reached `target`. -/
def scan (target : K) (cum i : ℕ) : List ℕ → Option ℕ
  | [] => none
  | c :: cs => if target ≤ ((cum + c : ℕ) : K) then some i else scan target (cum + c) (i + 1) cs

variable {f : α → ℕ} {n : ℕ}

section Counts

variable (f n)

def counts (xs : List α) : List ℕ := (List.range n).map fun i => xs.countP fun x => decide (f x = i)

omit [LinearOrder α] in
theorem counts_nil : counts f n ([] : List α) = List.replicate n 0 := by
  simp [counts, List.map_const']

omit [LinearOrder α] in
/-- One element more. -/
theorem counts_concat (xs : List α) (x : α) : counts f n (xs ++ [x]) = (counts f n xs).modify (f x) (· + 1) := by
  ext i c
  rw [List.getElem?_modify, counts, counts, List.getElem?_map, List.getElem?_map]
  by_cases hn : i < n
  · rw [List.getElem?_range hn]
    by_cases hi : f x = i <;> simp [hi]
  · have hnone : (List.range n)[i]? = none := by simpa using hn
    rw [hnone]
    rfl

end Counts

omit [LinearOrder α] in
theorem countP_lt_succ (xs : List α) (i : ℕ) :
    (xs.countP fun x => decide (f x < i)) + (xs.countP fun x => decide (f x = i)) = xs.countP fun x =>
      decide (f x < i + 1) := by
  induction xs with
  | nil => rfl
  | cons x xs ih =>
    simp only [List.countP_cons, ← ih, decide_eq_true_eq]
    split_ifs <;> omega

theorem scan_from {target : K} {xs : List α} {x : α} (hf : Monotone f) (hn : f x < n) (hx : HasRank target xs x)
    (m i : ℕ) (him : i + m = n)
    (hi : i ≤ f x) :
    scan target (xs.countP fun y => decide (f y < i)) i ((List.range' i m).map fun j => xs.countP fun y =>
      decide (f y = j)) = some (f x) := by
  induction m generalizing i with
  | zero => omega
  | succ m ih =>
    rw [List.range'_succ, List.map_cons, scan, countP_lt_succ]
    rcases hi.lt_or_eq with hlt | rfl
    · have hfew : (xs.countP (fun y => decide (f y < i + 1)) : K) ≤ (xs.countP (· < x) : K) := by
        refine countP_le (fun y hy => ?_) xs
        simp only [decide_eq_true_eq] at hy ⊢
        by_contra hle
        have := hf (not_lt.1 hle)
        omega
      rw [if_neg (not_le.2 (hfew.trans_lt hx.below))]
      exact ih (i + 1) (by omega) hlt
    · have hmany : (xs.countP (· ≤ x) : K) ≤ (xs.countP (fun y => decide (f y < f x + 1)) : K) :=
        countP_le (fun y hy => by simpa using Nat.lt_succ_of_le (hf (of_decide_eq_true hy))) xs
      rw [if_pos (hx.upTo.trans hmany)]

/-- **The scan stops at the bucket of the element with that rank.** -/
theorem scan_eq {target : K} {xs : List α} {x : α} (hf : Monotone f) (hn : f x < n) (hx : HasRank target xs x) :
    scan target 0 0 (counts f n xs) = some (f x) := by
  have h := scan_from hf hn hx n 0 (Nat.zero_add n) (Nat.zero_le _)
  rw [counts, List.range_eq_range']
  simpa using h

end Ranks

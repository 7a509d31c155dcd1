import Mathlib.Algebra.Order.Field.Basic
import Mathlib.Analysis.SpecialFunctions.Log.Base
import MarketFeed.Lib.Ranks
/-!
# The latency histogram (metrics.py:22-105)

`Scale` is what the histogram takes from the logarithm: the bucket of a value, which grows with it, and the value a
bucket stands for. `K` stands for the floats.

| here | there |
| --- | --- |
| `Scale.index`, `Scale.value` | `_index`, `_value` |
| `Histogram.record`, `Histogram.reset` | `record`, `reset` |
| `Histogram.percentile` | `percentile` |
| `samples` | not in the source: what has been recorded since the last `reset`, negative values as zero |
-/

namespace Metrics

open Ranks

def BUCKETS_PER_DECADE : ℕ := 20

def DECADES : ℕ := 8

def NUM_BUCKETS : ℕ := BUCKETS_PER_DECADE * DECADES + 2

structure Scale (K : Type) [LinearOrder K] where
  index : K → ℕ
  value : ℕ → K
  index_lt : ∀ us, index us < NUM_BUCKETS
  mono : Monotone index
  value_mono : Monotone value

/-- `_min` is `none` for `float("inf")`. -/
structure Histogram (K : Type) where
  buckets : List ℕ
  count : ℕ
  sum : K
  min : Option K
  max : K

variable {K : Type} [Field K] [LinearOrder K]

def Histogram.empty : Histogram K := ⟨List.replicate NUM_BUCKETS 0, 0, 0, none, 0⟩

section

variable (scale : Scale K)

def Histogram.record (h : Histogram K) (us : K) : Histogram K :=
  let us := if us < 0 then 0 else us
  { buckets := h.buckets.modify (scale.index us) (· + 1)
    count := h.count + 1
    sum := h.sum + us
    min := if h.min.all (us < ·) then some us else h.min
    max := if h.max < us then us else h.max }

def Histogram.percentile (h : Histogram K) (q : K) : K :=
  if h.count = 0 then 0
  else
    match scan ((h.count : K) * q / ((100 : ℕ) : K)) 0 0 h.buckets with
    | some i => Min.min (scale.value i) h.max
    | none => h.max

inductive Op (K : Type)
  | record (us : K)
  | reset

def Histogram.step (h : Histogram K) : Op K → Histogram K
  | .record us => h.record scale us
  | .reset => .empty

def run (ops : List (Op K)) : Histogram K := ops.foldl (Histogram.step scale) .empty

end

def Op.apply (xs : List K) : Op K → List K
  | .record us => xs ++ [if us < 0 then 0 else us]
  | .reset => []

def samples (ops : List (Op K)) : List K := ops.foldl Op.apply []

/-! ## What the histogram knows -/

/-- What it has counted, and the extremes. -/
structure Tallies (scale : Scale K) (h : Histogram K) (xs : List K) : Prop where
  buckets : h.buckets = counts scale.index NUM_BUCKETS xs
  count : h.count = xs.length
  sum : h.sum = xs.sum
  nonneg : ∀ x ∈ xs, 0 ≤ x
  le_max : ∀ x ∈ xs, x ≤ h.max
  max_mem : xs ≠ [] → h.max ∈ xs
  max_empty : xs = [] → h.max = 0
  min_le : ∀ x ∈ xs, ∃ m, h.min = some m ∧ m ≤ x
  min_mem : ∀ m, h.min = some m → m ∈ xs

section

variable {scale : Scale K} {h : Histogram K} {xs : List K}

theorem tallies_empty : Tallies scale (.empty : Histogram K) [] where
  buckets := (counts_nil _ _).symm
  count := rfl
  sum := rfl
  nonneg := nofun
  le_max := nofun
  max_mem := fun h => absurd rfl h
  max_empty := fun _ => rfl
  min_le := nofun
  min_mem := nofun

theorem Tallies.record (ht : Tallies scale h xs) (us : K) :
    Tallies scale (h.record scale us) (xs ++ [if us < 0 then 0 else us]) := by
  obtain ⟨v, hv⟩ : ∃ v, (if us < 0 then (0 : K) else us) = v := ⟨_, rfl⟩
  have hpos : 0 ≤ v := by
    rw [← hv]
    split
    · exact le_rfl
    · exact not_lt.1 ‹_›
  have hrecord : h.record scale us = ⟨h.buckets.modify (scale.index v) (· + 1), h.count + 1, h.sum + v,
      if h.min.all (v < ·) then some v else h.min, if h.max < v then v else h.max⟩ := by simp [Histogram.record, hv]
  rw [hv, hrecord]
  have hsplit : ∀ {p : K → Prop}, (∀ x ∈ xs, p x) → p v → ∀ x ∈ xs ++ [v], p x := by
    intro p hxs hp x hx
    rcases List.mem_append.1 hx with hx | hx
    · exact hxs x hx
    · exact List.mem_singleton.1 hx ▸ hp
  have hself : v ∈ xs ++ [v] := List.mem_append_right xs (List.mem_singleton_self v)
  refine ⟨?_, ?_, ?_, hsplit ht.nonneg hpos, ?_, ?_, ?_, ?_, ?_⟩
  · simp [ht.buckets, counts_concat]
  · simp [ht.count]
  · simp [ht.sum]
  · apply hsplit
    · intro x hx
      have := ht.le_max x hx
      show x ≤ if h.max < v then v else h.max
      split
      · exact this.trans (le_of_lt ‹_›)
      · exact this
    · show v ≤ if h.max < v then v else h.max
      split
      · exact le_rfl
      · exact not_lt.1 ‹_›
  · intro _
    show (if h.max < v then v else h.max) ∈ xs ++ [v]
    split
    · exact hself
    · rename_i hle
      by_cases hne : xs = []
      · have hzero : v = h.max := le_antisymm (not_lt.1 hle) (by rw [ht.max_empty hne]; exact hpos)
        exact hzero ▸ hself
      · exact List.mem_append_left [v] (ht.max_mem hne)
  · intro hnil
    simp at hnil
  · show ∀ x ∈ xs ++ [v], ∃ m, (if h.min.all (v < ·) then some v else h.min) = some m ∧ m ≤ x
    split
    · rename_i hall
      apply hsplit
      · intro x hx
        obtain ⟨m, hm, hmx⟩ := ht.min_le x hx
        rw [hm] at hall
        exact ⟨v, rfl, (le_of_lt (by simpa using hall)).trans hmx⟩
      · exact ⟨v, rfl, le_rfl⟩
    · rename_i hall
      apply hsplit ht.min_le
      cases hm : h.min with
      | none =>
        rw [hm] at hall
        exact absurd rfl hall
      | some m =>
        rw [hm] at hall
        exact ⟨m, rfl, by simpa using hall⟩
  · show ∀ m, (if h.min.all (v < ·) then some v else h.min) = some m → m ∈ xs ++ [v]
    intro m hm
    split at hm
    · cases hm
      exact hself
    · exact List.mem_append_left [v] (ht.min_mem m hm)

theorem tallies_run (ops : List (Op K)) : Tallies scale (run scale ops) (samples ops) := by
  have hfold : ∀ (ops : List (Op K)) {h : Histogram K} {xs : List K}, Tallies scale h xs →
      Tallies scale (ops.foldl (Histogram.step scale) h) (ops.foldl Op.apply xs) := by
    intro ops
    induction ops with
    | nil => exact fun h => h
    | cons op ops ih =>
      intro h xs ht
      apply ih
      cases op with
      | record us => exact ht.record us
      | reset => exact tallies_empty
  exact hfold ops tallies_empty

variable [IsStrictOrderedRing K]

/-- **A percentile is the bucket of the sample with its rank.** -/
theorem Tallies.percentile (ht : Tallies scale h xs) {q : K} (hq : 0 < q) (hq' : q ≤ ((100 : ℕ) : K)) (hne : xs ≠ []) :
    ∃ x, HasRank ((xs.length : K) * q / ((100 : ℕ) : K)) xs x ∧
      h.percentile scale q = Min.min (scale.value (scale.index x)) h.max := by
  have hlen : (0 : K) < (xs.length : K) := Nat.cast_pos.2 (List.length_pos_of_ne_nil hne)
  have hhundred : (0 : K) < ((100 : ℕ) : K) := Nat.cast_pos.2 (by decide)
  have hpos : 0 < (xs.length : K) * q / ((100 : ℕ) : K) := div_pos (mul_pos hlen hq) hhundred
  have hle : (xs.length : K) * q / ((100 : ℕ) : K) ≤ (xs.length : K) := by
    rw [div_le_iff₀ hhundred]
    exact mul_le_mul_of_nonneg_left hq' hlen.le
  obtain ⟨x, hx⟩ := exists_rank hpos hle
  refine ⟨x, hx, ?_⟩
  have hcount : h.count ≠ 0 := by
    rw [ht.count]
    exact fun hz => hne (List.eq_nil_of_length_eq_zero hz)
  rw [Histogram.percentile, if_neg hcount, ht.count, ht.buckets, scan_eq scale.mono (scale.index_lt x) hx]

/-- A higher percentile is no smaller. -/
theorem Tallies.percentile_mono (ht : Tallies scale h xs) {q q' : K} (hq : 0 < q) (hqq : q ≤ q')
    (hq' : q' ≤ ((100 : ℕ) : K)) (hne : xs ≠ []) :
    h.percentile scale q ≤ h.percentile scale q' := by
  obtain ⟨x, hx, hpx⟩ := ht.percentile hq (hqq.trans hq') hne
  obtain ⟨y, hy, hpy⟩ := ht.percentile (hq.trans_le hqq) hq' hne
  have hrank : (xs.length : K) * q / ((100 : ℕ) : K) ≤ (xs.length : K) * q' / ((100 : ℕ) : K) :=
    div_le_div_of_nonneg_right (mul_le_mul_of_nonneg_left hqq (Nat.cast_nonneg _)) (Nat.cast_nonneg _)
  rw [hpx, hpy]
  exact min_le_min_right _ (scale.value_mono (scale.mono (hx.mono hy hrank)))

end

/-! ## How close a percentile is

The buckets on the real numbers are twentieths of a decade from 1 µs to 100 s, and a bucket stands for its middle on the
logarithmic scale. So a percentile is within half a bucket, a fortieth of a decade, of the sample that has its rank;
below the first bucket and above the last it only tells that the sample is there.
-/

noncomputable section

def MIN_US : ℝ := 1

def ten : ℝ := ((10 : ℕ) : ℝ)

def index (us : ℝ) : ℕ :=
  if us ≤ MIN_US then 0 else min (⌊Real.logb ten (us / MIN_US) * (BUCKETS_PER_DECADE : ℝ)⌋₊ + 1) (NUM_BUCKETS - 1)

def value (i : ℕ) : ℝ :=
  if i = 0 then MIN_US else MIN_US * ten ^ (((i : ℝ) - 1 / ((2 : ℕ) : ℝ)) / (BUCKETS_PER_DECADE : ℝ))

/-- Half a bucket. -/
def halfBucket : ℝ := ten ^ (1 / ((40 : ℕ) : ℝ))

/-- The last value that has a bucket of its own. -/
def lastUs : ℝ := ten ^ DECADES

end

theorem one_lt_ten : 1 < ten := by norm_num [ten]

theorem index_mono : Monotone index := by
  intro a b hab
  unfold index
  split
  case isTrue => exact Nat.zero_le _
  case isFalse ha =>
    have ha' : MIN_US < a := not_le.1 ha
    rw [if_neg (not_le.2 (ha'.trans_le hab))]
    have hpos : 0 < a / MIN_US := by simpa [MIN_US] using lt_trans (by norm_num [MIN_US]) ha'
    have hdiv : a / MIN_US ≤ b / MIN_US := by simpa [MIN_US] using hab
    have hlog : Real.logb ten (a / MIN_US) ≤ Real.logb ten (b / MIN_US) := Real.logb_le_logb_of_le one_lt_ten hpos hdiv
    exact min_le_min_right _ (Nat.add_le_add_right
      (Nat.floor_le_floor (mul_le_mul_of_nonneg_right hlog (Nat.cast_nonneg _))) 1)

theorem index_lt (us : ℝ) : index us < NUM_BUCKETS := by
  unfold index
  split
  · decide
  · exact (min_le_right _ _).trans_lt (by decide)

theorem value_mono : Monotone value := by
  intro i j hij
  unfold value
  have hexp : ∀ k : ℕ, k ≠ 0 → 0 ≤ ((k : ℝ) - 1 / ((2 : ℕ) : ℝ)) / (BUCKETS_PER_DECADE : ℝ) := by
    intro k hk
    have hone : (1 : ℝ) ≤ k := Nat.one_le_cast.2 (Nat.pos_of_ne_zero hk)
    apply div_nonneg _ (Nat.cast_nonneg _)
    push_cast
    linarith
  by_cases hi : i = 0
  · by_cases hj : j = 0
    · simp [hi, hj]
    · rw [if_pos hi, if_neg hj, MIN_US, one_mul]
      exact Real.one_le_rpow one_lt_ten.le (hexp j hj)
  · have hj : j ≠ 0 := by omega
    rw [if_neg hi, if_neg hj, MIN_US, one_mul, one_mul]
    apply Real.rpow_le_rpow_of_exponent_le one_lt_ten.le
    apply div_le_div_of_nonneg_right _ (Nat.cast_nonneg _)
    have : (i : ℝ) ≤ j := Nat.cast_le.2 hij
    linarith

noncomputable def scale : Scale ℝ := ⟨index, value, index_lt, index_mono, value_mono⟩

/-- Within the decades the bucket of a value stands for one half a bucket away at most. -/
theorem value_index {x : ℝ} (h1 : MIN_US < x) (hlast : x < lastUs) : x / halfBucket ≤ value (index x) ∧
    value (index x) ≤ x * halfBucket := by
  have hx : 0 < x := lt_trans (by norm_num [MIN_US]) h1
  have hten : 0 < ten := lt_trans one_pos one_lt_ten
  obtain ⟨l, hl⟩ : ∃ l, Real.logb ten x = l := ⟨_, rfl⟩
  have hxl : x = ten ^ l := by rw [← hl, Real.rpow_logb hten one_lt_ten.ne' hx]
  have hpos : 0 < l := by
    rw [← hl]
    exact Real.logb_pos one_lt_ten h1
  have hlt : l < 8 := by
    rw [← hl, Real.logb_lt_iff_lt_rpow one_lt_ten hx]
    calc x < ten ^ DECADES := hlast
      _ = ten ^ (8 : ℝ) := by rw [← Real.rpow_natCast]; norm_num [DECADES]
  obtain ⟨m, hm⟩ : ∃ m, ⌊l * (BUCKETS_PER_DECADE : ℝ)⌋₊ = m := ⟨_, rfl⟩
  have hbuckets : (BUCKETS_PER_DECADE : ℝ) = 20 := by norm_num [BUCKETS_PER_DECADE]
  have hm1 : (m : ℝ) ≤ l * 20 := by
    rw [← hm, ← hbuckets]
    exact Nat.floor_le (mul_nonneg hpos.le (Nat.cast_nonneg _))
  have hm2 : l * 20 < m + 1 := by
    rw [← hm, ← hbuckets]
    exact Nat.lt_floor_add_one _
  have hmlt : m < 160 := by
    have : (m : ℝ) < 160 := by linarith
    exact_mod_cast this
  have hindex : index x = m + 1 := by
    rw [index, if_neg (not_le.2 h1), MIN_US, div_one, hl, hm]
    have : NUM_BUCKETS - 1 = 161 := rfl
    omega
  have hvalue : value (index x) = ten ^ ((m + 1 / 2 : ℝ) / 20) := by
    rw [hindex, value, if_neg (Nat.succ_ne_zero m), MIN_US, one_mul, hbuckets]
    congr 1
    push_cast
    ring
  have hhalf : halfBucket = ten ^ (1 / 40 : ℝ) := by norm_num [halfBucket]
  rw [hvalue, hhalf, hxl, ← Real.rpow_sub hten, ← Real.rpow_add hten]
  constructor
  · exact Real.rpow_le_rpow_of_exponent_le one_lt_ten.le (by linarith)
  · exact Real.rpow_le_rpow_of_exponent_le one_lt_ten.le (by linarith)

/-- What a percentile tells of the sample with its rank. -/
def Near (x p : ℝ) : Prop :=
  (x ≤ MIN_US → x ≤ p ∧ p ≤ MIN_US) ∧ (MIN_US < x → x < lastUs → x / halfBucket ≤ p ∧ p ≤ x * halfBucket) ∧
    (lastUs ≤ x → lastUs ≤ p)

theorem one_le_halfBucket : 1 ≤ halfBucket := Real.one_le_rpow one_lt_ten.le (by positivity)

theorem near_of_bucket {x max : ℝ} (hx : x ≤ max) : Near x (min (value (index x)) max) := by
  refine ⟨fun h1 => ?_, fun h1 hlast => ?_, fun hlast => ?_⟩
  · have hv : value (index x) = MIN_US := by rw [index, if_pos h1, value, if_pos rfl]
    rw [hv]
    exact ⟨le_min h1 hx, min_le_left _ _⟩
  · obtain ⟨hlow, hhigh⟩ := value_index h1 hlast
    have hpos : 0 < x := lt_trans (by norm_num [MIN_US]) h1
    exact ⟨le_min hlow ((div_le_self hpos.le one_le_halfBucket).trans hx), (min_le_left _ _).trans hhigh⟩
  · apply le_min _ (hlast.trans hx)
    have hten : 0 < ten := lt_trans one_pos one_lt_ten
    have h1 : MIN_US < x := lt_of_lt_of_le (one_lt_pow₀ one_lt_ten (by decide)) hlast
    have hlog : (8 : ℝ) ≤ Real.logb ten x := by
      rw [Real.le_logb_iff_rpow_le one_lt_ten (lt_trans (by norm_num [MIN_US]) h1)]
      calc ten ^ (8 : ℝ) = ten ^ DECADES := by rw [← Real.rpow_natCast]; norm_num [DECADES]
        _ ≤ x := hlast
    have hfloor : 160 ≤ ⌊Real.logb ten (x / MIN_US) * (BUCKETS_PER_DECADE : ℝ)⌋₊ := by
      apply Nat.le_floor
      rw [MIN_US, div_one]
      norm_num [BUCKETS_PER_DECADE]
      linarith
    have hindex : index x = 161 := by
      rw [index, if_neg (not_le.2 h1)]
      have : NUM_BUCKETS - 1 = 161 := rfl
      omega
    rw [hindex, value, if_neg (by decide), MIN_US, one_mul, lastUs, ← Real.rpow_natCast]
    apply Real.rpow_le_rpow_of_exponent_le one_lt_ten.le
    norm_num [DECADES, BUCKETS_PER_DECADE]

/-- **What the percentiles of any run of records and resets tell.** -/
theorem percentiles_near (ops : List (Op ℝ)) (hne : samples ops ≠ []) :
    (∀ q : ℝ, 0 < q → q ≤ 100 → ∃ x, HasRank ((samples ops).length * q / 100) (samples ops) x ∧
      Near x ((run scale ops).percentile scale q)) ∧
      (∀ q q' : ℝ, 0 < q → q ≤ q' → q' ≤ 100 →
      (run scale ops).percentile scale q ≤ (run scale ops).percentile scale q') ∧
      ∃ m ∈ samples ops, ∀ q : ℝ, 0 < q → q ≤ 100 → (run scale ops).percentile scale q ≤ m := by
  have ht : Tallies scale (run scale ops) (samples ops) := tallies_run ops
  have hhundred : ((100 : ℕ) : ℝ) = 100 := by norm_num
  refine ⟨fun q hq hq' => ?_, fun q q' hq hqq hq' => ?_, (run scale ops).max, ht.max_mem hne, fun q hq hq' => ?_⟩
  · obtain ⟨x, hx, hp⟩ := ht.percentile hq (hhundred ▸ hq') hne
    rw [hhundred] at hx
    rw [hp]
    exact ⟨x, hx, near_of_bucket (ht.le_max x hx.mem)⟩
  · exact ht.percentile_mono hq hqq (hhundred ▸ hq') hne
  · obtain ⟨x, -, hp⟩ := ht.percentile hq (hhundred ▸ hq') hne
    rw [hp]
    exact min_le_right _ _

theorem percentiles_near_two : ∃ x : ℝ, HasRank ((([3, 5] : List ℝ).length : ℝ) * 99 / 100) [3, 5] x ∧
    Near x ((run scale [.record 3, .record 5]).percentile scale 99) := by
  have hs : samples [Op.record (3 : ℝ), .record 5] = [3, 5] := by norm_num [samples, Op.apply]
  have h := (percentiles_near [.record 3, .record 5] (by rw [hs]; exact List.cons_ne_nil _ _)).1 99 (by norm_num)
    (by norm_num)
  rw [hs] at h
  exact h

end Metrics

import MarketFeed.Migration.Catalog
import Mathlib.Tactic.Linarith
import Mathlib.Tactic.FieldSimp
/-!
# An instant there and back (time.py:11-24)

`datetime_to_epoch_us` takes the whole seconds from `int(timestamp())`, a binary64 number cut towards
zero, and the microseconds from the instant itself. So an instant before 1970 comes back a second late
unless it is a whole second, and from 2^34 seconds on (the year 2514) one close below a second may. Two instants
come back as one only across the start of 1970 (`datetimeToEpochUs_eq_iff`).
-/

namespace Migration

open Double

/-! ## What comes back -/

/-- The seconds of an instant as a fraction. -/
theorem seconds_eq (v : ℤ) : (v : ℚ) / 1000000 = (v / 1000000 : ℤ) + (v % 1000000 : ℤ) / 1000000 := by
  have h : v = v / 1000000 * 1000000 + v % 1000000 := by omega
  have hq : (v : ℚ) = (v / 1000000 : ℤ) * 1000000 + (v % 1000000 : ℤ) := by exact_mod_cast h
  rw [hq]
  ring

theorem seconds_bounds (v : ℤ) :
    ((v / 1000000 : ℤ) : ℚ) ≤ (v : ℚ) / 1000000 ∧ (v : ℚ) / 1000000 ≤ ((v / 1000000 + 1 : ℤ) : ℚ) := by
  have h0 : (0 : ℚ) ≤ (v % 1000000 : ℤ) := by exact_mod_cast Int.emod_nonneg v (by norm_num)
  have h1 : ((v % 1000000 : ℤ) : ℚ) < 1000000 := by exact_mod_cast Int.emod_lt_of_pos v (by norm_num)
  rw [seconds_eq]
  push_cast
  constructor <;> linarith

theorem abs_seconds_lt {v : ℤ} {b : ℕ} (h : -(b : ℤ) * 1000000 < v ∧ v < b * 1000000) : |(v : ℚ) / 1000000| < b := by
  have h1 : (-(b : ℚ)) * 1000000 < v := by exact_mod_cast h.1
  have h2 : (v : ℚ) < b * 1000000 := by exact_mod_cast h.2
  rw [abs_lt]
  constructor <;> linarith

/-- An integer part between two neighbours. -/
theorem pyInt_between {x : ℚ} {q : ℤ} (h1 : (q : ℚ) ≤ x) (h2 : x ≤ ((q + 1 : ℤ) : ℚ)) : pyInt x = q ∨
    pyInt x = q + 1 := by
  have hf1 : q ≤ ⌊x⌋ := Int.le_floor.2 h1
  have hf2 : ⌊x⌋ ≤ q + 1 := Int.floor_le_iff.2 (lt_of_le_of_lt h2 (by push_cast; linarith))
  have hc1 : q ≤ ⌈x⌉ := le_trans hf1 (Int.floor_le_ceil x)
  have hc2 : ⌈x⌉ ≤ q + 1 := Int.ceil_le.2 h2
  unfold pyInt
  split <;> omega

/-- The instants a `datetime` can hold are below `2 ^ 53` seconds. -/
theorem range_lt {v us : ℤ} (h : epochUsToDatetime v = some us) : us = v ∧ |(v : ℚ) / 1000000| < 2 ^ 53 := by
  unfold epochUsToDatetime at h
  split at h
  · rename_i hr
    refine ⟨(Option.some.inj h).symm, ?_⟩
    have := @abs_seconds_lt v (2 ^ 53) (by omega)
    exact_mod_cast this
  · cases h

/-- **An instant comes back as it was, or a second late.** -/
theorem datetimeToEpochUs_cases {v : ℤ} (h : |(v : ℚ) / 1000000| < 2 ^ 53) :
    datetimeToEpochUs v = v ∨ datetimeToEpochUs v = v + 1000000 := by
  obtain ⟨h1, h2⟩ := seconds_bounds v
  have hb := pyInt_between (le_binary64 h h1) (binary64_le h h2)
  unfold datetimeToEpochUs
  rcases hb with hb | hb <;> rw [hb] <;> omega

/-- A whole second comes back. -/
theorem datetimeToEpochUs_whole {v : ℤ} (h : |(v : ℚ) / 1000000| < 2 ^ 53) (hw : v % 1000000 = 0) :
    datetimeToEpochUs v = v := by
  have hx : (v : ℚ) / 1000000 = (v / 1000000 : ℤ) := by
    rw [seconds_eq, hw]
    simp
  have heq : binary64 ((v : ℚ) / 1000000) = (v / 1000000 : ℤ) :=
    le_antisymm (binary64_le h (le_of_eq hx)) (le_binary64 h (le_of_eq hx.symm))
  unfold datetimeToEpochUs
  rw [heq]
  have hint : pyInt ((v / 1000000 : ℤ) : ℚ) = v / 1000000 := by
    unfold pyInt
    rw [Int.floor_intCast, Int.ceil_intCast, ite_self]
  rw [hint]
  omega

/-- From 1970 to the year 2514 every instant comes back. -/
theorem datetimeToEpochUs_recent {v : ℤ} (h0 : 0 ≤ v) (h1 : v < 2 ^ 34 * 1000000) : datetimeToEpochUs v = v := by
  have habs : |(v : ℚ) / 1000000| < 2 ^ 34 := by
    have := @abs_seconds_lt v (2 ^ 34) (by omega)
    exact_mod_cast this
  have hnear := abs_lt.1 (binary64_near habs)
  obtain ⟨hq, -⟩ := seconds_bounds v
  have hlow := le_binary64 (lt_trans habs (by norm_num)) hq
  have hrem : ((v % 1000000 : ℤ) : ℚ) ≤ 999999 := by
    have := Int.emod_lt_of_pos v (show (0 : ℤ) < 1000000 by norm_num)
    exact_mod_cast (by omega : v % 1000000 ≤ 999999)
  have hx := seconds_eq v
  have hfloor : ⌊binary64 ((v : ℚ) / 1000000)⌋ = v / 1000000 := by
    rw [Int.floor_eq_iff]
    refine ⟨hlow, ?_⟩
    linarith [hnear.2]
  have hpos : (0 : ℚ) ≤ binary64 ((v : ℚ) / 1000000) := by
    have : (0 : ℚ) ≤ (v / 1000000 : ℤ) := by exact_mod_cast Int.ediv_nonneg h0 (by norm_num)
    linarith
  unfold datetimeToEpochUs pyInt
  rw [if_pos hpos, hfloor]
  omega

/-- Before 1970, back to the year 1425, an instant within a second comes back a second late. -/
theorem datetimeToEpochUs_old {v : ℤ} (h0 : v < 0) (h1 : -(2 ^ 34) * 1000000 < v) (hw : v % 1000000 ≠ 0) :
    datetimeToEpochUs v = v + 1000000 := by
  have habs : |(v : ℚ) / 1000000| < 2 ^ 34 := by
    have := @abs_seconds_lt v (2 ^ 34) (by omega)
    exact_mod_cast this
  have hnear := abs_lt.1 (binary64_near habs)
  obtain ⟨-, hq⟩ := seconds_bounds v
  have hhigh := binary64_le (lt_trans habs (by norm_num)) hq
  have hrem : (1 : ℚ) ≤ (v % 1000000 : ℤ) := by
    have := Int.emod_nonneg v (show (1000000 : ℤ) ≠ 0 by norm_num)
    exact_mod_cast (by omega : 1 ≤ v % 1000000)
  have hx := seconds_eq v
  have hceil : ⌈binary64 ((v : ℚ) / 1000000)⌉ = v / 1000000 + 1 := by
    rw [Int.ceil_eq_iff]
    push_cast at hhigh ⊢
    refine ⟨?_, hhigh⟩
    linarith [hnear.1]
  have hint : pyInt (binary64 ((v : ℚ) / 1000000)) = v / 1000000 + 1 := by
    unfold pyInt
    split
    · rename_i hpos
      -- the last second before 1970 rounds up to zero
      have hneg : v / 1000000 + 1 ≤ 0 := by omega
      have hle : ((v / 1000000 + 1 : ℤ) : ℚ) ≤ 0 := by exact_mod_cast hneg
      have hzero : binary64 ((v : ℚ) / 1000000) = 0 := le_antisymm (le_trans hhigh hle) hpos
      rw [hzero] at hceil ⊢
      rw [Int.floor_zero, ← hceil, Int.ceil_zero]
    · exact hceil
  unfold datetimeToEpochUs
  rw [hint]
  omega

/-! ## Two instants that come back as one -/

theorem pyInt_neg (x : ℚ) : pyInt (-x) = -pyInt x := by
  unfold pyInt
  rcases lt_trichotomy x 0 with h | rfl | h
  · rw [if_pos (by linarith), if_neg (by linarith), Int.floor_neg]
  · simp
  · rw [if_neg (by linarith), if_pos h.le, Int.ceil_neg]

/-- What rounds up to a whole number still does a second later: the last place is no finer there. -/
theorem rounds_up_again {x : ℚ} {q : ℤ} (h0 : 0 ≤ x) (hx : |x + 1| < 2 ^ 51) (hq : x < ((q + 1 : ℤ) : ℚ))
    (hup : ((q + 1 : ℤ) : ℚ) ≤ binary64 x) : ((q + 2 : ℤ) : ℚ) ≤ binary64 (x + 1) := by
  have hne : x ≠ 0 := by
    rintro rfl
    simp only [binary64, if_true] at hup
    linarith
  have hpos : 0 < x := lt_of_le_of_ne h0 (Ne.symm hne)
  have hne' : x + 1 ≠ 0 := by linarith
  have habs : |x| = x := abs_of_pos hpos
  have habs' : |x + 1| = x + 1 := abs_of_pos (by linarith)
  have hx' : |x| < 2 ^ 51 := by
    rw [habs]
    rw [habs'] at hx
    linarith
  have hmono : Int.log 2 |x| ≤ Int.log 2 |x + 1| := by
    rw [habs, habs']
    exact Int.log_mono_right hpos (by linarith)
  have hlog := log_lt hne' hx
  -- the last places, as powers of two below one
  obtain ⟨k, hk⟩ : ∃ k : ℕ, Int.log 2 |x| - 52 = -(k : ℤ) := ⟨(52 - Int.log 2 |x|).toNat, by omega⟩
  obtain ⟨j, hj⟩ : ∃ j : ℕ, Int.log 2 |x + 1| - 52 = -((j + 1 : ℕ) : ℤ) := ⟨(51 - Int.log 2 |x + 1|).toNat, by omega⟩
  have hjk : j + 1 ≤ k := by omega
  have hpk : (0 : ℚ) < 2 ^ k := by positivity
  have hpj : (0 : ℚ) < 2 ^ (j + 1) := by positivity
  unfold binary64 at hup ⊢
  rw [if_neg hne, hk] at hup
  rw [if_neg hne', hj]
  simp only [zpow_neg, zpow_natCast, div_inv_eq_mul] at hup ⊢
  rw [← div_eq_mul_inv, le_div_iff₀ hpk] at hup
  rw [← div_eq_mul_inv, le_div_iff₀ hpj]
  -- half a place below the next second, at both scales
  have hnear := (abs_le.1 (nearestEven_near (x * 2 ^ k))).2
  have hgap : (((q + 1 : ℤ) : ℚ) - x) * 2 ^ k ≤ 1 / 2 := by linarith
  have hgap' : (((q + 1 : ℤ) : ℚ) - x) * 2 ^ (j + 1) ≤ 1 / 2 :=
    le_trans (mul_le_mul_of_nonneg_left (pow_le_pow_right₀ (by norm_num) hjk) (by linarith)) hgap
  have hround : (q + 2) * 2 ^ (j + 1) ≤ nearestEven ((x + 1) * 2 ^ (j + 1)) := by
    apply even_le_nearestEven
    · exact Int.emod_eq_zero_of_dvd ⟨(q + 2) * 2 ^ j, by ring⟩
    · push_cast at hgap' ⊢
      linarith
  exact_mod_cast hround

/-- `int(timestamp())`. -/
def wholeSeconds (x : ℚ) : ℤ := pyInt (binary64 x)

theorem wholeSeconds_again {x : ℚ} (h0 : 0 ≤ x) (hx : |x + 1| < 2 ^ 51) (hup : wholeSeconds x = ⌊x⌋ + 1) :
    wholeSeconds (x + 1) = ⌊x⌋ + 2 := by
  have hlt := Int.lt_floor_add_one x
  have hle := Int.floor_le x
  have habs' : |x + 1| = x + 1 := abs_of_nonneg (by linarith)
  have hsmall : |x| < 2 ^ 53 := by
    rw [abs_of_nonneg h0]
    rw [habs'] at hx
    linarith
  have hpos : 0 ≤ binary64 x := by exact_mod_cast le_binary64 hsmall (q := 0) (by exact_mod_cast h0)
  have hup' : ((⌊x⌋ + 1 : ℤ) : ℚ) ≤ binary64 x := by
    rw [wholeSeconds, pyInt, if_pos hpos] at hup
    exact Int.le_floor.1 (le_of_eq hup.symm)
  have hagain := rounds_up_again h0 hx (by push_cast; exact hlt) hup'
  have hbound := @binary64_le (x + 1) (⌊x⌋ + 2) (lt_trans hx (by norm_num)) (by push_cast; linarith)
  have heq : binary64 (x + 1) = ((⌊x⌋ + 2 : ℤ) : ℚ) := le_antisymm hbound hagain
  rw [wholeSeconds, heq, pyInt]
  simp

/-- Within the last second before 1970, and a second after that. -/
def AcrossEpoch (u v : ℤ) : Prop := -1000000 < u ∧ u < 0 ∧ v = u + 1000000

instance (u v : ℤ) : Decidable (AcrossEpoch u v) := by unfold AcrossEpoch; infer_instance

theorem datetimeToEpochUs_across {u v : ℤ} (h : AcrossEpoch u v) : datetimeToEpochUs u = datetimeToEpochUs v := by
  obtain ⟨h1, h2, rfl⟩ := h
  rw [datetimeToEpochUs_old h2 (by omega) (by omega), datetimeToEpochUs_recent (by omega) (by omega)]

theorem datetimeToEpochUs_eq (v : ℤ) : datetimeToEpochUs v = wholeSeconds ((v : ℚ) / 1000000) * 1000000 +
    v % 1000000 := rfl

theorem floor_seconds (v : ℤ) : ⌊(v : ℚ) / 1000000⌋ = v / 1000000 := by
  obtain ⟨h1, -⟩ := seconds_bounds v
  rw [Int.floor_eq_iff]
  refine ⟨h1, ?_⟩
  have hrem : ((v % 1000000 : ℤ) : ℚ) < 1000000 := by exact_mod_cast Int.emod_lt_of_pos v (by norm_num)
  rw [seconds_eq]
  linarith

/-- An instant that comes back a second late, where the one it comes back as does not, is of the last second before
1970. -/
theorem across_of_late {u : ℤ} (hu : |(u : ℚ) / 1000000| < 2 ^ 50) (hlate : datetimeToEpochUs u = u + 1000000)
    (hnext : datetimeToEpochUs (u + 1000000) = u + 1000000) : AcrossEpoch u (u + 1000000) := by
  have hshift : ((u + 1000000 : ℤ) : ℚ) / 1000000 = (u : ℚ) / 1000000 + 1 := by
    push_cast
    ring
  have hbig : |(u : ℚ) / 1000000| < 2 ^ 53 := lt_trans hu (by norm_num)
  obtain ⟨hlow, hhigh⟩ := abs_lt.1 hu
  have hpart : u % 1000000 ≠ 0 := by
    intro hw
    rw [datetimeToEpochUs_whole hbig hw] at hlate
    omega
  rw [datetimeToEpochUs_eq] at hlate
  rw [datetimeToEpochUs_eq, hshift] at hnext
  have hmod : (u + 1000000) % 1000000 = u % 1000000 := by omega
  have hlate' : wholeSeconds ((u : ℚ) / 1000000) = u / 1000000 + 1 := by omega
  have hnext' : wholeSeconds ((u : ℚ) / 1000000 + 1) = u / 1000000 + 1 := by omega
  refine ⟨?_, ?_, rfl⟩
  · -- further back the two change places under the sign
    by_contra hback
    have hle : u + 1000000 < 0 := by omega
    have hleq : ((u : ℚ) / 1000000 + 1) ≤ 0 := by
      rw [← hshift]
      have : ((u + 1000000 : ℤ) : ℚ) ≤ 0 := by exact_mod_cast hle.le
      linarith
    have hodd : ∀ x : ℚ, wholeSeconds (-x) = -wholeSeconds x := fun x => by
      rw [wholeSeconds, binary64_neg, pyInt_neg, wholeSeconds]
    have hfloor : ⌊-((u : ℚ) / 1000000 + 1)⌋ = -(u / 1000000 + 1) - 1 := by
      have hneg : -((u : ℚ) / 1000000 + 1) = ((-(u + 1000000) : ℤ) : ℚ) / 1000000 := by
        push_cast
        ring
      rw [hneg, floor_seconds]
      omega
    have hone : -((u : ℚ) / 1000000 + 1) + 1 = -((u : ℚ) / 1000000) := by ring
    have hagain := @wholeSeconds_again (-((u : ℚ) / 1000000 + 1)) (by linarith)
      (by rw [hone, abs_neg]; exact lt_trans hu (by norm_num)) (by rw [hodd, hnext', hfloor]; omega)
    rw [hone, hodd, hlate', hfloor] at hagain
    omega
  · by_contra hafter
    have h0 : (0 : ℚ) ≤ (u : ℚ) / 1000000 := by
      have : (0 : ℚ) ≤ u := by exact_mod_cast not_lt.1 hafter
      linarith
    have hsum : |(u : ℚ) / 1000000 + 1| < 2 ^ 51 := by
      rw [abs_of_nonneg (by linarith)]
      linarith
    have hagain := wholeSeconds_again h0 hsum (by rw [hlate', floor_seconds])
    rw [hnext', floor_seconds] at hagain
    omega

/-- **Which instants come back as one**: only such as lie a second apart across the start of 1970. -/
theorem datetimeToEpochUs_eq_iff {u v : ℤ} (hu : |(u : ℚ) / 1000000| < 2 ^ 50) (hv : |(v : ℚ) / 1000000| < 2 ^ 50) :
    datetimeToEpochUs u = datetimeToEpochUs v ↔ u = v ∨ AcrossEpoch u v ∨ AcrossEpoch v u := by
  constructor
  · intro h
    have hu' := @datetimeToEpochUs_cases u (lt_trans hu (by norm_num))
    have hv' := @datetimeToEpochUs_cases v (lt_trans hv (by norm_num))
    rcases hu' with hu' | hu' <;> rcases hv' with hv' | hv'
    · exact .inl (by omega)
    · obtain rfl : u = v + 1000000 := by omega
      exact .inr (.inr (across_of_late hv hv' hu'))
    · obtain rfl : v = u + 1000000 := by omega
      exact .inr (.inl (across_of_late hu hu' hv'))
    · exact .inl (by omega)
  · rintro (rfl | h | h)
    · rfl
    · exact datetimeToEpochUs_across h
    · exact (datetimeToEpochUs_across h).symm

end Migration

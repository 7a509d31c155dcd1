import Mathlib.Algebra.Order.Archimedean.Basic
import Mathlib.Data.Int.Log
import Mathlib.Data.Rat.Floor
import Mathlib.Tactic.FieldSimp
import Mathlib.Tactic.Linarith
/-!
# Numbers of 53 significant bits

An operation on binary64 numbers is its exact result, a rational, rounded to the nearest one (`binary64`), as long as
it is far from overflow and from the subnormal range. Rounding keeps what has 53 bits (`binary64_dyadic`), is within
one part in 2^53 (`binary64_error`), and does not pass a whole number below 2^53 (`le_binary64`, `binary64_le`).
-/

namespace Double

/-- The nearest integer, ties to even. -/
def nearestEven (x : ℚ) : ℤ :=
  let q := ⌊x⌋
  if x - q < 1 / 2 then q else if 1 / 2 < x - q then q + 1 else if q % 2 = 0 then q else q + 1

/-- The nearest number with 53 significant bits. -/
def binary64 (x : ℚ) : ℚ :=
  if x = 0 then 0
  else
    let ulp : ℚ := (2 : ℚ) ^ (Int.log 2 |x| - 52)
    nearestEven (x / ulp) * ulp

/-- `int` of a float: cut towards zero. -/
def pyInt (x : ℚ) : ℤ := if 0 ≤ x then ⌊x⌋ else ⌈x⌉

/-- The microseconds of `fromtimestamp`: those of the fraction are rounded. -/
def fromtimestamp (x : ℚ) : ℤ := pyInt x * 10 ^ 6 + nearestEven (binary64 ((x - pyInt x) * 10 ^ 6))

/-! ## The nearest whole number -/

theorem le_nearestEven {y : ℚ} {a : ℤ} (h : (a : ℚ) ≤ y) : a ≤ nearestEven y := by
  have hf : a ≤ ⌊y⌋ := Int.le_floor.2 h
  unfold nearestEven
  simp only
  split
  · exact hf
  · split
    · omega
    · split <;> omega

theorem nearestEven_le {y : ℚ} {b : ℤ} (h : y ≤ b) : nearestEven y ≤ b := by
  have hf : ⌊y⌋ ≤ b := Int.floor_le_iff.2 (lt_of_le_of_lt h (by linarith))
  unfold nearestEven
  simp only
  split
  · exact hf
  · rename_i hhalf
    -- the rest rounds up, so `y` is above its floor
    have hlt : ⌊y⌋ < b := by
      by_contra hge
      have heq : ⌊y⌋ = b := le_antisymm hf (not_lt.1 hge)
      apply hhalf
      rw [heq]
      linarith
    split
    · omega
    · split <;> omega

theorem nearestEven_near (y : ℚ) : |(nearestEven y : ℚ) - y| ≤ 1 / 2 := by
  have h1 := Int.floor_le y
  have h2 := Int.lt_floor_add_one y
  unfold nearestEven
  simp only
  rw [abs_le]
  split
  · constructor <;> linarith
  · split
    · push_cast
      constructor <;> linarith
    · split
      · constructor <;> linarith
      · push_cast
        constructor <;> linarith

theorem nearestEven_intCast (n : ℤ) : nearestEven n = n := by
  simp [nearestEven]

theorem nearestEven_neg (y : ℚ) : nearestEven (-y) = -nearestEven y := by
  have h1 := Int.floor_le y
  have h2 := Int.lt_floor_add_one y
  by_cases hint : (⌊y⌋ : ℚ) = y
  · have hwhole : ∀ n : ℤ, nearestEven (n : ℚ) = n := fun n =>
      le_antisymm (nearestEven_le le_rfl) (le_nearestEven le_rfl)
    have hneg := hwhole (-⌊y⌋)
    have hpos := hwhole ⌊y⌋
    push_cast at hneg
    rw [hint] at hneg hpos
    rw [hneg, hpos]
  · have hlt : (⌊y⌋ : ℚ) < y := lt_of_le_of_ne h1 hint
    have hfloor : ⌊-y⌋ = -⌊y⌋ - 1 := by
      rw [Int.floor_eq_iff]
      push_cast
      constructor <;> linarith
    have hrest : -y - ((-⌊y⌋ - 1 : ℤ) : ℚ) = 1 - (y - ⌊y⌋) := by
      push_cast
      ring
    unfold nearestEven
    simp only [hfloor, hrest]
    rcases lt_trichotomy (y - ⌊y⌋) (1 / 2) with hlow | hhalf | hhigh
    · have h3 : ¬ 1 - (y - ⌊y⌋) < 1 / 2 := by linarith
      have h4 : 1 / 2 < 1 - (y - ⌊y⌋) := by linarith
      rw [if_pos hlow, if_neg h3, if_pos h4]
      omega
    · -- a tie: one of the two neighbours is even
      have h3 : ¬ (1 : ℚ) - 1 / 2 < 1 / 2 := by norm_num
      have h4 : ¬ (1 : ℚ) / 2 < 1 - 1 / 2 := by norm_num
      rw [hhalf, if_neg (lt_irrefl _), if_neg (lt_irrefl _), if_neg h3, if_neg h4]
      split <;> split <;> omega
    · have h3 : ¬ y - ⌊y⌋ < 1 / 2 := by linarith
      have h4 : 1 - (y - ⌊y⌋) < 1 / 2 := by linarith
      rw [if_neg h3, if_pos hhigh, if_pos h4]
      omega

/-- An even number is reached from half a unit below. -/
theorem even_le_nearestEven {y : ℚ} {a : ℤ} (heven : a % 2 = 0) (h : (a : ℚ) - 1 / 2 ≤ y) : a ≤ nearestEven y := by
  by_cases hle : (a : ℚ) ≤ y
  · exact le_nearestEven hle
  · have hfloor : ⌊y⌋ = a - 1 := by
      rw [Int.floor_eq_iff]
      push_cast
      constructor <;> linarith
    unfold nearestEven
    simp only [hfloor]
    push_cast
    rw [if_neg (by linarith)]
    split
    · omega
    · split <;> omega

/-! ## The nearest of 53 bits -/

section Ulp

variable {x : ℚ}

/-- The exponent of a number below `2 ^ k`. -/
theorem log_lt (hx : x ≠ 0) {k : ℕ} (h : |x| < 2 ^ k) : Int.log 2 |x| < k := by
  have hpos : 0 < |x| := abs_pos.2 hx
  have hz : |x| < ((2 : ℕ) : ℚ) ^ (k : ℤ) := by simpa using h
  exact (Int.lt_zpow_iff_log_lt (by norm_num) hpos).1 hz

/-- Below `2 ^ 53` the last place is a whole fraction of one. -/
theorem ulp_eq (hx : x ≠ 0) (h : |x| < 2 ^ 53) : ∃ k : ℕ, (2 : ℚ) ^ (Int.log 2 |x| - 52) = 1 / 2 ^ k := by
  have hlog := log_lt hx h
  refine ⟨(52 - Int.log 2 |x|).toNat, ?_⟩
  have hk : Int.log 2 |x| - 52 = -((52 - Int.log 2 |x|).toNat : ℤ) := by omega
  rw [hk, zpow_neg, zpow_natCast, one_div]

theorem le_binary64 {q : ℤ} (hx : |x| < 2 ^ 53) (h : (q : ℚ) ≤ x) : (q : ℚ) ≤ binary64 x := by
  unfold binary64
  split
  · rename_i h0
    rwa [h0] at h
  · rename_i h0
    obtain ⟨k, hk⟩ := ulp_eq h0 hx
    simp only [hk]
    have hpow : (0 : ℚ) < 2 ^ k := by positivity
    have hscaled : ((q * 2 ^ k : ℤ) : ℚ) ≤ x / (1 / 2 ^ k) := by
      rw [div_div_eq_mul_div, div_one]
      push_cast
      exact mul_le_mul_of_nonneg_right h hpow.le
    have hround : ((q * 2 ^ k : ℤ) : ℚ) ≤ nearestEven (x / (1 / 2 ^ k)) := by exact_mod_cast le_nearestEven hscaled
    rw [mul_one_div, le_div_iff₀ hpow]
    push_cast at hround
    exact hround

theorem binary64_le {q : ℤ} (hx : |x| < 2 ^ 53) (h : x ≤ q) : binary64 x ≤ q := by
  unfold binary64
  split
  · rename_i h0
    rwa [h0] at h
  · rename_i h0
    obtain ⟨k, hk⟩ := ulp_eq h0 hx
    simp only [hk]
    have hpow : (0 : ℚ) < 2 ^ k := by positivity
    have hscaled : x / (1 / 2 ^ k) ≤ ((q * 2 ^ k : ℤ) : ℚ) := by
      rw [div_div_eq_mul_div, div_one]
      push_cast
      exact mul_le_mul_of_nonneg_right h hpow.le
    have hround : (nearestEven (x / (1 / 2 ^ k)) : ℚ) ≤ ((q * 2 ^ k : ℤ) : ℚ) := by
      exact_mod_cast nearestEven_le hscaled
    rw [mul_one_div, div_le_iff₀ hpow]
    push_cast at hround
    exact hround

/-- The error is at most half a unit in the last place. -/
theorem binary64_ulp (x : ℚ) : |binary64 x - x| ≤ 2 ^ (Int.log 2 |x| - 52) / 2 := by
  have hpos : (0 : ℚ) < 2 ^ (Int.log 2 |x| - 52) := zpow_pos two_pos _
  unfold binary64
  split
  · rename_i h0
    rw [h0, sub_self, abs_zero]
    rw [h0] at hpos
    exact (half_pos hpos).le
  · simp only
    generalize (2 : ℚ) ^ (Int.log 2 |x| - 52) = u at hpos
    have hmul : (nearestEven (x / u) : ℚ) * u - x = ((nearestEven (x / u) : ℚ) - x / u) * u := by
      field_simp
    rw [hmul, abs_mul, abs_of_pos hpos]
    linarith [mul_le_mul_of_nonneg_right (nearestEven_near (x / u)) hpos.le]

theorem binary64_near_pow (hx : x ≠ 0) {k : ℕ} (h : |x| < 2 ^ k) : |binary64 x - x| ≤ 2 ^ ((k : ℤ) - 54) := by
  have hlog := log_lt hx h
  calc |binary64 x - x| ≤ 2 ^ (Int.log 2 |x| - 52) / 2 := binary64_ulp x
    _ = (2 : ℚ) ^ (Int.log 2 |x| - 53) := by
      rw [div_eq_iff two_ne_zero, ← zpow_add_one₀ two_ne_zero]
      ring_nf
    _ ≤ 2 ^ ((k : ℤ) - 54) := zpow_le_zpow_right₀ (by norm_num) (by omega)

/-- Below `2 ^ 34` the error is less than a microsecond in a second. -/
theorem binary64_near (hx : |x| < 2 ^ 34) : |binary64 x - x| < 1 / 1000000 := by
  rcases eq_or_ne x 0 with rfl | h0
  · simp [binary64]
  · exact (binary64_near_pow h0 hx).trans_lt (by norm_num)

/-- A microsecond below a whole number it stays more than half a one below. -/
theorem binary64_below {q : ℤ} (hx : |x| < 2 ^ 34) (h : x ≤ q - 1 / 10 ^ 6) : binary64 x ≤ q - 523 / 10 ^ 9 := by
  rcases eq_or_ne x 0 with rfl | h0
  · simp only [binary64, if_pos]
    linarith
  by_cases hsmall : |x| < 2 ^ 33
  · have hnear := (abs_le.1 (binary64_near_pow h0 hsmall)).2
    norm_num at hnear
    linarith
  · -- the last place is two microseconds, and the whole numbers are multiples of it
    have hlog : Int.log 2 |x| = 33 := by
      have hlow : (33 : ℤ) ≤ Int.log 2 |x| := by
        refine (Int.zpow_le_iff_le_log (by norm_num) (abs_pos.2 h0)).1 ?_
        simpa using not_lt.1 hsmall
      have hhigh := log_lt h0 hx
      omega
    have hnear := (abs_le.1 (binary64_ulp x)).2
    have heq : binary64 x = nearestEven (x / 2 ^ (Int.log 2 |x| - 52)) * (1 / 524288) := by
      rw [binary64, if_neg h0, hlog]
      norm_num
    rw [hlog] at hnear
    norm_num at hnear
    have hlt : (nearestEven (x / 2 ^ (Int.log 2 |x| - 52)) : ℚ) < ((q * 524288 : ℤ) : ℚ) := by
      push_cast
      rw [heq] at hnear
      linarith
    have hle : (nearestEven (x / 2 ^ (Int.log 2 |x| - 52)) : ℚ) ≤ ((q * 524288 - 1 : ℤ) : ℚ) := by
      exact_mod_cast Int.le_sub_one_of_lt (by exact_mod_cast hlt)
    push_cast at hle
    rw [heq]
    linarith

end Ulp

/-- Relative to the number the error is at most half a unit in the 53rd place. -/
theorem binary64_error (x : ℚ) : |binary64 x - x| ≤ |x| / 2 ^ 53 := by
  rcases eq_or_ne x 0 with rfl | h0
  · simp [binary64]
  · have hle : (2 : ℚ) ^ Int.log 2 |x| ≤ |x| := by simpa using Int.zpow_log_le_self (b := 2) one_lt_two (abs_pos.2 h0)
    refine (binary64_ulp x).trans ?_
    rw [zpow_sub₀ two_ne_zero]
    norm_num
    linarith

theorem binary64_neg (x : ℚ) : binary64 (-x) = -binary64 x := by
  unfold binary64
  by_cases h0 : x = 0
  · simp [h0]
  · simp only [neg_eq_zero, if_neg h0, abs_neg, neg_div, nearestEven_neg]
    push_cast
    ring

/-- What has 53 bits is not rounded. -/
theorem binary64_dyadic {m : ℤ} (hm : |m| < 2 ^ 53) (e : ℤ) : binary64 (m * 2 ^ e) = m * 2 ^ e := by
  by_cases h0 : m = 0
  · simp [h0, binary64]
  have hpow : (0 : ℚ) < 2 ^ e := zpow_pos two_pos e
  have hne : (m : ℚ) * 2 ^ e ≠ 0 := mul_ne_zero (Int.cast_ne_zero.2 h0) hpow.ne'
  have hlog : Int.log 2 |(m : ℚ) * 2 ^ e| < 53 + e := by
    refine (Int.lt_zpow_iff_log_lt (by norm_num) (abs_pos.2 hne)).1 ?_
    have hm' : |(m : ℚ)| < 2 ^ 53 := by exact_mod_cast hm
    rw [abs_mul, abs_of_pos hpow, Nat.cast_ofNat, zpow_add₀ two_ne_zero]
    exact mul_lt_mul_of_pos_right (by exact_mod_cast hm') hpow
  obtain ⟨k, hk⟩ : ∃ k : ℕ, e = Int.log 2 |(m : ℚ) * 2 ^ e| - 52 + k :=
    ⟨(e - (Int.log 2 |(m : ℚ) * 2 ^ e| - 52)).toNat, by omega⟩
  -- in units of its last place it is a whole number
  have hunits : (m : ℚ) * 2 ^ e / 2 ^ (Int.log 2 |(m : ℚ) * 2 ^ e| - 52) = ((m * 2 ^ k : ℤ) : ℚ) := by
    rw [div_eq_iff (zpow_ne_zero _ two_ne_zero)]
    conv_lhs => rw [hk, zpow_add₀ two_ne_zero, zpow_natCast]
    push_cast
    ring
  rw [binary64, if_neg hne]
  dsimp only
  rw [hunits, nearestEven_intCast, ← hunits, div_mul_cancel₀ _ (zpow_ne_zero _ two_ne_zero)]

theorem binary64_two_zpow (k : ℤ) : binary64 (2 ^ k) = 2 ^ k := by
  simpa using binary64_dyadic (m := 1) (by norm_num) k

theorem binary64_intCast {n : ℤ} (h : |n| < 2 ^ 53) : binary64 n = n := by
  simpa using binary64_dyadic h 0

theorem abs_sub_pyInt (x : ℚ) : |x - pyInt x| ≤ 1 := by
  unfold pyInt
  rw [abs_le]
  split
  · constructor <;> linarith [Int.floor_le x, Int.lt_floor_add_one x]
  · constructor <;> linarith [Int.le_ceil x, Int.ceil_lt_add_one x]

theorem fromtimestamp_near (x : ℚ) : |(fromtimestamp x : ℚ) - x * 10 ^ 6| < 1 / 2 + 1 / 10 ^ 9 := by
  have hnear := abs_le.1 (nearestEven_near (binary64 ((x - pyInt x) * 10 ^ 6)))
  have herror := binary64_error ((x - pyInt x) * 10 ^ 6)
  rw [abs_mul, abs_of_pos (show (0 : ℚ) < 10 ^ 6 by norm_num)] at herror
  have hbound := abs_le.1 (herror.trans (show _ ≤ 1 * 10 ^ 6 / 2 ^ 53 by gcongr; exact abs_sub_pyInt x))
  have hsmall : (1 : ℚ) * 10 ^ 6 / 2 ^ 53 < 1 / 10 ^ 9 := by norm_num
  rw [fromtimestamp, abs_lt]
  push_cast
  constructor <;> linarith [hnear.1, hnear.2, hbound.1, hbound.2]

/-! ## Several roundings -/

/-- `x` is `y` after `k` roundings, or as near to it. -/
def Rounded (k : ℕ) (x y : ℚ) : Prop := |x - y| ≤ k / 2 ^ 52 * |y|

variable {k : ℕ} {x y : ℚ}

theorem rounded_self (y : ℚ) : Rounded 0 y y := by simp [Rounded]

theorem Rounded.round (h : Rounded k x y) (hk : k ≤ 2 ^ 52) : Rounded (k + 1) (binary64 x) y := by
  have hk' : (k : ℚ) ≤ 2 ^ 52 := by exact_mod_cast hk
  have hy := abs_nonneg y
  have hx : |x| ≤ 2 * |y| := by
    have hle : (k : ℚ) / 2 ^ 52 * |y| ≤ 1 * |y| := mul_le_mul_of_nonneg_right ((div_le_one (by norm_num)).2 hk') hy
    have := abs_sub_abs_le_abs_sub x y
    unfold Rounded at h
    linarith
  unfold Rounded at h ⊢
  calc |binary64 x - y| ≤ |binary64 x - x| + |x - y| := abs_sub_le _ _ _
    _ ≤ |x| / 2 ^ 53 + k / 2 ^ 52 * |y| := add_le_add (binary64_error x) h
    _ ≤ 2 * |y| / 2 ^ 53 + k / 2 ^ 52 * |y| := by linarith
    _ = ((k + 1 : ℕ) : ℚ) / 2 ^ 52 * |y| := by
      push_cast
      ring

theorem Rounded.mul (h : Rounded k x y) (c : ℚ) : Rounded k (x * c) (y * c) := by
  unfold Rounded at h ⊢
  rw [← sub_mul, abs_mul, abs_mul, ← mul_assoc]
  exact mul_le_mul_of_nonneg_right h (abs_nonneg c)

theorem Rounded.div (h : Rounded k x y) (c : ℚ) : Rounded k (x / c) (y / c) := by
  rw [div_eq_mul_inv, div_eq_mul_inv]
  exact h.mul c⁻¹

theorem Rounded.abs (h : Rounded k x y) : Rounded k |x| |y| := by
  unfold Rounded at h ⊢
  rw [abs_abs]
  exact (abs_abs_sub_abs_le x y).trans h

/-- Of a number that is not negative. -/
theorem Rounded.bounds (h : Rounded k x y) (hy : 0 ≤ y) : y * (1 - k / 2 ^ 52) ≤ x ∧ x ≤ y * (1 + k / 2 ^ 52) := by
  unfold Rounded at h
  rw [abs_of_nonneg hy, abs_le] at h
  constructor <;> linarith [h.1, h.2]

end Double

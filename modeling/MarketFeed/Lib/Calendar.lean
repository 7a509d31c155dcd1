import Mathlib.Tactic.Common
import Mathlib.Algebra.Order.Group.Unbundled.Int
/-!
# Dates and times of day

The proleptic Gregorian calendar of the years 1 to 9999, days numbered from 0001-01-01, and a time of day in
microseconds. A value is valid by its fields. A number of days is taken apart by cycles of 400, 100 and 4 years, and
put together again it is the same (`toordinal_fromordinal`); so is a number of microseconds (`ofMicros_cases`).
-/

namespace Calendar

def isLeap (y : ℕ) : Bool := decide (y % 4 = 0 ∧ (y % 100 ≠ 0 ∨ y % 400 = 0))

def daysBeforeYear (y : ℕ) : ℕ := (y - 1) * 365 + (y - 1) / 4 - (y - 1) / 100 + (y - 1) / 400

def daysInMonth (leap : Bool) (m : ℕ) : ℕ :=
  if m = 2 then (if leap then 29 else 28) else if m = 4 ∨ m = 6 ∨ m = 9 ∨ m = 11 then 30 else 31

def daysBeforeMonth (leap : Bool) (m : ℕ) : ℕ :=
  [0, 0, 31, 59, 90, 120, 151, 181, 212, 243, 273, 304, 334].getD m 0 + if 2 < m ∧ leap = true then 1 else 0

structure Date where
  year : ℕ
  month : ℕ
  day : ℕ
  year_valid : 1 ≤ year ∧ year ≤ 9999
  month_valid : 1 ≤ month ∧ month ≤ 12
  day_valid : 1 ≤ day ∧ day ≤ daysInMonth (isLeap year) month
  deriving DecidableEq

def Date.toordinal (d : Date) : ℕ := daysBeforeYear d.year + daysBeforeMonth (isLeap d.year) d.month + d.day

/-- `date.max.toordinal()`. -/
def maxOrdinal : ℕ := 3652059

/-- Month and day of the day `n` of a year, from 0, other than the last of a leap year. -/
def monthDay (leap : Bool) (n : ℕ) : ℕ × ℕ :=
  let month := (n + 50) / 32
  let preceding := daysBeforeMonth leap month
  if n < preceding then (month - 1, n - (preceding - daysInMonth leap (month - 1)) + 1) else (month, n - preceding + 1)

/-- Year, month and day of the day `n`, from 0. -/
def ord2ymd (n : ℕ) : ℕ × ℕ × ℕ :=
  let n400 := n / 146097
  let n := n % 146097
  let n100 := n / 36524
  let n := n % 36524
  let n4 := n / 1461
  let n := n % 1461
  let n1 := n / 365
  let n := n % 365
  let year := n400 * 400 + 1 + n100 * 100 + n4 * 4 + n1
  if n1 = 4 ∨ n100 = 4 then (year - 1, 12, 31)
  else (year, monthDay (decide (n1 = 3 ∧ (n4 ≠ 24 ∨ n100 = 3))) n)

theorem monthDay_spec (leap : Bool) (n : ℕ) (h : n < 365) :
    let md := monthDay leap n
    (1 ≤ md.1 ∧ md.1 ≤ 12) ∧ (1 ≤ md.2 ∧ md.2 ≤ daysInMonth leap md.1) ∧ daysBeforeMonth leap md.1 + md.2 = n + 1 := by
  have hall : ∀ leap : Bool, ∀ n < 365, let md := monthDay leap n
      (1 ≤ md.1 ∧ md.1 ≤ 12) ∧ (1 ≤ md.2 ∧ md.2 ≤ daysInMonth leap md.1) ∧
        daysBeforeMonth leap md.1 + md.2 = n + 1 := by
    decide +kernel
  exact hall leap n h

/-- A year by its place in the cycles. -/
theorem daysBeforeYear_cycles {a b c d : ℕ} (hb : b < 4) (hc : c < 25) (hd : d < 4) :
    daysBeforeYear (a * 400 + 1 + b * 100 + c * 4 + d) = 146097 * a + 36524 * b + 1461 * c + 365 * d := by
  have h4 : (a * 400 + 1 + b * 100 + c * 4 + d - 1) / 4 = 100 * a + 25 * b + c := by omega
  have h100 : (a * 400 + 1 + b * 100 + c * 4 + d - 1) / 100 = 4 * a + b := by omega
  have h400 : (a * 400 + 1 + b * 100 + c * 4 + d - 1) / 400 = a := by omega
  rw [daysBeforeYear, h4, h100, h400]
  omega

theorem isLeap_cycles {a b c d : ℕ} (hb : b < 4) (hc : c < 25) (hd : d < 4) :
    isLeap (a * 400 + 1 + b * 100 + c * 4 + d) = decide (d = 3 ∧ (c ≠ 24 ∨ b = 3)) := by
  rw [isLeap, decide_eq_decide]
  omega

theorem ord2ymd_spec {n : ℕ} (h : n < maxOrdinal) :
    let ymd := ord2ymd n
    (1 ≤ ymd.1 ∧ ymd.1 ≤ 9999) ∧ (1 ≤ ymd.2.1 ∧ ymd.2.1 ≤ 12) ∧
      (1 ≤ ymd.2.2 ∧ ymd.2.2 ≤ daysInMonth (isLeap ymd.1) ymd.2.1) ∧
      daysBeforeYear ymd.1 + daysBeforeMonth (isLeap ymd.1) ymd.2.1 + ymd.2.2 = n + 1 := by
  rw [maxOrdinal] at h
  obtain ⟨a, r, ha, hr⟩ : ∃ a r, n = 146097 * a + r ∧ r < 146097 := ⟨n / 146097, n % 146097, by omega, by omega⟩
  obtain ⟨b, r', hb, hr'⟩ : ∃ b r', r = 36524 * b + r' ∧ r' < 36524 := ⟨r / 36524, r % 36524, by omega, by omega⟩
  obtain ⟨c, r'', hc, hr''⟩ : ∃ c r'', r' = 1461 * c + r'' ∧ r'' < 1461 := ⟨r' / 1461, r' % 1461, by omega, by omega⟩
  obtain ⟨d, k, hd, hk⟩ : ∃ d k, r'' = 365 * d + k ∧ k < 365 := ⟨r'' / 365, r'' % 365, by omega, by omega⟩
  have hcycles : n / 146097 = a ∧ n % 146097 = r ∧ r / 36524 = b ∧ r % 36524 = r' ∧ r' / 1461 = c ∧ r' % 1461 = r'' ∧
      r'' / 365 = d ∧
      r'' % 365 = k := by omega
  obtain ⟨h1, h2, h3, h4, h5, h6, h7, h8⟩ := hcycles
  have hc25 : c < 25 := by omega
  simp only [ord2ymd, h1, h2, h3, h4, h5, h6, h7, h8]
  by_cases hlast : d = 4 ∨ b = 4
  · -- the last day of a leap year
    rw [if_pos hlast]
    obtain ⟨a', b', c', hb', hc', hyear, hn, hleap⟩ : ∃ a' b' c', b' < 4 ∧ c' < 25 ∧
        a * 400 + 1 + b * 100 + c * 4 + d - 1 = a' * 400 + 1 + b' * 100 + c' * 4 + 3 ∧
        n = 146097 * a' + 36524 * b' + 1461 * c' + 365 * 3 + 365 ∧ (c' ≠ 24 ∨ b' = 3) := by
      rcases hlast with rfl | rfl
      · exact ⟨a, b, c, by omega, by omega, by omega, by omega, by omega⟩
      · exact ⟨a, 3, 24, by omega, by omega, by omega, by omega, by omega⟩
    simp only [hyear, daysBeforeYear_cycles hb' hc' (by omega : 3 < 4), isLeap_cycles hb' hc' (by omega : 3 < 4)]
    have hmonth : daysInMonth true 12 = 31 ∧ daysBeforeMonth true 12 = 335 := by decide
    simp only [hleap, and_true, decide_true, hmonth]
    omega
  · rw [if_neg hlast]
    have hb4 : b < 4 := by omega
    have hd4 : d < 4 := by omega
    obtain ⟨hm, hday, hsum⟩ := monthDay_spec (decide (d = 3 ∧ (c ≠ 24 ∨ b = 3))) k hk
    simp only [daysBeforeYear_cycles hb4 hc25 hd4, isLeap_cycles hb4 hc25 hd4]
    refine ⟨⟨by omega, by omega⟩, hm, hday, by omega⟩

namespace Date

/-- `date.fromordinal`. -/
def fromordinal (n : ℕ) (h : 1 ≤ n ∧ n ≤ maxOrdinal) : Date :=
  have hspec := ord2ymd_spec (n := n - 1) (by omega)
  ⟨(ord2ymd (n - 1)).1, (ord2ymd (n - 1)).2.1, (ord2ymd (n - 1)).2.2, hspec.1, hspec.2.1, hspec.2.2.1⟩

theorem toordinal_fromordinal {n : ℕ} (h : 1 ≤ n ∧ n ≤ maxOrdinal) : (fromordinal n h).toordinal = n := by
  have hspec := ord2ymd_spec (n := n - 1) (by omega)
  have hsum : (fromordinal n h).toordinal = n - 1 + 1 := hspec.2.2.2
  omega

end Date

/-! ## The time of day -/

structure Time where
  hour : ℕ
  minute : ℕ
  second : ℕ
  microsecond : ℕ
  hour_valid : hour < 24
  minute_valid : minute < 60
  second_valid : second < 60
  microsecond_valid : microsecond < 1000000
  deriving DecidableEq

namespace Time

def micros (t : Time) : ℕ := ((t.hour * 60 + t.minute) * 60 + t.second) * 1000000 + t.microsecond

def ofMicros (n : ℕ) (h : n < 86400000000) : Time :=
  ⟨n / 3600000000, n / 60000000 % 60, n / 1000000 % 60, n % 1000000, by omega, by omega, by omega, by omega⟩

theorem micros_ofMicros {n : ℕ} (h : n < 86400000000) : (ofMicros n h).micros = n := by
  simp only [micros, ofMicros]
  omega

end Time

/-! ## Both -/

/-- What a clock on the wall shows. -/
structure Wall where
  date : Date
  time : Time
  deriving DecidableEq

namespace Wall

/-- Counted from the day before the first. -/
def micros (w : Wall) : ℤ := w.date.toordinal * 86400000000 + w.time.micros

def InRange (n : ℤ) : Prop := 1 ≤ n / 86400000000 ∧ n / 86400000000 ≤ (maxOrdinal : ℤ)

instance (n : ℤ) : Decidable (InRange n) := inferInstanceAs (Decidable (_ ∧ _))

def ofMicros (n : ℤ) : Option Wall :=
  if h : InRange n then
    some ⟨Date.fromordinal (n / 86400000000).toNat ⟨by have := h.1; omega, by have := h.2; omega⟩,
      Time.ofMicros (n % 86400000000).toNat (by omega)⟩
  else none

/-- A number of microseconds is a wall clock's, or out of range. -/
theorem ofMicros_cases (n : ℤ) : (InRange n ∧ ∃ w, ofMicros n = some w ∧ w.micros = n) ∨
    (¬ InRange n ∧ ofMicros n = none) := by
  by_cases h : InRange n
  · refine .inl ⟨h, _, dif_pos h, ?_⟩
    have hpos := h.1
    simp only [micros, Date.toordinal_fromordinal, Time.micros_ofMicros]
    omega
  · exact .inr ⟨h, dif_neg h⟩

end Wall

end Calendar

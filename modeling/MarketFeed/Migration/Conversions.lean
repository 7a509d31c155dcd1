import Mathlib.Data.Rat.Floor
import MarketFeed.Gateway.EntitlementFile
import MarketFeed.Lib.IsoText
import MarketFeed.Lib.Text
import MarketFeed.Migration.Catalog
/-!
# Between datetimes and microseconds (migration/time.py:10-35, storage/db.py:157-164)

`epoch_us_to_datetime` divides downwards and `datetime_to_epoch_us` cuts towards zero. So even where `timestamp()` is
exact, an instant before 1970 that is not a whole second comes back a second late (`minus_one`), and is a second later
than in `_dt_to_us`. Everything else comes back, and the three conversions agree on it (`conversions_iff`).

| here | there |
| --- | --- |
| `Datetime` | an aware datetime by what it shows and its `utcoffset()`; one without a timezone has none |
| `timestamp` | `timestamp()`, taken as exact |
| `Raised.overflow` | the `OverflowError` of a datetime outside the years 1 to 9999 |
| `Raised.range` | the `ValueError` of `fromtimestamp` |
-/

namespace Migration.Aware

open Calendar
open Double (pyInt)

inductive Raised
  | preflight (text : String)
  | overflow
  | range
  deriving DecidableEq

/-- `datetime(1970, 1, 1)`, in the microseconds of `Wall`. -/
def epoch : ℤ := 719163 * 86400000000

def UTC : Offset := ⟨0, by decide⟩

/-- `datetime.fromtimestamp(seconds, UTC)`. -/
def fromtimestamp (seconds : ℤ) : Option Wall := Wall.ofMicros (epoch + seconds * 1000000)

/-- `replace(microsecond=…)`. -/
def replaceMicrosecond (w : Wall) (micros : ℕ) (h : micros < 1000000) : Wall :=
  { w with time := { w.time with microsecond := micros, microsecond_valid := h } }

def epochUsToDatetime (value : ℤ) : Except Raised Datetime :=
  match fromtimestamp (value / 1000000) with
  | some w => .ok ⟨replaceMicrosecond w (value % 1000000).toNat (by omega), some UTC⟩
  | none => .error .range

/-- `astimezone(UTC)`. -/
def astimezone (w : Wall) (o : Offset) : Except Raised Wall :=
  match Wall.ofMicros (w.micros - o.micros) with
  | some utc => .ok utc
  | none => .error .overflow

/-- Of a datetime in UTC. -/
def timestamp (utc : Wall) : ℚ := ((utc.micros - epoch : ℤ) : ℚ) / (1000000 : ℕ)

def datetimeToEpochUs (value : Datetime) : Except Raised ℤ :=
  match value.utcoffset with
  | none => .error (.preflight "datetime value is missing timezone")
  | some o => (astimezone value.wall o).map fun utc => pyInt (timestamp utc) * 1000000 + utc.time.microsecond

def parseAwareText (value : String) : Except Raised ℤ :=
  let normalized := Text.strip Gateway.pySpace value.toList
  let normalized := if normalized.getLast? = some 'Z' then normalized.dropLast ++ "+00:00".toList else normalized
  match fromisoformat (String.ofList normalized) with
  | none => .error (.preflight "instrument timestamp text must be ISO-8601 with timezone")
  | some parsed => datetimeToEpochUs parsed

/-- A `timedelta`, as it is kept. -/
structure Delta where
  days : ℤ
  seconds : ℤ
  microseconds : ℤ

def Delta.of (micros : ℤ) : Delta := ⟨micros / 86400000000, micros / 1000000 % 86400, micros % 1000000⟩

def dtToUs (value : Datetime) : Except Raised ℤ :=
  (astimezone value.wall (value.utcoffset.getD UTC)).map fun utc =>
    let delta := Delta.of (utc.micros - epoch)
    delta.days * 86400000000 + delta.seconds * 1000000 + delta.microseconds

/-! ## One instant -/

/-- What the microseconds of an instant become. -/
def cut (us : ℤ) : ℤ := if 0 ≤ us ∨ us % 1000000 = 0 then us else us + 1000000

theorem cut_eq_iff (us : ℤ) : cut us = us ↔ 0 ≤ us ∨ us % 1000000 = 0 := by
  unfold cut
  split
  · rename_i h
    exact iff_of_true rfl h
  · rename_i h
    exact iff_of_false (by omega) h

theorem pyInt_seconds (us : ℤ) : pyInt ((us : ℚ) / (1000000 : ℕ)) * 1000000 + us % 1000000 = cut us := by
  have hsign : (0 : ℚ) ≤ (us : ℚ) / (1000000 : ℕ) ↔ 0 ≤ us := by
    rw [le_div_iff₀ (by norm_num), zero_mul]
    exact Int.cast_nonneg_iff
  rw [pyInt, Rat.floor_intCast_div_natCast, Rat.ceil_intCast_div_natCast, cut]
  simp only [hsign]
  split
  · rename_i hpos
    rw [if_pos (.inl hpos)]
    omega
  · split <;> omega

theorem microsecond_eq (w : Wall) : (w.time.microsecond : ℤ) = (w.micros - epoch) % 1000000 := by
  have := w.time.microsecond_valid
  simp only [Wall.micros, Time.micros, epoch]
  omega

theorem micros_replaceMicrosecond (w : Wall) (micros : ℕ) (h : micros < 1000000) :
    (replaceMicrosecond w micros h).micros = w.micros - w.micros % 1000000 + micros := by
  have := w.time.microsecond_valid
  simp only [Wall.micros, Time.micros, replaceMicrosecond]
  omega

theorem datetimeToEpochUs_eq (w : Wall) (o : Offset) :
    datetimeToEpochUs ⟨w, some o⟩ = if Wall.InRange (w.micros - o.micros) then .ok (cut (w.micros - o.micros - epoch))
      else .error .overflow := by
  simp only [datetimeToEpochUs, astimezone]
  rcases Wall.ofMicros_cases (w.micros - o.micros) with ⟨hin, utc, hutc, hmicros⟩ | ⟨hout, hutc⟩
  · rw [if_pos hin, hutc]
    simp only [Except.map, timestamp, microsecond_eq, hmicros, pyInt_seconds]
  · rw [if_neg hout, hutc]
    rfl

theorem dtToUs_eq (w : Wall) (o : Offset) :
    dtToUs ⟨w, some o⟩ = if Wall.InRange (w.micros - o.micros) then .ok (w.micros - o.micros - epoch)
      else .error .overflow := by
  simp only [dtToUs, astimezone, Option.getD_some]
  rcases Wall.ofMicros_cases (w.micros - o.micros) with ⟨hin, utc, hutc, hmicros⟩ | ⟨hout, hutc⟩
  · rw [if_pos hin, hutc]
    simp only [Except.map, Delta.of, hmicros, Except.ok.injEq]
    omega
  · rw [if_neg hout, hutc]
    rfl

theorem epoch_whole : epoch % 1000000 = 0 := by decide

theorem utc_micros : UTC.micros = 0 := rfl

theorem inRange_epoch (v : ℤ) : Wall.InRange (epoch + v / 1000000 * 1000000) ↔ Wall.InRange (epoch + v) := by
  simp only [Wall.InRange, epoch, maxOrdinal]
  omega

/-- **There and back**, where the date is one. -/
theorem roundTrip_eq (v : ℤ) :
    (epochUsToDatetime v).bind datetimeToEpochUs = if Wall.InRange (epoch + v) then .ok (cut v) else .error .range := by
  simp only [epochUsToDatetime, fromtimestamp]
  rcases Wall.ofMicros_cases (epoch + v / 1000000 * 1000000) with ⟨hin, w, hw, hseconds⟩ | ⟨hout, hw⟩
  · have hmicros : (replaceMicrosecond w (v % 1000000).toNat (by omega)).micros - UTC.micros = epoch + v := by
      have hwhole := epoch_whole
      rw [micros_replaceMicrosecond, hseconds, utc_micros]
      omega
    have hrange := (inRange_epoch v).1 hin
    rw [hw, if_pos hrange, Except.bind, datetimeToEpochUs_eq, hmicros, if_pos hrange, add_sub_cancel_left]
  · rw [hw, if_neg (mt (inRange_epoch v).2 hout)]
    rfl

/-! ## The text -/

theorem isDigit_cases {c : Char} (h : c.isDigit = true ∨ c ∈ ['-', 'T', ':', '.', '+']) : Gateway.pySpace c = false ∧
    c ≠ 'Z' := by
  have hbounds : 43 ≤ c.toNat ∧ c.toNat ≤ 84 := by
    rcases h with h | h
    · simp only [Char.isDigit, Bool.and_eq_true, decide_eq_true_eq, UInt32.le_iff_toNat_le] at h
      have h1 : 48 ≤ c.toNat := h.1
      have h2 : c.toNat ≤ 57 := h.2
      omega
    · simp only [List.mem_cons, List.not_mem_nil, or_false] at h
      rcases h with rfl | rfl | rfl | rfl | rfl <;> decide
  constructor
  · have hblank : c ≠ ' ' := by
      rintro rfl
      exact absurd hbounds.1 (by decide)
    have hwide : c.toNat ∉ [0x85, 0xa0, 0x1680, 0x2028, 0x2029, 0x202f, 0x205f, 0x3000] := by
      simp only [List.mem_cons, List.not_mem_nil, or_false]
      omega
    simp [Gateway.pySpace, Gateway.cSpace, hblank]
    simp at hwide
    omega
  · rintro rfl
    exact absurd hbounds.2 (by decide)

/-- The ISO form is neither stripped nor has it a `Z`. -/
theorem parseAwareText_isoformat (d : Datetime) : parseAwareText (isoformat d) = datetimeToEpochUs d := by
  have hchars : ∀ c ∈ (isoformat d).toList, Gateway.pySpace c = false ∧ c ≠ 'Z' :=
    fun c hc => isDigit_cases (mem_isoformat hc)
  have hstrip : Text.strip Gateway.pySpace (isoformat d).toList = (isoformat d).toList := by
    have hdrop : (isoformat d).toList.dropWhile Gateway.pySpace = (isoformat d).toList := by
      cases hl : (isoformat d).toList with
      | nil => rfl
      | cons c l => rw [List.dropWhile_cons, (hchars c (by rw [hl]; exact List.mem_cons_self)).1,
          if_neg Bool.false_ne_true]
    rw [Text.strip, hdrop, List.rdropWhile_eq_self_iff]
    intro hne
    rw [(hchars _ (List.getLast_mem hne)).1]
    exact Bool.false_ne_true
  have hlast : (isoformat d).toList.getLast? ≠ some 'Z' := fun h => (hchars _ (List.mem_of_getLast? h)).2 rfl
  simp only [parseAwareText, hstrip, if_neg hlast, String.ofList_toList, fromisoformat_isoformat]

/-- **The conversions are inverse, and agree, on the instants from 1970 on and on whole seconds**, and on no others. A
datetime that UTC has no date for makes all of them raise. -/
theorem conversions_iff (v : ℤ) (w : Wall) (o : Offset) :
    let d : Datetime := ⟨w, some o⟩
    let us := w.micros - o.micros - epoch
    ((epochUsToDatetime v).bind datetimeToEpochUs = .ok v ↔ Wall.InRange (epoch + v) ∧ (0 ≤ v ∨ v % 1000000 = 0)) ∧
      (datetimeToEpochUs d = dtToUs d ∧ parseAwareText (isoformat d) = dtToUs d ↔
        ¬ Wall.InRange (epoch + us) ∨ 0 ≤ us ∨ us % 1000000 = 0) := by
  intro d us
  constructor
  · rw [roundTrip_eq]
    split
    · simp [*, cut_eq_iff]
    · simp [*]
  · have hus : w.micros - o.micros = epoch + us := by
      simp only [us]
      omega
    rw [parseAwareText_isoformat, and_self, datetimeToEpochUs_eq, dtToUs_eq, hus, add_sub_cancel_left]
    split
    · simp [*, cut_eq_iff]
    · simp [*]

/-- A microsecond before 1970 comes back as 999999. -/
theorem minus_one : (epochUsToDatetime (-1)).bind datetimeToEpochUs = .ok 999999 := by
  have hrange : Wall.InRange (epoch + -1) := by decide
  rw [roundTrip_eq, if_pos hrange]
  rfl

end Migration.Aware

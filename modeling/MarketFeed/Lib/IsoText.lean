import Mathlib.Data.List.TakeWhile
import Mathlib.Tactic.Ring
import MarketFeed.Lib.Calendar
/-!
# The text of a date and time

`isoformat` of a datetime, with or without an offset, and `fromisoformat`, in the grammar of Python 3.10, which later
versions extend. What one writes the other reads (`fromisoformat_isoformat`): its numbers have fixed widths, and of
its signs only the one of the offset comes after the date.
-/

namespace Calendar

/-- A `timedelta` that `timezone` takes. -/
structure Offset where
  micros : ℤ
  bound : -86400000000 < micros ∧ micros < 86400000000
  deriving DecidableEq

/-- `utcoffset()` is none where there is no timezone. -/
structure Datetime where
  wall : Wall
  utcoffset : Option Offset
  deriving DecidableEq

/-! ## Writing -/

/-- `f"{n:0wd}"`, of a number that has no more digits. -/
def fixed : ℕ → ℕ → List Char
  | 0, _ => []
  | w + 1, n => fixed w (n / 10) ++ [Nat.digitChar (n % 10)]

def formatMicrosecond (us : ℕ) : List Char := if us = 0 then [] else '.' :: fixed 6 us

def formatDate (d : Date) : List Char := fixed 4 d.year ++ '-' :: fixed 2 d.month ++ '-' :: fixed 2 d.day

def formatTime (t : Time) : List Char :=
  fixed 2 t.hour ++ ':' :: fixed 2 t.minute ++ ':' :: fixed 2 t.second ++ formatMicrosecond t.microsecond

/-- An offset without its sign. -/
def formatMagnitude (off : ℕ) : List Char :=
  fixed 2 (off / 3600000000) ++ ':' :: fixed 2 (off / 60000000 % 60) ++
    if off % 60000000 = 0 then [] else ':' :: fixed 2 (off / 1000000 % 60) ++ formatMicrosecond (off % 1000000)

def formatOffset (o : Offset) : List Char := (if o.micros < 0 then '-' else '+') :: formatMagnitude o.micros.natAbs

def isoformat (d : Datetime) : String :=
  String.ofList (formatDate d.wall.date ++ 'T' :: formatTime d.wall.time ++ (d.utcoffset.map formatOffset).getD [])

/-! ## Reading -/

/-- A number of `w` digits, and what follows. -/
def digits : ℕ → List Char → Option (ℕ × List Char)
  | 0, l => some (0, l)
  | _ + 1, [] => none
  | w + 1, c :: l => if c.isDigit then (digits w l).map fun r => ((c.toNat - 48) * 10 ^ w + r.1, r.2) else none

def parseFraction : List Char → Option ℕ
  | [] => some 0
  | '.' :: l =>
    if l.length = 6 then (digits 6 l).map Prod.fst
    else if l.length = 3 then (digits 3 l).map fun r => r.1 * 1000
    else none
  | _ => none

def parseHhMmSsFf (l : List Char) : Option (ℕ × ℕ × ℕ × ℕ) :=
  match digits 2 l with
  | some (h, []) => some (h, 0, 0, 0)
  | some (h, ':' :: l) =>
    match digits 2 l with
    | some (m, []) => some (h, m, 0, 0)
    | some (m, ':' :: l) =>
      match digits 2 l with
      | some (s, l) => (parseFraction l).map fun us => (h, m, s, us)
      | none => none
    | _ => none
  | _ => none

def Date.of (y m d : ℕ) : Option Date :=
  if h : (1 ≤ y ∧ y ≤ 9999) ∧ (1 ≤ m ∧ m ≤ 12) ∧ (1 ≤ d ∧ d ≤ daysInMonth (isLeap y) m) then
    some ⟨y, m, d, h.1, h.2.1, h.2.2⟩ else none

def Time.of (h m s us : ℕ) : Option Time :=
  if hv : h < 24 ∧ m < 60 ∧ s < 60 ∧ us < 1000000 then some ⟨h, m, s, us, hv.1, hv.2.1, hv.2.2.1, hv.2.2.2⟩ else none

def Offset.of (n : ℤ) : Option Offset := if h : -86400000000 < n ∧ n < 86400000000 then some ⟨n, h⟩ else none

def parseDate (l : List Char) : Option (Date × List Char) :=
  match digits 4 l with
  | some (y, '-' :: l) =>
    match digits 2 l with
    | some (m, '-' :: l) =>
      match digits 2 l with
      | some (d, l) => (Date.of y m d).map fun date => (date, l)
      | none => none
    | _ => none
  | _ => none

def parseOffset : List Char → Option (Option Offset)
  | [] => some none
  | sign :: l =>
    if l.length = 5 ∨ l.length = 8 ∨ l.length = 15 then
      match parseHhMmSsFf l with
      | some (h, m, s, us) =>
        let off : ℤ := ((h * 60 + m) * 60 + s) * 1000000 + us
        (Offset.of (if sign = '-' then -off else off)).map some
      | none => none
    else none

def parseTime (l : List Char) : Option (Time × Option Offset) :=
  let isSign (c : Char) : Bool := c == '+' || c == '-'
  match parseHhMmSsFf (l.takeWhile fun c => !isSign c), parseOffset (l.dropWhile fun c => !isSign c) with
  | some (h, m, s, us), some off => (Time.of h m s us).map fun t => (t, off)
  | _, _ => none

def fromisoformat (s : String) : Option Datetime :=
  match parseDate s.toList with
  | some (date, []) => (Time.of 0 0 0 0).map fun t => ⟨⟨date, t⟩, none⟩
  | some (date, [_]) => (Time.of 0 0 0 0).map fun t => ⟨⟨date, t⟩, none⟩
  | some (date, _ :: l) => (parseTime l).map fun r => ⟨⟨date, r.1⟩, r.2⟩
  | none => none

/-! ## Round trips -/

theorem digitChar_spec : ∀ d < 10, (Nat.digitChar d).isDigit = true ∧ (Nat.digitChar d).toNat - 48 = d := by decide

@[simp] theorem fixed_length (w n : ℕ) : (fixed w n).length = w := by
  induction w generalizing n with
  | zero => rfl
  | succ w ih => simp [fixed, ih]

theorem isDigit_fixed {w n : ℕ} {c : Char} (h : c ∈ fixed w n) : c.isDigit = true := by
  induction w generalizing n with
  | zero => cases h
  | succ w ih =>
    rw [fixed, List.mem_append, List.mem_singleton] at h
    rcases h with h | rfl
    · exact ih h
    · exact (digitChar_spec _ (Nat.mod_lt n (by decide))).1

/-- One digit more at the end. -/
theorem digits_append {w : ℕ} {l : List Char} {n : ℕ} {c : Char} {rest : List Char}
    (h : digits w l = some (n, c :: rest)) (hc : c.isDigit = true) :
    digits (w + 1) l = some (n * 10 + (c.toNat - 48), rest) := by
  induction w generalizing l n with
  | zero =>
    cases h
    simp [digits, hc]
  | succ w ih =>
    cases l with
    | nil => cases h
    | cons x l =>
      rw [digits] at h ⊢
      split at h
      · obtain ⟨⟨k, rest'⟩, hr, heq⟩ := Option.map_eq_some_iff.1 h
        cases heq
        rw [if_pos ‹_›, ih hr, Option.map_some, pow_succ, Nat.add_mul, ← Nat.mul_assoc, Nat.add_assoc]
      · cases h

theorem digits_fixed {w n : ℕ} (h : n < 10 ^ w) (rest : List Char) : digits w (fixed w n ++ rest) = some (n, rest) := by
  induction w generalizing n rest with
  | zero =>
    have hzero : n = 0 := by simpa using h
    simp [digits, fixed, hzero]
  | succ w ih =>
    have hspec := digitChar_spec (n % 10) (Nat.mod_lt n (by decide))
    have hlt : n / 10 < 10 ^ w := by
      rw [pow_succ] at h
      omega
    rw [fixed, List.append_assoc, List.singleton_append, digits_append (ih hlt _) hspec.1, hspec.2]
    congr 2
    omega

theorem parseFraction_formatMicrosecond {us : ℕ} (h : us < 1000000) :
    parseFraction (formatMicrosecond us) = some us := by
  rw [formatMicrosecond]
  split
  · rename_i hzero
    rw [hzero]
    rfl
  · have hread := digits_fixed (w := 6) h []
    rw [List.append_nil] at hread
    rw [parseFraction, if_pos (fixed_length 6 us), hread]
    rfl

theorem parseHhMmSsFf_seconds {h m s us : ℕ} (hh : h < 100) (hm : m < 100) (hs : s < 100) (hus : us < 1000000) :
    parseHhMmSsFf (fixed 2 h ++ ':' :: fixed 2 m ++ ':' :: fixed 2 s ++ formatMicrosecond us) = some (h, m, s, us) := by
  simp only [List.append_assoc, List.cons_append, parseHhMmSsFf, digits_fixed (w := 2) hh, digits_fixed (w := 2) hm,
    digits_fixed (w := 2) hs,
    parseFraction_formatMicrosecond hus, Option.map_some]

theorem parseHhMmSsFf_minutes {h m : ℕ} (hh : h < 100) (hm : m < 100) :
    parseHhMmSsFf (fixed 2 h ++ ':' :: fixed 2 m) = some (h, m, 0, 0) := by
  have hread := digits_fixed (w := 2) hm []
  rw [List.append_nil] at hread
  simp only [parseHhMmSsFf, digits_fixed (w := 2) hh, hread]

theorem Date.of_eq (d : Date) : Date.of d.year d.month d.day = some d := by
  rw [Date.of, dif_pos ⟨d.year_valid, d.month_valid, d.day_valid⟩]

theorem Time.of_eq (t : Time) : Time.of t.hour t.minute t.second t.microsecond = some t := by
  rw [Time.of, dif_pos ⟨t.hour_valid, t.minute_valid, t.second_valid, t.microsecond_valid⟩]

theorem Offset.of_eq (o : Offset) : Offset.of o.micros = some o := by rw [Offset.of, dif_pos o.bound]

theorem parseDate_formatDate (d : Date) (rest : List Char) : parseDate (formatDate d ++ rest) = some (d, rest) := by
  have hy : d.year < 10 ^ 4 := by have := d.year_valid; omega
  have hm : d.month < 10 ^ 2 := by have := d.month_valid; omega
  have hd : d.day < 10 ^ 2 := by
    have := d.day_valid
    have hle : daysInMonth (isLeap d.year) d.month ≤ 31 := by
      unfold daysInMonth
      split
      · split <;> decide
      · split <;> decide
    omega
  simp only [formatDate, List.append_assoc, List.cons_append, parseDate, digits_fixed hy, digits_fixed hm,
    digits_fixed hd, Date.of_eq, Option.map_some]

theorem formatMagnitude_length (off : ℕ) :
    (formatMagnitude off).length = 5 ∨ (formatMagnitude off).length = 8 ∨ (formatMagnitude off).length = 15 := by
  rw [formatMagnitude, formatMicrosecond]
  split
  · simp
  · split <;> simp

theorem parse_formatMagnitude {off : ℕ} (h : off < 86400000000) :
    ∃ hh mm ss us, parseHhMmSsFf (formatMagnitude off) = some (hh, mm, ss, us) ∧
      ((hh * 60 + mm) * 60 + ss) * 1000000 + us = off := by
  rw [formatMagnitude]
  split
  · rw [List.append_nil, parseHhMmSsFf_minutes (by omega) (by omega)]
    exact ⟨_, _, _, _, rfl, by omega⟩
  · have hparse := @parseHhMmSsFf_seconds (off / 3600000000) (off / 60000000 % 60) (off / 1000000 % 60) (off % 1000000)
      (by omega) (by omega) (by omega) (by omega)
    simp only [List.append_assoc, List.cons_append] at hparse ⊢
    exact ⟨_, _, _, _, hparse, by omega⟩

/-- The sign and the number come back. -/
theorem parseOffset_formatOffset (o : Offset) : parseOffset (formatOffset o) = some (some o) := by
  have hbound := o.bound
  obtain ⟨hh, mm, ss, us, hparse, hvalue⟩ := @parse_formatMagnitude o.micros.natAbs (by omega)
  rw [formatOffset, parseOffset, if_pos (formatMagnitude_length _), hparse]
  have hoff : (if (if o.micros < 0 then '-' else '+') = '-' then -((((hh : ℤ) * 60 + mm) * 60 + ss) * 1000000 + us)
      else (((hh : ℤ) * 60 + mm) * 60 + ss) * 1000000 + us) = o.micros := by
    by_cases hneg : o.micros < 0
    · rw [if_pos hneg, if_pos rfl]
      omega
    · rw [if_neg hneg, if_neg (by decide)]
      omega
  simp only [hoff, Offset.of_eq, Option.map_some]

theorem mem_formatMicrosecond {us : ℕ} {c : Char} (h : c ∈ formatMicrosecond us) : c.isDigit = true ∨
    c ∈ [':', '.'] := by
  rw [formatMicrosecond] at h
  split at h
  · cases h
  · rcases List.mem_cons.1 h with rfl | h
    · exact .inr (by decide)
    · exact .inl (isDigit_fixed h)

theorem mem_formatTime {t : Time} {c : Char} (h : c ∈ formatTime t) : c.isDigit = true ∨ c ∈ [':', '.'] := by
  simp only [formatTime, List.mem_append, List.mem_cons] at h
  rcases h with ((h | rfl | h) | rfl | h) | h
  · exact .inl (isDigit_fixed h)
  · exact .inr (by decide)
  · exact .inl (isDigit_fixed h)
  · exact .inr (by decide)
  · exact .inl (isDigit_fixed h)
  · exact mem_formatMicrosecond h

/-- No sign comes before the offset. -/
theorem not_sign_formatTime {t : Time} {c : Char} (h : c ∈ formatTime t) : (!(c == '+' || c == '-')) = true := by
  by_contra hsign
  have hc : c = '+' ∨ c = '-' := by simpa [or_iff_not_imp_left] using hsign
  have hmem := mem_formatTime h
  rcases hc with rfl | rfl <;> simp at hmem

theorem parseTime_formatTime (t : Time) (off : Option Offset) :
    parseTime (formatTime t ++ (off.map formatOffset).getD []) = some (t, off) := by
  have hh := t.hour_valid
  have hm := t.minute_valid
  have hs := t.second_valid
  have hclock : parseHhMmSsFf (formatTime t) = some (t.hour, t.minute, t.second, t.microsecond) :=
    parseHhMmSsFf_seconds (by omega) (by omega) (by omega) t.microsecond_valid
  have hall : ∀ c ∈ formatTime t, (!(c == '+' || c == '-')) = true := fun c hc => not_sign_formatTime hc
  cases off with
  | none =>
    simp only [parseTime, Option.map_none, Option.getD_none, List.append_nil, List.takeWhile_eq_self_iff.2 hall,
      List.dropWhile_eq_nil_iff.2 hall,
      hclock, parseOffset, Time.of_eq, Option.map_some]
  | some o =>
    have hsign : (!((if o.micros < 0 then '-' else '+') == '+' || (if o.micros < 0 then '-' else '+') == '-')) =
        false := by
      split <;> rfl
    have hread := parseOffset_formatOffset o
    rw [formatOffset] at hread
    simp only [parseTime, Option.map_some, Option.getD_some, formatOffset, List.takeWhile_append_of_pos hall,
      List.dropWhile_append_of_pos hall,
      List.takeWhile_cons, List.dropWhile_cons, hsign, Bool.false_eq_true, if_false, List.append_nil, hclock,
        hread, Time.of_eq]

theorem mem_formatMagnitude {off : ℕ} {c : Char} (h : c ∈ formatMagnitude off) : c.isDigit = true ∨ c ∈ [':', '.'] := by
  simp only [formatMagnitude, List.mem_append, List.mem_cons] at h
  rcases h with (h | rfl | h) | h
  · exact .inl (isDigit_fixed h)
  · exact .inr (by decide)
  · exact .inl (isDigit_fixed h)
  · split at h
    · cases h
    · simp only [List.mem_append, List.mem_cons] at h
      rcases h with (rfl | h) | h
      · exact .inr (by decide)
      · exact .inl (isDigit_fixed h)
      · exact mem_formatMicrosecond h

/-- The characters of the text. -/
theorem mem_isoformat {d : Datetime} {c : Char} (h : c ∈ (isoformat d).toList) : c.isDigit = true ∨
    c ∈ ['-', 'T', ':', '.', '+'] := by
  have hwider (hc : c.isDigit = true ∨ c ∈ [':', '.']) : c.isDigit = true ∨ c ∈ ['-', 'T', ':', '.', '+'] :=
    hc.imp_right fun hmem => by rcases List.mem_cons.1 hmem with rfl | hmem <;> simp_all
  rw [isoformat, String.toList_ofList, List.append_assoc, List.mem_append, List.cons_append, List.mem_cons,
    List.mem_append] at h
  rcases h with h | rfl | h | h
  · simp only [formatDate, List.mem_append, List.mem_cons] at h
    rcases h with (h | rfl | h) | rfl | h
    · exact .inl (isDigit_fixed h)
    · exact .inr (by decide)
    · exact .inl (isDigit_fixed h)
    · exact .inr (by decide)
    · exact .inl (isDigit_fixed h)
  · exact .inr (by decide)
  · exact hwider (mem_formatTime h)
  · cases hoff : d.utcoffset with
    | none =>
      rw [hoff] at h
      cases h
    | some o =>
      rw [hoff, Option.map_some, Option.getD_some, formatOffset, List.mem_cons] at h
      rcases h with rfl | h
      · right
        split <;> decide
      · exact hwider (mem_formatMagnitude h)

/-- **What is written is read back.** -/
theorem fromisoformat_isoformat (d : Datetime) : fromisoformat (isoformat d) = some d := by
  have hlong : ∃ a b l, formatTime d.wall.time ++ (d.utcoffset.map formatOffset).getD [] = a :: b :: l := ⟨_, _, _, rfl⟩
  have htime := parseTime_formatTime d.wall.time d.utcoffset
  obtain ⟨a, b, l, htext⟩ := hlong
  rw [isoformat, fromisoformat, String.toList_ofList, List.append_assoc, List.cons_append, parseDate_formatDate]
  rw [htext] at htime ⊢
  simp only [htime, Option.map_some]

end Calendar

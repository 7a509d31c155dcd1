import Mathlib.Data.List.Basic
import Mathlib.Data.Nat.Notation
/-!
# The lines of a text file

Iteration over a file that is opened with `newline=""`: a line ends with `\n`, `\r` or `\r\n` and keeps its end. The
lines join to the text (`fileLines_flatten`), and within a line nothing follows a break but breaks
(`break_of_mem_fileLines`).
-/

namespace FileLines

def isBreak (c : Char) : Bool := c == '\n' || c == '\r'

/-- `c` at the start of the first line. -/
def inFront (c : Char) : List (List Char) → List (List Char)
  | [] => [[c]]
  | line :: lines => (c :: line) :: lines

def fileLines : List Char → List (List Char)
  | [] => []
  | '\r' :: '\n' :: s => ['\r', '\n'] :: fileLines s
  | c :: s => if isBreak c then [c] :: fileLines s else inFront c (fileLines s)

theorem inFront_flatten (c : Char) (lines : List (List Char)) : (inFront c lines).flatten = c :: lines.flatten := by
  cases lines <;> rfl

theorem inFront_append (c : Char) {lines : List (List Char)} (h : lines ≠ []) (lines' : List (List Char)) :
    inFront c (lines ++ lines') = inFront c lines ++ lines' := by
  cases lines with
  | nil => exact absurd rfl h
  | cons line lines => rfl

theorem fileLines_crlf (s : List Char) : fileLines ('\r' :: '\n' :: s) = ['\r', '\n'] :: fileLines s := rfl

theorem fileLines_other {c : Char} {s : List Char} (hcr : ∀ s', c = '\r' → s ≠ '\n' :: s') :
    fileLines (c :: s) = if isBreak c then [c] :: fileLines s else inFront c (fileLines s) := by
  rw [fileLines]
  exact fun s' hc => hcr s' hc

theorem fileLines_break {c : Char} {s : List Char} (h : isBreak c = true) (hcr : ∀ s', c = '\r' → s ≠ '\n' :: s') :
    fileLines (c :: s) = [c] :: fileLines s := (fileLines_other hcr).trans (if_pos h)

theorem fileLines_cons {c : Char} {s : List Char} (h : isBreak c = false) :
    fileLines (c :: s) = inFront c (fileLines s) := by
  rw [fileLines_other, if_neg (by simp [h])]
  rintro s' rfl
  cases h

/-- Both characters of `\r\n` at once, any other by itself. -/
@[elab_as_elim]
theorem line_induction {motive : List Char → Prop} (nil : motive []) (crlf : ∀ s, motive s → motive ('\r' :: '\n' :: s))
    (brk : ∀ c s, (∀ s', c = '\r' → s ≠ '\n' :: s') → isBreak c = true → motive s → motive (c :: s))
    (char : ∀ c s, isBreak c = false → motive s → motive (c :: s)) (s : List Char) : motive s := by
  induction s using fileLines.induct with
  | case1 => exact nil
  | case2 s ih => exact crlf s ih
  | case3 c s hcr hc ih => exact brk c s hcr hc ih
  | case4 c s hcr hc ih => exact char c s (Bool.eq_false_iff.2 hc) ih

theorem fileLines_flatten (s : List Char) : (fileLines s).flatten = s := by
  induction s using line_induction with
  | nil => rfl
  | crlf s ih => simp [fileLines_crlf, ih]
  | brk c s hcr hc ih => rw [fileLines_break hc hcr, List.flatten_cons, ih, List.singleton_append]
  | char c s hc ih => rw [fileLines_cons hc, inFront_flatten, ih]

theorem fileLines_ne_nil {s : List Char} (h : s ≠ []) : fileLines s ≠ [] := by
  intro he
  have hflat := fileLines_flatten s
  rw [he] at hflat
  exact h hflat.symm

/-- Nothing but breaks follows a break in its line. -/
theorem break_of_mem_fileLines {s line : List Char} (h : line ∈ fileLines s) :
    ∀ c ∈ line.dropWhile fun c => !isBreak c, isBreak c = true := by
  induction s using line_induction generalizing line with
  | nil => cases h
  | crlf s ih =>
    rcases List.mem_cons.1 h with rfl | h
    · simp [isBreak]
    · exact ih h
  | brk c s hcr hc ih =>
    rw [fileLines_break hc hcr] at h
    rcases List.mem_cons.1 h with rfl | h
    · simp [hc]
    · exact ih h
  | char c s hc ih =>
    rw [fileLines_cons hc] at h
    cases hs : fileLines s with
    | nil =>
      rw [hs] at h
      rw [List.mem_singleton.1 h]
      simp [hc]
    | cons l ls =>
      rw [hs] at h ih
      rcases List.mem_cons.1 h with rfl | h
      · rw [List.dropWhile_cons_of_pos (by simp [hc])]
        exact ih List.mem_cons_self
      · exact ih (List.mem_cons_of_mem _ h)

/-- A line feed ends a line whatever comes after it. -/
theorem fileLines_append (s s' : List Char) :
    fileLines (s ++ '\n' :: s') = fileLines (s ++ ['\n']) ++ fileLines s' := by
  induction s using line_induction with
  | nil => exact fileLines_break rfl (by simp)
  | crlf s ih => simp [fileLines_crlf, ih]
  | brk c s hcr hc ih =>
    by_cases hs : c = '\r' ∧ s = []
    · obtain ⟨rfl, rfl⟩ := hs
      rfl
    · have hne : ∀ t u, c = '\r' → s ++ t ≠ '\n' :: u := by
        intro t u h he
        cases s with
        | nil => exact hs ⟨h, rfl⟩
        | cons a s => exact hcr s h (by rw [(List.cons.inj he).1])
      rw [List.cons_append, List.cons_append, fileLines_break hc (hne _), fileLines_break hc (hne _), ih,
        List.cons_append]
  | char c s hc ih =>
    rw [List.cons_append, List.cons_append, fileLines_cons hc, fileLines_cons hc, ih,
      inFront_append c (fileLines_ne_nil (by simp))]

/-- A text without breaks is one line with the line feed after it. -/
theorem fileLines_plain {s : List Char} (h : ∀ c ∈ s, isBreak c = false) : fileLines (s ++ ['\n']) = [s ++ ['\n']] := by
  induction s with
  | nil => rfl
  | cons c s ih =>
    obtain ⟨hc, hs⟩ := List.forall_mem_cons.1 h
    rw [List.cons_append, fileLines_cons hc, ih hs, inFront]

/-- In a text of one line nothing but breaks follows a break. -/
theorem break_of_one_line {s : List Char} (h : (fileLines s).length = 1) :
    ∀ c ∈ s.dropWhile fun c => !isBreak c, isBreak c = true := by
  obtain ⟨line, hline⟩ := List.length_eq_one_iff.1 h
  have hflat := fileLines_flatten s
  rw [hline, List.flatten_singleton] at hflat
  rw [← hflat]
  exact break_of_mem_fileLines (hline ▸ List.mem_singleton_self line)

theorem mem_dropWhile {u v : List Char} {b c : Char} (hb : isBreak b = true) (hc : c ∈ v) :
    c ∈ (u ++ b :: v).dropWhile fun c => !isBreak c := by
  induction u with
  | nil => simp [hb, hc]
  | cons a u ih =>
    by_cases ha : isBreak a = true
    · simp [ha, hc]
    · simpa [ha] using ih

end FileLines

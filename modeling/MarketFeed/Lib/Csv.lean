import Mathlib.Data.List.Basic
import Mathlib.Data.Nat.Notation
/-!
# Rows of fields as one text

A field is written as it is, or between quotes with every quote doubled where it holds a special element; a row
of one empty field is written with quotes. What is written is read in one way only: a field ends at the first
separator after it (`field_append`), a row at the first terminator between fields (`row_append`). A reader that
goes through the text element by element gets the rows back (`read_rows`).
-/

namespace Csv

structure Dialect (α : Type) where
  delimiter : α
  quote : α
  terminator : α
  special : α → Bool
  special_delimiter : special delimiter = true
  special_quote : special quote = true
  special_terminator : special terminator = true
  delimiter_ne_quote : delimiter ≠ quote
  terminator_ne_quote : terminator ≠ quote
  delimiter_ne_terminator : delimiter ≠ terminator

variable {α : Type} [DecidableEq α] (d : Dialect α)

/-- Every quote twice. -/
def Dialect.escape (s : List α) : List α := s.flatMap fun c => if c = d.quote then [d.quote, d.quote] else [c]

def Dialect.quoted (s : List α) : List α := d.quote :: (d.escape s ++ [d.quote])

def Dialect.field (force : Bool) (s : List α) : List α := if force || s.any d.special then d.quoted s else s

def Dialect.row : List (List α) → List α
  | [] => [d.terminator]
  | [f] => d.field f.isEmpty f ++ [d.terminator]
  | f :: g :: fs => d.field false f ++ d.delimiter :: row (g :: fs)

def Dialect.rows (l : List (List (List α))) : List α := l.flatMap d.row

theorem rows_append (l m : List (List (List α))) : d.rows (l ++ m) = d.rows l ++ d.rows m := List.flatMap_append

theorem escape_cons_quote (s : List α) : d.escape (d.quote :: s) = d.quote :: d.quote :: d.escape s := by
  simp [Dialect.escape]

theorem escape_cons {a : α} (h : a ≠ d.quote) (s : List α) : d.escape (a :: s) = a :: d.escape s := by
  simp [Dialect.escape, h]

/-- An escaped text ends at the first quote that is not doubled. -/
theorem escape_append {s s' x x' : List α} {c c' : α} (hc : c ≠ d.quote) (hc' : c' ≠ d.quote)
    (h : d.escape s ++ d.quote :: c :: x = d.escape s' ++ d.quote :: c' :: x') : s = s' ∧ c :: x = c' :: x' := by
  induction s generalizing s' with
  | nil =>
    cases s' with
    | nil => exact ⟨rfl, (List.cons.inj h).2⟩
    | cons a s' =>
      by_cases ha : a = d.quote
      · rw [ha, escape_cons_quote] at h
        exact absurd (List.cons.inj (List.cons.inj h).2).1 hc
      · rw [escape_cons d ha] at h
        exact absurd (List.cons.inj h).1.symm ha
  | cons a s ih =>
    cases s' with
    | nil =>
      by_cases ha : a = d.quote
      · rw [ha, escape_cons_quote] at h
        exact absurd (List.cons.inj (List.cons.inj h).2).1.symm hc'
      · rw [escape_cons d ha] at h
        exact absurd (List.cons.inj h).1 ha
    | cons a' s' =>
      by_cases ha : a = d.quote <;> by_cases ha' : a' = d.quote
      · rw [ha, ha', escape_cons_quote, escape_cons_quote] at h
        obtain ⟨rfl, hx⟩ := ih (List.cons.inj (List.cons.inj h).2).2
        exact ⟨by rw [ha, ha'], hx⟩
      · rw [ha, escape_cons_quote, escape_cons d ha'] at h
        exact absurd (List.cons.inj h).1.symm ha'
      · rw [ha', escape_cons_quote, escape_cons d ha] at h
        exact absurd (List.cons.inj h).1 ha
      · rw [escape_cons d ha, escape_cons d ha'] at h
        obtain ⟨haa, h⟩ := List.cons.inj h
        obtain ⟨rfl, hx⟩ := ih h
        exact ⟨by rw [haa], hx⟩

omit [DecidableEq α] in
/-- A plain text ends at the first special element. -/
theorem plain_append {s s' x x' : List α} {c c' : α} (hs : s.any d.special = false) (hs' : s'.any d.special = false)
    (hc : d.special c = true) (hc' : d.special c' = true) (h : s ++ c :: x = s' ++ c' :: x') : s = s' ∧
      c :: x = c' :: x' := by
  induction s generalizing s' with
  | nil =>
    cases s' with
    | nil => exact ⟨rfl, h⟩
    | cons a s' =>
      have ha := (List.cons.inj h).1
      simp [← ha, hc] at hs'
  | cons a s ih =>
    cases s' with
    | nil =>
      have ha := (List.cons.inj h).1
      simp [ha, hc'] at hs
    | cons a' s' =>
      rw [List.any_cons, Bool.or_eq_false_iff] at hs hs'
      obtain ⟨ha, ht⟩ := List.cons.inj h
      obtain ⟨rfl, hx⟩ := ih hs.2 hs'.2 ht
      exact ⟨by rw [ha], hx⟩

/-- A text without quotes and a quoted one start differently. -/
theorem plain_ne_quoted {s s' x x' : List α} {c : α} (hs : s.any d.special = false) (hc : c ≠ d.quote) :
    s ++ c :: x ≠ d.quoted s' ++ x' := by
  intro h
  cases s with
  | nil => exact hc (List.cons.inj h).1
  | cons a s =>
    have ha : a = d.quote := (List.cons.inj h).1
    simp [ha, d.special_quote] at hs

theorem quoted_append {s s' x x' : List α} {c c' : α} (hc : c ≠ d.quote) (hc' : c' ≠ d.quote)
    (h : d.quoted s ++ c :: x = d.quoted s' ++ c' :: x') : s = s' ∧ c :: x = c' :: x' := by
  refine escape_append d hc hc' ?_
  simpa [Dialect.quoted] using h

theorem field_append {b b' : Bool} {s s' x x' : List α} {c c' : α} (hc : d.special c = true) (hc' : d.special c' = true)
    (hq : c ≠ d.quote) (hq' : c' ≠ d.quote) (h : d.field b s ++ c :: x = d.field b' s' ++ c' :: x') : s = s' ∧
      c :: x = c' :: x' := by
  have hplain : ∀ {b : Bool} {s : List α}, ¬ (b || s.any d.special) = true → s.any d.special = false :=
    fun hb => ((Bool.or_eq_false_iff).1 (Bool.eq_false_iff.2 hb)).2
  unfold Dialect.field at h
  split at h <;> split at h
  · exact quoted_append d hq hq' h
  · rename_i hs'
    exact absurd h.symm (plain_ne_quoted d (hplain hs') hq')
  · rename_i hs _
    exact absurd h (plain_ne_quoted d (hplain hs) hq)
  · rename_i hs hs'
    exact plain_append d (hplain hs) (hplain hs') hc hc' h

/-- **A row ends at the first terminator between its fields.** -/
theorem row_append {r r' : List (List α)} {x x' : List α} (h : d.row r ++ x = d.row r' ++ x') : r = r' ∧ x = x' := by
  have hempty : ∀ f y y' : List α, d.terminator :: y ≠ d.field f.isEmpty f ++ d.terminator :: y' := by
    intro f y y' he
    cases f with
    | nil => exact d.terminator_ne_quote (List.cons.inj he).1
    | cons a f =>
      have := field_append d (b := false) (s := []) d.special_terminator d.special_terminator d.terminator_ne_quote
        d.terminator_ne_quote he
      cases this.1
  have hone : ∀ {b : Bool} {f f' y y' : List α}, d.field b f ++ d.terminator :: y ≠ d.field false f' ++
      d.delimiter :: y' := by
    intro b f f' y y' he
    have := field_append d d.special_terminator d.special_delimiter d.terminator_ne_quote d.delimiter_ne_quote he
    exact d.delimiter_ne_terminator (List.cons.inj this.2).1.symm
  induction r generalizing r' with
  | nil =>
    match r' with
    | [] => exact ⟨rfl, (List.cons.inj h).2⟩
    | [f'] => exact absurd (by simpa [Dialect.row] using h) (hempty f' x x')
    | f' :: g' :: fs' =>
      have he : d.field false [] ++ d.terminator :: x = d.field false f' ++
          d.delimiter :: (d.row (g' :: fs') ++ x') := by
        simpa [Dialect.row, Dialect.field] using h
      exact absurd he hone
  | cons f r ih =>
    match r, r' with
    | [], [] => exact absurd (by simpa [Dialect.row] using h.symm) (hempty f x' x)
    | [], [f'] =>
      simp only [Dialect.row, List.append_assoc, List.singleton_append] at h
      obtain ⟨rfl, hx⟩ := field_append d d.special_terminator d.special_terminator d.terminator_ne_quote
        d.terminator_ne_quote h
      exact ⟨rfl, (List.cons.inj hx).2⟩
    | [], f' :: g' :: fs' =>
      simp only [Dialect.row, List.append_assoc, List.cons_append, List.nil_append] at h
      exact absurd h hone
    | g :: fs, [] =>
      have he : d.field false [] ++ d.terminator :: x' = d.field false f ++ d.delimiter :: (d.row (g :: fs) ++ x) := by
        simpa [Dialect.row, Dialect.field] using h.symm
      exact absurd he hone
    | g :: fs, [f'] =>
      simp only [Dialect.row, List.append_assoc, List.cons_append, List.nil_append] at h
      exact absurd h.symm hone
    | g :: fs, f' :: g' :: fs' =>
      simp only [Dialect.row, List.append_assoc, List.cons_append] at h
      obtain ⟨rfl, hx⟩ := field_append d d.special_delimiter d.special_delimiter d.delimiter_ne_quote
        d.delimiter_ne_quote h
      obtain ⟨hr, hx⟩ := ih (List.cons.inj hx).2
      exact ⟨by rw [hr], hx⟩

theorem row_ne_nil (r : List (List α)) : d.row r ≠ [] := by
  match r with
  | [] => simp [Dialect.row]
  | [f] => simp [Dialect.row]
  | f :: g :: fs => simp [Dialect.row]

/-- **Two lists of rows are never written alike.** -/
theorem rows_injective : Function.Injective d.rows := by
  intro l m h
  induction l generalizing m with
  | nil =>
    cases m with
    | nil => rfl
    | cons r m => exact absurd (List.append_eq_nil_iff.1 h.symm).1 (row_ne_nil d r)
  | cons r l ih =>
    cases m with
    | nil => exact absurd (List.append_eq_nil_iff.1 h).1 (row_ne_nil d r)
    | cons r' m =>
      obtain ⟨hr, ht⟩ := row_append d h
      rw [hr, ih ht]

/-! ## Where the fields lie in a row -/

theorem subset_escape (s : List α) : s ⊆ d.escape s := by
  intro c hc
  refine List.mem_flatMap.2 ⟨c, hc, ?_⟩
  split
  · rename_i h
    simp [h]
  · simp

theorem escape_subset (s : List α) : d.escape s ⊆ s := by
  intro c hc
  obtain ⟨a, ha, hmem⟩ := List.mem_flatMap.1 hc
  split at hmem
  · rename_i h
    have hca : c = a := by simpa [h] using hmem
    exact hca ▸ ha
  · exact List.mem_singleton.1 hmem ▸ ha

theorem mem_field {b : Bool} {s : List α} {c : α} (h : c ∈ d.field b s) : c = d.quote ∨ c ∈ s := by
  unfold Dialect.field at h
  split at h
  · have hmem : c = d.quote ∨ c ∈ d.escape s := by
      simpa [Dialect.quoted, or_comm, or_assoc] using h
    exact hmem.imp_right fun hc => escape_subset d s hc
  · exact .inr h

/-- Every field of a row is written somewhere in it. -/
theorem row_of_mem {r : List (List α)} {f : List α} (h : f ∈ r) : ∃ u b v, d.row r = u ++ (d.field b f ++ v) := by
  induction r with
  | nil => cases h
  | cons g r ih =>
    match r, h with
    | [], h =>
      rw [List.mem_singleton.1 h]
      exact ⟨[], g.isEmpty, [d.terminator], rfl⟩
    | g' :: fs, h =>
      rcases List.mem_cons.1 h with rfl | h
      · exact ⟨[], false, d.delimiter :: d.row (g' :: fs), rfl⟩
      · obtain ⟨u, b, v, hrow⟩ := ih h
        refine ⟨d.field false g ++ d.delimiter :: u, b, v, ?_⟩
        simp [Dialect.row, hrow]

/-- A row is its fields, delimiters and quotes, and then a terminator. -/
theorem row_body (r : List (List α)) :
    ∃ body, d.row r = body ++ [d.terminator] ∧ ∀ c ∈ body, c = d.delimiter ∨ c = d.quote ∨ ∃ f ∈ r, c ∈ f := by
  induction r with
  | nil => exact ⟨[], rfl, by simp⟩
  | cons f r ih =>
    match r with
    | [] =>
      refine ⟨d.field f.isEmpty f, rfl, fun c hc => .inr ?_⟩
      exact (mem_field d hc).imp_right fun h => ⟨f, List.mem_cons_self, h⟩
    | g :: fs =>
      obtain ⟨body, hrow, hbody⟩ := ih
      refine ⟨d.field false f ++ d.delimiter :: body, by simp [Dialect.row, hrow], ?_⟩
      intro c hc
      rcases List.mem_append.1 hc with hc | hc
      · exact .inr ((mem_field d hc).imp_right fun h => ⟨f, List.mem_cons_self, h⟩)
      · rcases List.mem_cons.1 hc with hc | hc
        · exact .inl hc
        · exact (hbody c hc).imp_right (Or.imp_right fun ⟨f', hf', h⟩ => ⟨f', List.mem_cons_of_mem _ hf', h⟩)

/-! ## Reading -/

inductive Mode
  | startRecord
  | startField
  | inField
  | inQuoted
  | quoteInQuoted
  deriving DecidableEq

structure Reader (α : Type) where
  mode : Mode
  field : List α
  fields : List (List α)
  records : List (List (List α))
  deriving DecidableEq

/-- The special elements at which a record ends. -/
def Dialect.breaks (c : α) : Bool := d.special c && decide (c ≠ d.delimiter) && decide (c ≠ d.quote)

def Reader.add (r : Reader α) (mode : Mode) (c : α) : Reader α := { r with mode := mode, field := r.field ++ [c] }

/-- The field is complete, and at a break the record with it. -/
def Dialect.close (r : Reader α) (c : α) : Reader α :=
  if d.breaks c then { mode := .startRecord, field := [], fields := [], records := r.records ++
    [r.fields ++ [r.field]] }
  else { r with mode := .startField, field := [], fields := r.fields ++ [r.field] }

def Dialect.plain (r : Reader α) (c : α) : Reader α := if d.breaks c || decide (c = d.delimiter) then d.close r c
    else r.add .inField c

def Dialect.start (r : Reader α) (c : α) : Reader α := if c = d.quote then { r with mode := .inQuoted } else d.plain r c

/-- One element; a blank line is no record. -/
def Dialect.step (r : Reader α) (c : α) : Reader α :=
  match r.mode with
  | .startRecord => if d.breaks c then r else d.start r c
  | .startField => d.start r c
  | .inField => d.plain r c
  | .inQuoted => if c = d.quote then { r with mode := .quoteInQuoted } else r.add .inQuoted c
  | .quoteInQuoted => if c = d.quote then r.add .inQuoted c else d.plain r c

/-- The records of a text, its last one also where no break ends it. -/
def Dialect.read (s : List α) : List (List (List α)) :=
  let r := s.foldl d.step ⟨.startRecord, [], [], []⟩
  if r.mode = .startRecord then r.records else r.records ++ [r.fields ++ [r.field]]

theorem breaks_terminator : d.breaks d.terminator = true := by
  simp [Dialect.breaks, d.special_terminator, d.terminator_ne_quote, d.delimiter_ne_terminator.symm]

theorem breaks_quote : d.breaks d.quote = false := by simp [Dialect.breaks]

theorem breaks_delimiter : d.breaks d.delimiter = false := by simp [Dialect.breaks]

theorem not_special_separates {a : α} (h : d.special a = false) : (d.breaks a || decide (a = d.delimiter)) = false ∧
    a ≠ d.quote := by
  refine ⟨?_, fun ha => ?_⟩
  · have hne : a ≠ d.delimiter := fun ha => by simp [ha, d.special_delimiter] at h
    simp [Dialect.breaks, h, hne]
  · simp [ha, d.special_quote] at h

theorem foldl_plain {s : List α} (h : s.any d.special = false) (r : Reader α) (hm : r.mode = .inField) :
    s.foldl d.step r = { r with field := r.field ++ s } := by
  induction s generalizing r with
  | nil => simp
  | cons a s ih =>
    rw [List.any_cons, Bool.or_eq_false_iff] at h
    have hstep : d.step r a = r.add .inField a := by
      simp [Dialect.step, hm, Dialect.plain, (not_special_separates d h.1).1]
    rw [List.foldl_cons, hstep, ih h.2 _ rfl]
    simp [Reader.add, hm]

theorem foldl_escape (s : List α) (r : Reader α) (hm : r.mode = .inQuoted) :
    (d.escape s).foldl d.step r = { r with field := r.field ++ s } := by
  induction s generalizing r with
  | nil => simp [Dialect.escape]
  | cons a s ih =>
    have hone : ∀ l, (d.escape (a :: s)).foldl d.step r = l ↔ (d.escape s).foldl d.step (r.add .inQuoted a) = l := by
      intro l
      by_cases ha : a = d.quote
      · simp [ha, escape_cons_quote, Dialect.step, hm, Reader.add]
      · simp [escape_cons d ha, Dialect.step, hm, ha]
    rw [hone, ih _ rfl]
    simp [Reader.add, hm]

/-- **A field is read up to its separator.** -/
theorem foldl_field {b : Bool} {s : List α} {c : α} (r : Reader α) (hc : d.breaks c = true ∨ c = d.delimiter)
    (hf : r.field = [])
    (hm : r.mode = .startField ∨ r.mode = .startRecord ∧ (b = true ∨ s ≠ [] ∨ c = d.delimiter)) :
    (d.field b s ++ [c]).foldl d.step r = d.close { r with field := s } c := by
  have hsep : (d.breaks c || decide (c = d.delimiter)) = true := by simpa using hc
  have hcq : c ≠ d.quote := by
    rintro rfl
    exact hc.elim (fun h => by simp [breaks_quote] at h) fun h => d.delimiter_ne_quote h.symm
  have hstart : ∀ a, d.breaks a = false ∨ r.mode = .startField → d.step r a = d.start r a := by
    intro a ha
    rcases hm with hm | ⟨hm, _⟩
    · simp [Dialect.step, hm]
    · simp [Dialect.step, hm, ha.resolve_right (by simp [hm])]
  unfold Dialect.field
  split
  · rw [Dialect.quoted, List.cons_append, List.foldl_cons, hstart _ (.inl (breaks_quote d)), List.append_assoc,
      List.foldl_append,
      Dialect.start, if_pos rfl, foldl_escape d s _ rfl]
    simp [Dialect.step, hcq, Dialect.plain, hsep, Dialect.close, hf]
  · rename_i hplain
    obtain ⟨hb, hs⟩ := Bool.or_eq_false_iff.1 (Bool.eq_false_iff.2 hplain)
    cases s with
    | nil =>
      have hopen : d.breaks c = false ∨ r.mode = .startField := by
        rcases hm with hm | ⟨_, hm⟩
        · exact .inr hm
        · rcases hm with hm | hm | rfl
          · cases hb.symm.trans hm
          · exact absurd rfl hm
          · exact .inl (breaks_delimiter d)
      simp [hstart c hopen, Dialect.start, hcq, Dialect.plain, hsep, Dialect.close, hf]
    | cons a s =>
      rw [List.any_cons, Bool.or_eq_false_iff] at hs
      obtain ⟨hna, hq⟩ := not_special_separates d hs.1
      have hadd : d.step r a = r.add .inField a := by
        rw [hstart a (.inl (Bool.or_eq_false_iff.1 hna).1), Dialect.start, if_neg hq, Dialect.plain, hna]
        rfl
      rw [List.cons_append, List.foldl_cons, hadd, List.foldl_append, foldl_plain d hs.2 _ rfl]
      simp [Dialect.step, Reader.add, Dialect.plain, hsep, Dialect.close, hf]

theorem foldl_row {row : List (List α)} (hne : row ≠ []) {mode : Mode} (hm : mode = .startField ∨ mode = .startRecord)
    (fields : List (List α)) (records : List (List (List α))) :
    (d.row row).foldl d.step ⟨mode, [], fields, records⟩ = ⟨.startRecord, [], [], records ++ [fields ++ row]⟩ := by
  induction row generalizing mode fields with
  | nil => exact absurd rfl hne
  | cons f row ih =>
    match row with
    | [] =>
      have hforce : f.isEmpty = true ∨ f ≠ [] ∨ d.terminator = d.delimiter := by
        cases f <;> simp
      rw [Dialect.row, foldl_field d _ (.inl (breaks_terminator d)) rfl (hm.imp_right fun h => ⟨h, hforce⟩),
        Dialect.close,
        if_pos (breaks_terminator d)]
    | g :: fs =>
      have hdel := foldl_field d (b := false) (s := f) ⟨mode, [], fields, records⟩ (.inr rfl) rfl
        (hm.imp_right fun h => ⟨h, .inr (.inr rfl)⟩)
      rw [Dialect.row, ← List.singleton_append, ← List.append_assoc, List.foldl_append, hdel, Dialect.close,
        breaks_delimiter]
      simpa using ih (by simp) (.inl rfl) (fields ++ [f])

/-- **Reading gives back the rows that were written.** -/
theorem read_rows {l : List (List (List α))} (h : ∀ row ∈ l, row ≠ []) : d.read (d.rows l) = l := by
  have hfold : ∀ records, (d.rows l).foldl d.step ⟨.startRecord, [], [], records⟩ =
      ⟨.startRecord, [], [], records ++ l⟩ := by
    induction l with
    | nil => simp [Dialect.rows]
    | cons row l ih =>
      intro records
      obtain ⟨hrow, hl⟩ := List.forall_mem_cons.1 h
      have hrows : d.rows (row :: l) = d.row row ++ d.rows l := List.flatMap_cons
      rw [hrows, List.foldl_append, foldl_row d hrow (.inr rfl), ih hl]
      simp
  simp [Dialect.read, hfold]

end Csv

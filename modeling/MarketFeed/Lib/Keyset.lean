import Mathlib.Data.List.Basic
import Mathlib.Tactic.Common
import Mathlib.Order.Basic
import Mathlib.Algebra.Order.Group.Int
/-!
# Reading a keyed table in chunks

A table is a list of rows in the order of their ids. A reader that remembers the last id it took reads
on from there (`after`, `chunk`), whatever the size of the chunks and whatever ids are missing; `upTo k`
is what it has read when it stands at `k`, `between` the rows of one chunk read again.
-/

namespace Keyset

variable {α : Type}

/-- The ids ascend, and no two rows have the same. -/
def Ascending (rows : List (Int × α)) : Prop := rows.Pairwise fun a b => a.1 < b.1

def upTo (k : Int) (rows : List (Int × α)) : List (Int × α) := rows.filter fun r => decide (r.1 ≤ k)

def after (k : Int) (rows : List (Int × α)) : List (Int × α) := rows.filter fun r => decide (k < r.1)

def between (first last : Int) (rows : List (Int × α)) : List (Int × α) :=
  rows.filter fun r => decide (first ≤ r.1 ∧ r.1 ≤ last)

/-- `LIMIT`: a negative one is none. -/
def limited (limit : Int) (rows : List (Int × α)) : List (Int × α) :=
  if limit < 0 then rows else rows.take limit.toNat

def chunk (k limit : Int) (rows : List (Int × α)) : List (Int × α) := limited limit (after k rows)

theorem limited_append (limit : Int) (rows : List (Int × α)) : ∃ rest, limited limit rows ++ rest = rows := by
  unfold limited
  split
  · exact ⟨[], List.append_nil rows⟩
  · exact ⟨rows.drop limit.toNat, List.take_append_drop _ rows⟩

/-- A limited read is empty only where there is nothing, or the limit is zero. -/
theorem limited_eq_nil {limit : Int} {rows : List (Int × α)} (h : limited limit rows = []) : limit = 0 ∨ rows = [] := by
  unfold limited at h
  split at h
  · exact .inr h
  · rcases List.take_eq_nil_iff.1 h with h | h
    · exact .inl (by omega)
    · exact .inr h

theorem upTo_eq_nil {k : Int} {rows : List (Int × α)} (h : ∀ r ∈ rows, k < r.1) : upTo k rows = [] := by
  refine List.filter_eq_nil_iff.2 fun r hr => ?_
  have := h r hr
  rw [decide_eq_true_eq]
  omega

theorem upTo_eq_self {k : Int} {rows : List (Int × α)} (h : ∀ r ∈ rows, r.1 ≤ k) : upTo k rows = rows :=
  List.filter_eq_self.2 fun r hr => decide_eq_true (h r hr)

/-- Nothing after `k`: all of it is up to `k`. -/
theorem upTo_of_after_nil {k : Int} {rows : List (Int × α)} (h : after k rows = []) : upTo k rows = rows := by
  refine upTo_eq_self fun r hr => ?_
  have := List.filter_eq_nil_iff.1 h r hr
  rw [decide_eq_true_eq] at this
  omega

theorem upTo_append_after {rows : List (Int × α)} (h : Ascending rows) (k : Int) :
    upTo k rows ++ after k rows = rows := by
  induction rows with
  | nil => rfl
  | cons r rows ih =>
    obtain ⟨hr, hrows⟩ := List.pairwise_cons.1 h
    by_cases hk : r.1 ≤ k
    · have hcons : upTo k (r :: rows) = r :: upTo k rows := List.filter_cons_of_pos (decide_eq_true hk)
      have htail : after k (r :: rows) = after k rows := List.filter_cons_of_neg (by rw [decide_eq_true_eq]; omega)
      rw [hcons, htail, List.cons_append, ih hrows]
    · have hnil : upTo k (r :: rows) = [] := by
        apply upTo_eq_nil
        intro x hx
        rcases List.mem_cons.1 hx with rfl | hx
        · omega
        · have := hr x hx
          omega
      have hall : after k (r :: rows) = r :: rows := by
        refine List.filter_eq_self.2 fun x hx => decide_eq_true ?_
        rcases List.mem_cons.1 hx with rfl | hx
        · omega
        · have := hr x hx
          omega
      rw [hnil, hall, List.nil_append]

/-- A chunk, as it lies in the table. -/
theorem chunk_split {rows : List (Int × α)} (h : Ascending rows) (k limit : Int) :
    ∃ rest, rows = upTo k rows ++ (chunk k limit rows ++ rest) := by
  obtain ⟨rest, hrest⟩ := limited_append limit (after k rows)
  exact ⟨rest, by rw [chunk, hrest, upTo_append_after h k]⟩

theorem mem_chunk {rows : List (Int × α)} {k limit : Int} {r : Int × α} (h : r ∈ chunk k limit rows) : r ∈ rows ∧
    k < r.1 := by
  obtain ⟨rest, hrest⟩ := limited_append limit (after k rows)
  have hmem : r ∈ after k rows := by
    rw [← hrest]
    exact List.mem_append_left rest h
  obtain ⟨hr, hk⟩ := List.mem_filter.1 hmem
  exact ⟨hr, of_decide_eq_true hk⟩

section Chunk

variable {rows : List (Int × α)} {k limit : Int} {f l : Int × α} {mid : List (Int × α)}

/-- The ids around a chunk that ends in `l`. -/
theorem chunk_bounds (h : Ascending rows) (hc : chunk k limit rows = mid ++ [l]) :
    ∃ rest, rows = upTo k rows ++ (mid ++ [l] ++ rest) ∧ k < l.1 ∧ (∀ r ∈ upTo k rows, r.1 ≤ k) ∧
      (∀ r ∈ mid ++ [l], k < r.1 ∧ r.1 ≤ l.1) ∧ ∀ r ∈ rest, l.1 < r.1 := by
  obtain ⟨rest, hrest⟩ := chunk_split h k limit
  rw [hc] at hrest
  have hk : ∀ r ∈ mid ++ [l], k < r.1 := by
    intro r hr
    rw [← hc] at hr
    exact (mem_chunk hr).2
  have hasc : Ascending (upTo k rows ++ (mid ++ [l] ++ rest)) := hrest ▸ h
  have htail := (List.pairwise_append.1 hasc).2.1
  obtain ⟨hmid, -, hafter⟩ := List.pairwise_append.1 htail
  have hlast := (List.pairwise_append.1 hmid).2.2
  refine ⟨rest, hrest, hk l (by simp), ?_, ?_, ?_⟩
  · intro r hr
    exact of_decide_eq_true (List.mem_filter.1 hr).2
  · intro r hr
    refine ⟨hk r hr, ?_⟩
    rcases List.mem_append.1 hr with hr | hr
    · have := hlast r hr l (by simp)
      omega
    · rw [List.mem_singleton.1 hr]
  · intro r hr
    exact hafter l (by simp) r hr

/-- Reading a chunk moves on by exactly the chunk. -/
theorem upTo_chunk (h : Ascending rows) (hc : chunk k limit rows = mid ++ [l]) :
    upTo l.1 rows = upTo k rows ++ (mid ++ [l]) := by
  obtain ⟨rest, hrest, hkl, hup, hin, hafter⟩ := chunk_bounds h hc
  have h1 : upTo l.1 (upTo k rows) = upTo k rows := upTo_eq_self fun r hr => by
    have := hup r hr
    omega
  have h2 : upTo l.1 (mid ++ [l]) = mid ++ [l] := upTo_eq_self fun r hr => (hin r hr).2
  have h3 : upTo l.1 rest = [] := upTo_eq_nil hafter
  calc upTo l.1 rows = upTo l.1 (upTo k rows ++ (mid ++ [l] ++ rest)) := by rw [← hrest]
    _ = upTo l.1 (upTo k rows) ++ (upTo l.1 (mid ++ [l]) ++ upTo l.1 rest) := by
      simp only [upTo, List.filter_append]
    _ = upTo k rows ++ (mid ++ [l]) := by rw [h1, h2, h3, List.append_nil]

/-- A chunk read again by its first and last id is the chunk. -/
theorem between_chunk (h : Ascending rows) (hc : chunk k limit rows = mid ++ [l])
    (hf : (mid ++ [l]).head? = some f) : between f.1 l.1 rows = mid ++ [l] := by
  obtain ⟨rest, hrest, hkl, hup, hin, hafter⟩ := chunk_bounds h hc
  have hmem : f ∈ mid ++ [l] := List.mem_of_mem_head? hf
  have hasc : Ascending (mid ++ [l]) := by
    have hall : Ascending (upTo k rows ++ (mid ++ [l] ++ rest)) := hrest ▸ h
    exact (List.pairwise_append.1 (List.pairwise_append.1 hall).2.1).1
  have hfirst : ∀ r ∈ mid ++ [l], f.1 ≤ r.1 := by
    obtain ⟨tl, htl⟩ := List.head?_eq_some_iff.1 hf
    rw [htl] at hasc ⊢
    intro r hr
    rcases List.mem_cons.1 hr with rfl | hr
    · exact le_refl _
    · exact le_of_lt ((List.pairwise_cons.1 hasc).1 r hr)
  have h1 : between f.1 l.1 (upTo k rows) = [] := by
    refine List.filter_eq_nil_iff.2 fun r hr => ?_
    have := hup r hr
    have := (hin f hmem).1
    rw [decide_eq_true_eq]
    omega
  have h2 : between f.1 l.1 (mid ++ [l]) = mid ++ [l] :=
    List.filter_eq_self.2 fun r hr => decide_eq_true ⟨hfirst r hr, (hin r hr).2⟩
  have h3 : between f.1 l.1 rest = [] := by
    refine List.filter_eq_nil_iff.2 fun r hr => ?_
    have := hafter r hr
    rw [decide_eq_true_eq]
    omega
  calc between f.1 l.1 rows = between f.1 l.1 (upTo k rows ++ (mid ++ [l] ++ rest)) := by rw [← hrest]
    _ = between f.1 l.1 (upTo k rows) ++ (between f.1 l.1 (mid ++ [l]) ++ between f.1 l.1 rest) := by
      simp only [between, List.filter_append]
    _ = mid ++ [l] := by rw [h1, h2, h3, List.nil_append, List.append_nil]

end Chunk

/-- As many rows up to `k` as there are: all of them. -/
theorem upTo_eq_of_length {k : Int} {rows : List (Int × α)} (h : (upTo k rows).length = rows.length) :
    upTo k rows = rows :=
  (List.filter_sublist).eq_of_length h

end Keyset

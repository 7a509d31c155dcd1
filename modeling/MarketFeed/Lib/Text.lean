import Mathlib.Data.List.DropRight
import Mathlib.Tactic.Common
/-!
# Texts in pieces

Splitting a list where a predicate holds, and stripping it of elements at both ends.
-/

namespace Text

variable {α : Type}

theorem dropWhile_congr {p q : α → Bool} : ∀ {l : List α}, (∀ a ∈ l, p a = q a) → l.dropWhile p = l.dropWhile q
  | [], _ => rfl
  | a :: l, h => by
    rw [List.dropWhile_cons, List.dropWhile_cons, h a List.mem_cons_self]
    split
    · exact dropWhile_congr fun b hb => h b (List.mem_cons_of_mem a hb)
    · rfl

theorem takeWhile_congr {p q : α → Bool} : ∀ {l : List α}, (∀ a ∈ l, p a = q a) → l.takeWhile p = l.takeWhile q
  | [], _ => rfl
  | a :: l, h => by
    rw [List.takeWhile_cons, List.takeWhile_cons, h a List.mem_cons_self]
    split
    · rw [takeWhile_congr fun b hb => h b (List.mem_cons_of_mem a hb)]
    · rfl

theorem splitOnP_congr {p q : α → Bool} : ∀ {l : List α}, (∀ a ∈ l, p a = q a) → l.splitOnP p = l.splitOnP q
  | [], _ => rfl
  | a :: l, h => by
    rw [List.splitOnP_cons_eq_if_modifyHead, List.splitOnP_cons_eq_if_modifyHead, h a List.mem_cons_self,
      splitOnP_congr fun b hb => h b (List.mem_cons_of_mem a hb)]

/-- A piece is made of what was split. -/
theorem mem_of_mem_splitOnP {p : α → Bool} {l piece : List α} (h : piece ∈ l.splitOnP p) : ∀ a ∈ piece, a ∈ l := by
  induction l generalizing piece with
  | nil =>
    rw [List.splitOnP_nil, List.mem_singleton] at h
    rw [h]
    exact fun a ha => ha
  | cons b l ih =>
    rw [List.splitOnP_cons_eq_if_modifyHead] at h
    split at h
    · rcases List.mem_cons.1 h with rfl | h
      · exact fun a ha => (by cases ha)
      · exact fun a ha => List.mem_cons_of_mem b (ih h a ha)
    · cases hs : l.splitOnP p with
      | nil => exact absurd hs (List.splitOnP_ne_nil p l)
      | cons x xs =>
        rw [hs, List.modifyHead_cons] at h
        intro a ha
        rcases List.mem_cons.1 h with rfl | h
        · rcases List.mem_cons.1 ha with rfl | ha
          · exact List.mem_cons_self
          · exact List.mem_cons_of_mem b (ih (by rw [hs]; exact List.mem_cons_self) a ha)
        · exact List.mem_cons_of_mem b (ih (by rw [hs]; exact List.mem_cons_of_mem x h) a ha)

/-- What is filtered out separates nothing: the pieces are filtered. -/
theorem splitOnP_filter {p keep : α → Bool} (h : ∀ a, p a = true → keep a = true) (l : List α) :
    (l.filter keep).splitOnP p = (l.splitOnP p).map (List.filter keep) := by
  induction l with
  | nil => rfl
  | cons a l ih =>
    rw [List.splitOnP_cons_eq_if_modifyHead]
    by_cases hp : p a = true
    · rw [if_pos hp, List.filter_cons_of_pos (h a hp), List.splitOnP_cons_eq_if_modifyHead, if_pos hp, ih]
      rfl
    · rw [if_neg hp]
      cases hs : l.splitOnP p with
      | nil => exact absurd hs (List.splitOnP_ne_nil p l)
      | cons x xs =>
        rw [hs] at ih
        by_cases hk : keep a = true
        · rw [List.filter_cons_of_pos hk, List.splitOnP_cons_eq_if_modifyHead, if_neg hp, ih, List.modifyHead_cons]
          simp [hk]
        · rw [List.filter_cons_of_neg hk, ih, List.modifyHead_cons]
          simp [hk]

/-- Without the elements of `space` at both ends. -/
def strip (space : α → Bool) (l : List α) : List α := (l.dropWhile space).rdropWhile space

theorem strip_congr {p q : α → Bool} {l : List α} (h : ∀ a ∈ l, p a = q a) : strip p l = strip q l := by
  unfold strip List.rdropWhile
  rw [dropWhile_congr h]
  have hrev : ∀ a ∈ (l.dropWhile q).reverse, p a = q a :=
    fun a ha => h a ((List.dropWhile_suffix q).subset (List.mem_reverse.1 ha))
  rw [dropWhile_congr hrev]

theorem mem_of_mem_strip {p : α → Bool} {l : List α} {a : α} (h : a ∈ strip p l) : a ∈ l :=
  (List.dropWhile_suffix p).subset ((List.rdropWhile_prefix p _).subset h)

/-- What is stripped is of `space`. -/
theorem filter_strip (space : α → Bool) (l : List α) : (strip space l).filter (fun a => !space a) = l.filter fun a =>
  !space a := by
  have hends : ∀ m : List α, (∀ a ∈ m, space a = true) → m.filter (fun a => !space a) = [] :=
    fun m hm => List.filter_eq_nil_iff.2 fun a ha => by simp [hm a ha]
  calc (strip space l).filter (fun a => !space a)
      = (strip space l).filter (fun a => !space a) ++ ((l.dropWhile space).rtakeWhile space).filter fun a =>
        !space a := by
        rw [hends _ fun a ha => List.mem_rtakeWhile_imp ha, List.append_nil]
    _ = (l.dropWhile space).filter fun a => !space a := by
      rw [← List.filter_append, strip, List.rdropWhile_append_rtakeWhile]
    _ = (l.takeWhile space).filter (fun a => !space a) ++ (l.dropWhile space).filter fun a => !space a := by
        rw [hends _ fun a ha => List.mem_takeWhile_imp ha, List.nil_append]
    _ = l.filter fun a => !space a := by rw [← List.filter_append, List.takeWhile_append_dropWhile]

/-- Where no `space` is left inside, stripping is filtering. -/
theorem strip_eq_filter {space : α → Bool} {l : List α} (h : ∀ a ∈ strip space l, space a = false) :
    strip space l = l.filter fun a => !space a := by
  rw [← filter_strip, List.filter_eq_self.2 fun a ha => by simp [h a ha]]

/-- The first word of a text does not depend on spaces at the end. -/
theorem takeWhile_append_space {space : α → Bool} {l trail : List α} (h : ∀ a ∈ trail, space a = true) :
    (l ++ trail).takeWhile (fun a => !space a) = l.takeWhile fun a => !space a := by
  induction l with
  | nil =>
    cases trail with
    | nil => rfl
    | cons a trail => simp [h a List.mem_cons_self]
  | cons a l ih =>
    rw [List.cons_append, List.takeWhile_cons, List.takeWhile_cons, ih]

theorem dropWhile_append_space {space : α → Bool} {l trail : List α} (h : ∀ a ∈ trail, space a = true) :
    (l ++ trail).dropWhile (fun a => !space a) = l.dropWhile (fun a => !space a) ++ trail := by
  induction l with
  | nil =>
    cases trail with
    | nil => rfl
    | cons a trail => simp [h a List.mem_cons_self]
  | cons a l ih =>
    rw [List.cons_append, List.dropWhile_cons, List.dropWhile_cons, ih]
    split <;> rfl

end Text

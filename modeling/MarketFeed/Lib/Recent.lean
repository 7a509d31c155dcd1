import Mathlib.Data.List.Induction
/-!
# The last element of each place, and a cache under a coarser key

`latest place l xs` is the last of `xs` that belongs to `l`. A cache keeps the last element of each key. Where
several places share a key the cache has the last element of only one of them, so who is given the cache
and then all that follows knows the last element of a place as who was given everything does, just when
nothing is missing there: it comes again, it never was, or it is the one the cache has (`join_late_iff`).
-/

namespace Recent

variable {α K L : Type} [DecidableEq L] (place : α → Option L)

def latest (l : L) (xs : List α) : Option α := (xs.filter fun x => place x = some l).getLast?

variable {place}

theorem latest_append (l : L) (xs ys : List α) :
    latest place l (xs ++ ys) = (latest place l ys).or (latest place l xs) := by
  rw [latest, List.filter_append, List.getLast?_append]
  rfl

theorem latest_concat (l : L) (xs : List α) (x : α) :
    latest place l (xs ++ [x]) = if place x = some l then some x else latest place l xs := by
  rw [latest_append]
  by_cases h : place x = some l <;> simp [latest, h]

theorem mem_of_latest {l : L} {xs : List α} {x : α} (h : latest place l xs = some x) : x ∈ xs ∧ place x = some l := by
  have := List.mem_of_getLast? h
  rw [List.mem_filter] at this
  exact ⟨this.1, of_decide_eq_true this.2⟩

theorem latest_eq_none {l : L} {xs : List α} : latest place l xs = none ↔ ∀ x ∈ xs, place x ≠ some l := by
  simp [latest]

/-- Dropping what belongs elsewhere changes nothing. -/
theorem latest_filter {l : L} {p : α → Bool} (h : ∀ x, place x = some l → p x = true) (xs : List α) :
    latest place l (xs.filter p) = latest place l xs := by
  rw [latest, List.filter_filter, latest]
  congr 1
  refine List.filter_congr fun x _ => ?_
  by_cases hx : place x = some l
  · simp [hx, h x hx]
  · simp [hx]

theorem latest_filter_none {l : L} {p : α → Bool} (h : ∀ x, place x = some l → p x = false) (xs : List α) :
    latest place l (xs.filter p) = none := by
  refine latest_eq_none.2 fun x hx hl => ?_
  have := (List.mem_filter.1 hx).2
  rw [h x hl] at this
  cases this

section Cache

variable (key : L → K)

/-- The place of an element under the keys of the cache. -/
def slot (place : α → Option L) (key : L → K) (x : α) : Option K := (place x).map key

variable {key}

omit [DecidableEq L] in
theorem slot_of_place {x : α} {l : L} (h : place x = some l) : slot place key x = some (key l) := by
  rw [slot, h]
  rfl

variable [DecidableEq K]

/-- The last of a key, when it belongs to the place, is the last of the place. -/
theorem latest_of_slot {xs : List α} {x : α} {l : L} (h : latest (slot place key) (key l) xs = some x)
    (hx : place x = some l) :
    latest place l xs = some x := by
  induction xs using List.reverseRecOn with
  | nil => cases h
  | append_singleton xs y ih =>
    rw [latest_concat] at h ⊢
    by_cases hy : slot place key y = some (key l)
    · rw [if_pos hy] at h
      cases h
      rw [if_pos hx]
    · rw [if_neg hy] at h
      rw [if_neg fun hl => hy (slot_of_place hl)]
      exact ih h

/-- `snapshot` has what a cache of `before` has, in any order. -/
def Cached (place : α → Option L) (key : L → K) (before snapshot : List α) : Prop :=
  ∀ x, x ∈ snapshot ↔ ∃ k, latest (slot place key) k before = some x

/-- Of each place the snapshot has the last element, or nothing. -/
theorem latest_snapshot {before snapshot : List α} (h : Cached place key before snapshot) (l : L) :
    latest place l snapshot = (latest (slot place key) (key l) before).filter fun x => place x = some l := by
  cases hs : latest place l snapshot with
  | some x =>
    obtain ⟨hmem, hx⟩ := mem_of_latest hs
    obtain ⟨k, hk⟩ := (h x).1 hmem
    obtain rfl : k = key l := Option.some.inj ((mem_of_latest hk).2.symm.trans (slot_of_place hx))
    rw [hk]
    simp [Option.filter, hx]
  | none =>
    cases hk : latest (slot place key) (key l) before with
    | none => rfl
    | some x =>
      have hx : place x ≠ some l := latest_eq_none.1 hs x ((h x).2 ⟨key l, hk⟩)
      simp [Option.filter, hx]

/-- **Who joins late has the last element of a place unless the cache has lost it.** -/
theorem join_late_iff {before snapshot : List α} (h : Cached place key before snapshot) (after : List α) (l : L) :
    latest place l (snapshot ++ after) = latest place l (before ++ after) ↔
      (∃ x ∈ after, place x = some l) ∨ (∀ x ∈ before, place x ≠ some l) ∨
        ∃ x, latest (slot place key) (key l) before = some x ∧ place x = some l := by
  rw [latest_append, latest_append, latest_snapshot h]
  cases ha : latest place l after with
  | some x => exact iff_of_true rfl (.inl ⟨x, mem_of_latest ha⟩)
  | none =>
    have hno : ¬ ∃ x ∈ after, place x = some l := fun ⟨x, hx, hl⟩ => latest_eq_none.1 ha x hx hl
    rw [or_iff_right hno, Option.none_or, Option.none_or, ← latest_eq_none]
    constructor
    · intro heq
      cases hk : latest (slot place key) (key l) before with
      | none => exact .inl (by rw [← heq, hk]; rfl)
      | some x =>
        by_cases hx : place x = some l
        · exact .inr ⟨x, rfl, hx⟩
        · rw [hk] at heq
          exact .inl (by rw [← heq]; simp [Option.filter, hx])
    · rintro (hnone | ⟨x, hk, hx⟩)
      · rw [hnone]
        cases hk : latest (slot place key) (key l) before with
        | none => rfl
        | some x =>
          have hx : place x ≠ some l := fun hl => by
            rw [latest_of_slot hk hl] at hnone
            cases hnone
          simp [Option.filter, hx]
      · rw [latest_of_slot hk hx, hk]
        simp [Option.filter, hx]

end Cache

end Recent

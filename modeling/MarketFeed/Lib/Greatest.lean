import Mathlib.Order.Lattice
import Mathlib.Data.List.Flatten
import Mathlib.Data.List.Induction
import MarketFeed.Lib.Upsert
/-!
# The greatest of a list, by ties

Two ways to keep one of two elements agree except on a tie: `first` keeps the one it has, `last` takes the new
one. A list that is reduced part by part with the first, and the parts with the last, comes down to the first
of the greatest in the last part that has one (`Stays`), wherever it was cut.
-/

namespace Greatest

open Keyed (put)

variable {α β κ : Type} [LinearOrder κ]

def first (rank : α → κ) (o r : α) : α := if rank o < rank r then r else o

def last (rank : α → κ) (o r : α) : α := if rank o ≤ rank r then r else o

/-- The first of the greatest. -/
def IsFirst (rank : α → κ) (l : List α) (r : α) : Prop :=
  ∃ before after, l = before ++ r :: after ∧ (∀ x ∈ before, rank x < rank r) ∧ ∀ x ∈ after, rank x ≤ rank r

/-- The first of the greatest in the last part that has one. -/
def Stays (rank : α → κ) (parts : List (List α)) (r : α) : Prop :=
  ∃ before part after, parts = before ++ part :: after ∧ IsFirst rank part r ∧ (∀ x ∈ before.flatten, rank x ≤ rank r) ∧
    ∀ x ∈ after.flatten, rank x < rank r

variable {rank : α → κ}

theorem IsFirst.mem {l : List α} {r : α} (h : IsFirst rank l r) : r ∈ l := by
  obtain ⟨before, after, rfl, -, -⟩ := h
  simp

theorem IsFirst.le {l : List α} {r : α} (h : IsFirst rank l r) : ∀ x ∈ l, rank x ≤ rank r := by
  obtain ⟨before, after, rfl, hb, ha⟩ := h
  intro x hx
  rcases List.mem_append.1 hx with hx | hx
  · exact le_of_lt (hb x hx)
  · rcases List.mem_cons.1 hx with rfl | hx
    · exact le_rfl
    · exact ha x hx

theorem IsFirst.concat {l : List α} {r x : α} (h : IsFirst rank l r) : IsFirst rank (l ++ [x]) (first rank r x) := by
  unfold first
  split
  · rename_i hlt
    exact ⟨l, [], rfl, fun y hy => lt_of_le_of_lt (h.le y hy) hlt, by simp⟩
  · rename_i hle
    obtain ⟨before, after, rfl, hb, ha⟩ := h
    refine ⟨before, after ++ [x], by simp, hb, fun y hy => ?_⟩
    rcases List.mem_append.1 hy with hy | hy
    · exact ha y hy
    · obtain rfl := List.mem_singleton.1 hy
      exact not_lt.1 hle

/-- Two places of a list: one is the other, or comes before it. -/
theorem cons_append_cons {γ : Type} {as bs as' bs' : List γ} {x x' : γ} (h : as ++ x :: bs = as' ++ x' :: bs') :
    x = x' ∨ x ∈ as' ∧ x' ∈ bs ∨ x' ∈ as ∧ x ∈ bs' := by
  rcases List.append_eq_append_iff.1 h with ⟨c, rfl, hc⟩ | ⟨c, rfl, hc⟩
  · cases c with
    | nil => exact .inl (List.cons.inj hc).1
    | cons y c =>
      obtain ⟨rfl, rfl⟩ := List.cons.inj hc
      exact .inr (.inl ⟨by simp, by simp⟩)
  · cases c with
    | nil => exact .inl (List.cons.inj hc).1.symm
    | cons y c =>
      obtain ⟨rfl, rfl⟩ := List.cons.inj hc
      exact .inr (.inr ⟨by simp, by simp⟩)

theorem IsFirst.unique {l : List α} {r r' : α} (h : IsFirst rank l r) (h' : IsFirst rank l r') : r = r' := by
  obtain ⟨before, after, rfl, hb, ha⟩ := h
  obtain ⟨before', after', heq, hb', ha'⟩ := h'
  rcases cons_append_cons heq with he | ⟨hmem, hmem'⟩ | ⟨hmem', hmem⟩
  · exact he
  · exact absurd (ha r' hmem') (not_le.2 (hb' r hmem))
  · exact absurd (ha' r hmem) (not_le.2 (hb r' hmem'))

theorem Stays.mem {parts : List (List α)} {r : α} (h : Stays rank parts r) : r ∈ parts.flatten := by
  obtain ⟨before, part, after, rfl, hr, -, -⟩ := h
  exact List.mem_flatten_of_mem (by simp) hr.mem

theorem Stays.le {parts : List (List α)} {r : α} (h : Stays rank parts r) : ∀ x ∈ parts.flatten, rank x ≤ rank r := by
  obtain ⟨before, part, after, rfl, hr, hb, ha⟩ := h
  intro x hx
  rw [List.flatten_append, List.flatten_cons, List.mem_append, List.mem_append] at hx
  rcases hx with hx | hx | hx
  · exact hb x hx
  · exact hr.le x hx
  · exact le_of_lt (ha x hx)

theorem Stays.unique {parts : List (List α)} {r r' : α} (h : Stays rank parts r) (h' : Stays rank parts r') :
    r = r' := by
  obtain ⟨before, part, after, rfl, hr, hb, ha⟩ := h
  obtain ⟨before', part', after', heq, hr', hb', ha'⟩ := h'
  rcases cons_append_cons heq with rfl | ⟨hmem, hmem'⟩ | ⟨hmem', hmem⟩
  · exact hr.unique hr'
  · exact absurd (hb' r (List.mem_flatten_of_mem hmem hr.mem))
      (not_le.2 (ha r' (List.mem_flatten_of_mem hmem' hr'.mem)))
  · exact absurd (hb r' (List.mem_flatten_of_mem hmem' hr'.mem))
      (not_le.2 (ha' r (List.mem_flatten_of_mem hmem hr.mem)))

/-- One more part. -/
theorem Stays.concat {parts : List (List α)} {part : List α} {r q : α} (h : Stays rank parts r)
    (hq : IsFirst rank part q) :
    Stays rank (parts ++ [part]) (last rank r q) := by
  unfold last
  split
  · rename_i hle
    exact ⟨parts, part, [], rfl, hq, fun x hx => (h.le x hx).trans hle, by simp⟩
  · rename_i hlt
    obtain ⟨before, mid, after, rfl, hr, hb, ha⟩ := h
    refine ⟨before, mid, after ++ [part], by simp, hr, hb, fun x hx => ?_⟩
    rw [List.flatten_append, List.flatten_singleton, List.mem_append] at hx
    rcases hx with hx | hx
    · exact ha x hx
    · exact lt_of_le_of_lt (hq.le x hx) (not_le.1 hlt)

theorem last_assoc (s a b : α) : last rank (last rank s a) b = last rank s (last rank a b) := by
  by_cases hab : rank a ≤ rank b
  · by_cases hs : rank s ≤ rank a
    · simp [last, hab, hs, hs.trans hab]
    · simp [last, hab, hs]
  · by_cases hs : rank s ≤ rank a
    · simp [last, hab, hs]
    · have hsb : ¬ rank s ≤ rank b := fun h => hs (h.trans (le_of_lt (not_le.1 hab)))
      simp [last, hab, hs, hsb]

theorem put_last_put (o : Option α) (a b : α) :
    put (last rank) (put (last rank) o a) b = put (last rank) o (last rank a b) := by
  cases o with
  | none => rfl
  | some s => simp only [put, last_assoc]

/-- Keeping the first comes down to the first of the greatest. -/
theorem foldl_first (l : List α) (hne : l ≠ []) : ∃ r, l.foldl (put (first rank)) none = some r ∧ IsFirst rank l r := by
  induction l using List.reverseRecOn with
  | nil => exact absurd rfl hne
  | append_singleton l x ih =>
    rw [List.foldl_append]
    by_cases hl : l = []
    · subst hl
      exact ⟨x, rfl, [], [], rfl, by simp, by simp⟩
    · obtain ⟨r, hr, hfirst⟩ := ih hl
      rw [hr]
      exact ⟨first rank r x, rfl, hfirst.concat⟩

/-- One part: reduced to its first, which is merged into what is there. -/
def merge (f : α → β) (rankβ : β → κ) (o : Option β) (part : List α) : Option β :=
  match part.foldl (put (first fun x => rankβ (f x))) none with
  | none => o
  | some r => put (last rankβ) o (f r)

theorem merge_nil (f : α → β) (rankβ : β → κ) (o : Option β) : merge f rankβ o [] = o := rfl

variable {f : α → β} {rankβ : β → κ}

/-- All parts: what stays, where it is not behind what was there at the start. -/
theorem foldl_merge (o : Option β) (parts : List (List α)) :
    (parts.flatten = [] ∧ parts.foldl (merge f rankβ) o = o) ∨
    ∃ r, Stays (fun x => rankβ (f x)) parts r ∧ parts.foldl (merge f rankβ) o = put (last rankβ) o (f r) := by
  induction parts using List.reverseRecOn with
  | nil => exact .inl ⟨rfl, rfl⟩
  | append_singleton parts p ih =>
    rw [List.foldl_append, List.foldl_cons, List.foldl_nil, List.flatten_append, List.flatten_singleton]
    by_cases hp : p = []
    · subst hp
      rw [merge_nil, List.append_nil]
      rcases ih with ⟨hnil, hfold⟩ | ⟨r, ⟨before, part, after, rfl, hfirst, hb, ha⟩, hfold⟩
      · exact .inl ⟨hnil, hfold⟩
      · exact .inr ⟨r, ⟨before, part, after ++ [[]], by simp, hfirst, hb, by simpa using ha⟩, hfold⟩
    · obtain ⟨q, hq, hfirst⟩ := @foldl_first α κ _ (fun x => rankβ (f x)) p hp
      right
      have hstep : merge f rankβ (parts.foldl (merge f rankβ) o) p = put (last rankβ)
          (parts.foldl (merge f rankβ) o) (f q) := by
        rw [merge, hq]
      rw [hstep]
      rcases ih with ⟨hnil, hfold⟩ | ⟨r, hstays, hfold⟩
      · rw [hfold]
        exact ⟨q, ⟨parts, p, [], rfl, hfirst, by simp [hnil], by simp⟩, rfl⟩
      · rw [hfold]
        refine ⟨_, hstays.concat hfirst, ?_⟩
        rw [put_last_put, last, last, apply_ite f]

theorem foldl_merge_stays {parts : List (List α)} {r : α} (h : Stays (fun x => rankβ (f x)) parts r) (o : Option β) :
    parts.foldl (merge f rankβ) o = put (last rankβ) o (f r) := by
  rcases @foldl_merge α β κ _ f rankβ o parts with ⟨hnil, -⟩ | ⟨r', hstays, hfold⟩
  · have hmem := h.mem
    rw [hnil] at hmem
    cases hmem
  · rw [hfold, h.unique hstays]

/-- Of a tie either is kept, or what was there is greater. -/
theorem put_last_eq_iff {o : Option β} {a b : β} (h : rankβ a = rankβ b) :
    put (last rankβ) o a = put (last rankβ) o b ↔ (∃ s, o = some s ∧ rankβ a < rankβ s) ∨ a = b := by
  cases o with
  | none => simp [put]
  | some s =>
    by_cases hs : rankβ s ≤ rankβ a
    · have hs' := h ▸ hs
      simp [put, last, hs, hs', not_lt.2 hs]
    · have hs' : ¬ rankβ s ≤ rankβ b := h ▸ hs
      simp [put, last, hs, hs', not_le.1 hs]

/-- However the list was cut, a greatest stays. -/
theorem Stays.congr {parts parts' : List (List α)} {r r' : α} (h : Stays rank parts r) (h' : Stays rank parts' r')
    (hflat : parts.flatten = parts'.flatten) : rank r = rank r' :=
  le_antisymm (h'.le r (hflat ▸ h.mem)) (h.le r' (hflat ▸ h'.mem))

end Greatest

import Mathlib.Algebra.GroupWithZero.Nat
import Mathlib.Algebra.Ring.Int.Defs
import Mathlib.Data.List.Basic
import Mathlib.Data.List.Forall2
import Mathlib.Algebra.Order.BigOperators.Group.List
import Mathlib.Algebra.Order.Group.Int
/-!
# Lists through a partial function, and sums that cannot grow

`mapM` of a function that may fail has a result when it fails on no element; over two zipped lists the
result is read off position by position. Where a map makes no weight smaller and the sum is unchanged,
it changes no weight.
-/

namespace Lists

variable {α β γ : Type}

theorem mapM_eq_some {f : α → Option β} {l : List α} {m : List β} : l.mapM f = some m ↔ l.map f = m.map some := by
  induction l generalizing m with
  | nil =>
    simp only [List.mapM_nil, Option.pure_def, Option.some.injEq, List.map_nil]
    exact ⟨fun h => h ▸ rfl, fun h => (List.map_eq_nil_iff.1 h.symm).symm⟩
  | cons a l ih =>
    simp only [List.mapM_cons, Option.pure_def, Option.bind_eq_bind, List.map_cons]
    constructor
    · intro h
      obtain ⟨b, hb, h⟩ := Option.bind_eq_some_iff.1 h
      obtain ⟨bs, hbs, h⟩ := Option.bind_eq_some_iff.1 h
      rw [← Option.some.inj h, List.map_cons, hb, ih.1 hbs]
    · intro h
      cases m with
      | nil => cases h
      | cons b bs =>
        obtain ⟨hb, hbs⟩ := List.cons.inj h
        rw [hb, Option.bind_some, ih.2 hbs, Option.bind_some]

/-- A partial map that is nowhere undefined, as a map. -/
theorem mapM_eq_some_map {f : α → Option β} {g : α → β} {l : List α} (h : ∀ a ∈ l, f a = some (g a)) :
    l.mapM f = some (l.map g) := by
  rw [mapM_eq_some, List.map_map]
  exact List.map_congr_left h

theorem mapM_length {f : α → Option β} {l : List α} {m : List β} (h : l.mapM f = some m) : m.length = l.length := by
  have := congrArg List.length (mapM_eq_some.1 h)
  simpa using this.symm

theorem mapM_mem {f : α → Option β} {l : List α} {m : List β} (h : l.mapM f = some m) {a : α} (ha : a ∈ l) :
    ∃ b ∈ m, f a = some b := by
  have hmem : f a ∈ l.map f := List.mem_map_of_mem ha
  rw [mapM_eq_some.1 h] at hmem
  obtain ⟨b, hb, he⟩ := List.mem_map.1 hmem
  exact ⟨b, hb, he.symm⟩

/-- Mapped over two lists of one length: position by position. -/
theorem zip_mapM {f : α → β → Option γ} {as : List α} {bs : List β} {cs : List γ} (hlen : as.length = bs.length) :
    ((as.zip bs).mapM fun x => f x.1 x.2) = some cs ↔
      cs.length = as.length ∧ ∀ (i : ℕ) (a : α) (b : β), as[i]? = some a → bs[i]? = some b → f a b = cs[i]? := by
  rw [mapM_eq_some]
  constructor
  · intro h
    have hl : cs.length = as.length := by
      have := congrArg List.length h
      simp only [List.length_map, List.length_zip] at this
      omega
    refine ⟨hl, fun i a b ha hb => ?_⟩
    have hi : ((as.zip bs).map fun x => f x.1 x.2)[i]? = some (f a b) := by
      have hz : (as.zip bs)[i]? = some (a, b) := List.getElem?_zip_eq_some.2 ⟨ha, hb⟩
      rw [List.getElem?_map, hz]
      rfl
    rw [h, List.getElem?_map] at hi
    cases hc : cs[i]? with
    | none =>
      rw [hc] at hi
      cases hi
    | some c =>
      rw [hc] at hi
      exact (Option.some.inj hi).symm
  · rintro ⟨hl, h⟩
    refine List.ext_getElem? fun i => ?_
    rw [List.getElem?_map, List.getElem?_map]
    by_cases hi : i < as.length
    · have ha : as[i]? = some as[i] := List.getElem?_eq_getElem hi
      have hb : bs[i]? = some bs[i] := List.getElem?_eq_getElem (hlen ▸ hi)
      have hc : cs[i]? = some cs[i] := List.getElem?_eq_getElem (hl ▸ hi)
      have hz : (as.zip bs)[i]? = some (as[i], bs[i]) := List.getElem?_zip_eq_some.2 ⟨ha, hb⟩
      rw [hz, hc]
      exact congrArg some ((h i _ _ ha hb).trans hc)
    · have hz : (as.zip bs)[i]? = none := by
        rw [List.getElem?_eq_none_iff, List.length_zip]
        omega
      have hc : cs[i]? = none := List.getElem?_eq_none_iff.2 (by omega)
      rw [hz, hc]
      rfl

/-- A function that tells the elements of two lists apart tells the lists apart. -/
theorem map_inj_on {f : α → β} : ∀ {l m : List α}, (∀ a ∈ l, ∀ b ∈ m, f a = f b → a = b) → l.map f = m.map f → l = m
  | [], [], _, _ => rfl
  | a :: l, b :: m, hf, h => by
    obtain ⟨hhead, htail⟩ := List.cons.inj h
    have ih := map_inj_on (fun x hx y hy => hf x (List.mem_cons_of_mem a hx) y (List.mem_cons_of_mem b hy)) htail
    rw [hf a List.mem_cons_self b List.mem_cons_self hhead, ih]

/-- What two functions keep of two lists is the same where they agree pair by pair. -/
theorem filterMap_forall₂ {f : α → Option γ} {g : β → Option γ} {l : List α} {m : List β}
    (h : List.Forall₂ (fun a b => f a = g b) l m) :
    l.filterMap f = m.filterMap g := by
  induction h with
  | nil => rfl
  | cons hab _ ih => rw [List.filterMap_cons, List.filterMap_cons, hab, ih]

/-- Where the right list is filtered, the left one splits into what is related to the rest and what was to the others.
-/
theorem forall₂_filter {r : α → β → Prop} {p : β → Bool} {l : List α} {m : List β} (h : List.Forall₂ r l m) :
    ∃ kept dropped, l.Perm (dropped ++ kept) ∧ List.Forall₂ r kept (m.filter p) ∧ ∀ a ∈ dropped, ∃ b, r a b ∧
      p b = false := by
  induction h with
  | nil => exact ⟨[], [], .nil, .nil, fun _ ha => (by cases ha)⟩
  | @cons a b l m hab _ ih =>
    obtain ⟨kept, dropped, hperm, hkept, hdropped⟩ := ih
    by_cases hp : p b = true
    · refine ⟨a :: kept, dropped, (hperm.cons a).trans List.perm_middle.symm, ?_, hdropped⟩
      rw [List.filter_cons_of_pos hp]
      exact .cons hab hkept
    · refine ⟨kept, a :: dropped, hperm.cons a, ?_, fun x hx => ?_⟩
      · rw [List.filter_cons_of_neg hp]
        exact hkept
      · rcases List.mem_cons.1 hx with rfl | hx
        · exact ⟨b, hab, Bool.eq_false_iff.2 hp⟩
        · exact hdropped x hx

/-- No weight shrinks and the sum stays: no weight changes. -/
theorem eq_of_sum_eq {w e : α → Int} {l : List α} (hle : ∀ a ∈ l, w a ≤ e a) (h : (l.map w).sum = (l.map e).sum) :
    ∀ a ∈ l, w a = e a := by
  induction l with
  | nil => exact fun a ha => (by cases ha)
  | cons x l ih =>
    have hx := hle x (by simp)
    have htail : (l.map w).sum ≤ (l.map e).sum := List.sum_le_sum fun b hb => hle b (by simp [hb])
    simp only [List.map_cons, List.sum_cons] at h
    intro a ha
    rcases List.mem_cons.1 ha with rfl | ha
    · omega
    · exact ih (fun b hb => hle b (by simp [hb])) (by omega) a ha

/-! ## Counts -/

/-- One name more to count. -/
theorem countP_cons_name [DecidableEq β] (p : α → Bool) (f : α → β) (l : List α)
    {n : β} {names : List β} (hn : n ∉ names) :
    (l.countP fun a => p a && decide (f a ∈ n :: names)) =
      (l.countP fun a => p a && decide (f a = n)) + l.countP fun a => p a && decide (f a ∈ names) := by
  induction l with
  | nil => rfl
  | cons a l ih =>
    have hone : (if (p a && decide (f a ∈ n :: names)) = true then 1 else 0) =
        (if (p a && decide (f a = n)) = true then 1 else 0) + if (p a && decide (f a ∈ names)) = true then
          1 else 0 := by
      by_cases ha : f a = n
      · cases hp : p a <;> simp [ha, hn]
      · cases hp : p a <;> simp [ha]
    simp only [List.countP_cons, ih, hone]
    omega

/-- Counted name by name, each name once. -/
theorem sum_countP [DecidableEq β] (p : α → Bool) (f : α → β) (l : List α) {names : List β} (hn : names.Nodup) :
    (names.map fun n => l.countP fun a => p a && decide (f a = n)).sum = l.countP fun a =>
      p a && decide (f a ∈ names) := by
  induction names with
  | nil => simp
  | cons n names ih =>
    rw [List.nodup_cons] at hn
    rw [List.map_cons, List.sum_cons, ih hn.2, countP_cons_name p f l hn.1]

end Lists

import Mathlib.Algebra.Ring.Int.Defs
import Mathlib.Algebra.BigOperators.Group.List.Basic
import Mathlib.Tactic.Common
/-!
# Sums over the part of a list that satisfies a test

`total p q es` sums `q` over the elements of `es` that satisfy `p`. Shares of several owners that
never own one element together are at most the total of what anyone owns (`sum_total_le`).
-/

namespace Total

variable {α β M : Type} [AddCommMonoid M]

def total (p : α → Bool) (q : α → M) (es : List α) : M := ((es.filter p).map q).sum

@[simp] theorem total_nil (p : α → Bool) (q : α → M) : total p q [] = 0 := rfl

theorem total_cons (p : α → Bool) (q : α → M) (e : α) (es : List α) :
    total p q (e :: es) = (if p e then q e else 0) + total p q es := by
  unfold total
  by_cases h : p e <;> simp [h]

theorem total_append (p : α → Bool) (q : α → M) (es fs : List α) :
    total p q (es ++ fs) = total p q es + total p q fs := by
  simp [total]

theorem total_congr {p p' : α → Bool} {q : α → M} {es : List α} (h : ∀ e ∈ es, p e = p' e) :
    total p q es = total p' q es := by
  unfold total
  rw [List.filter_congr h]

theorem total_eq_zero {p : α → Bool} {q : α → M} {es : List α} (h : ∀ e ∈ es, p e = false) : total p q es = 0 := by
  have hnil : es.filter p = [] := List.filter_eq_nil_iff.2 fun e he => by simp [h e he]
  rw [total, hnil]; rfl

theorem total_congr_on {p : α → Bool} {q q' : α → M} {es : List α} (h : ∀ e ∈ es, p e = true → q e = q' e) :
    total p q es = total p q' es := by
  unfold total
  rw [List.map_congr_left]
  intro e he
  exact h e (List.mem_filter.1 he).1 (List.mem_filter.1 he).2

/-! ## Integers -/

theorem total_nonneg {p : α → Bool} {q : α → Int} : ∀ {es : List α}, (∀ e ∈ es, 0 ≤ q e) → 0 ≤ total p q es
  | [], _ => by simp
  | e :: es, h => by
    have ih := @total_nonneg p q es fun x hx => h x (by simp [hx])
    have he := h e (by simp)
    rw [total_cons]
    split <;> omega

theorem total_mono {p p' : α → Bool} {q : α → Int} :
    ∀ {es : List α}, (∀ e ∈ es, 0 ≤ q e) → (∀ e ∈ es, p e = true → p' e = true) → total p q es ≤ total p' q es
  | [], _, _ => by simp
  | e :: es, hq, hp => by
    have ih := total_mono (fun x hx => hq x (List.mem_cons_of_mem e hx)) fun x hx => hp x (List.mem_cons_of_mem e hx)
    have he := hq e (by simp)
    have hpe := hp e (by simp)
    rw [total_cons, total_cons]
    by_cases h : p e
    · rw [if_pos h, if_pos (hpe h)]; omega
    · rw [if_neg h]; split <;> omega

/-- A test split in two by another. -/
theorem total_split (p r : α → Bool) (q : α → Int) :
    ∀ es : List α, total p q es = total (fun e => p e && r e) q es + total (fun e => p e && !r e) q es
  | [] => by simp
  | e :: es => by
    have ih := total_split p r q es
    simp only [total_cons, ih]
    cases p e <;> cases r e <;> simp <;> omega

theorem total_filter (p r : α → Bool) (q : α → M) (es : List α) :
    total p q (es.filter r) = total (fun e => p e && r e) q es := by
  unfold total
  rw [List.filter_filter]

/-- A sum whose groups are not negative is not negative. -/
theorem total_nonneg_of_groups [DecidableEq β] (g : α → β) {p : α → Bool} {q : α → Int} (es : List α)
    (h : ∀ c, 0 ≤ total (fun e => p e && decide (g e = c)) q es) : 0 ≤ total p q es := by
  induction hn : es.length using Nat.strongRecOn generalizing es with
  | _ n ih =>
    cases es with
    | nil => exact Int.le_refl 0
    | cons e es =>
      -- the group of the head apart, the rest by induction
      have hrest : 0 ≤ total p q ((e :: es).filter fun x => !decide (g x = g e)) := by
        refine ih _ ?_ _ ?_ rfl
        · rw [← hn, List.filter_cons_of_neg (by simp), List.length_cons]
          exact Nat.lt_succ_of_le (List.length_filter_le _ _)
        · intro c
          rw [total_filter]
          by_cases hc : g e = c
          · refine Int.le_of_eq (total_eq_zero fun x _ => ?_).symm
            by_cases hx : g x = c <;> simp [hc, hx]
          · rw [@total_congr _ _ _ _ (fun x => p x && decide (g x = c))]
            · exact h c
            · intro x _
              by_cases hx : g x = c
              · simp [hx, Ne.symm hc]
              · simp [hx]
      rw [total_filter] at hrest
      rw [total_split p (fun x => decide (g x = g e))]
      exact Int.add_nonneg (h (g e)) hrest

theorem total_take_le {p : α → Bool} {q : α → Int} {es : List α} (h : ∀ e ∈ es, 0 ≤ q e) (n : Nat) :
    total p q (es.take n) ≤ total p q es := by
  have hsplit := total_append p q (es.take n) (es.drop n)
  rw [List.take_append_drop] at hsplit
  have := @total_nonneg _ p q (es.drop n) fun e he => h e (List.mem_of_mem_drop he)
  omega

/-- What one element contributes to the shares of owners that are pairwise exclusive. -/
theorem sum_owned_le {own : β → α → Bool} {q : α → Int} {e : α} (hq : 0 ≤ q e) :
    ∀ {rows : List β}, rows.Pairwise (fun a b => ¬ (own a e = true ∧ own b e = true)) →
      (rows.map fun r => if own r e then q e else 0).sum ≤ if rows.any (own · e) then q e else 0
  | [], _ => by simp
  | r :: rows, h => by
    obtain ⟨hr, hrows⟩ := List.pairwise_cons.1 h
    have ih := sum_owned_le hq hrows
    rw [List.map_cons, List.sum_cons, List.any_cons]
    by_cases ho : own r e
    · have hnone : rows.any (own · e) = false := by
        rw [List.any_eq_false]
        exact fun x hx hxe => hr x hx ⟨ho, hxe⟩
      rw [hnone] at ih
      simp [ho] at ih ⊢
      omega
    · simp only [ho, Bool.false_eq_true, if_false, Bool.false_or]
      omega

/-- Shares of pairwise exclusive owners add up to at most what anyone owns. -/
theorem sum_total_le {own : β → α → Bool} {q : α → Int} {rows : List β} :
    ∀ {es : List α}, (∀ e ∈ es, 0 ≤ q e) →
      (∀ e ∈ es, rows.Pairwise fun a b => ¬ (own a e = true ∧ own b e = true)) →
      (rows.map fun r => total (own r) q es).sum ≤ total (fun e => rows.any (own · e)) q es
  | [], _, _ => by simp
  | e :: es, hq, hd => by
    have ih := sum_total_le (fun x hx => hq x (List.mem_cons_of_mem e hx)) fun x hx => hd x (List.mem_cons_of_mem e hx)
    have he := sum_owned_le (hq e (by simp)) (hd e (by simp))
    have hsum : (rows.map fun r => total (own r) q (e :: es)).sum =
        (rows.map fun r => if own r e then q e else 0).sum + (rows.map fun r => total (own r) q es).sum := by
      rw [← List.sum_map_add]
      exact congrArg List.sum (List.map_congr_left fun r _ => total_cons _ _ _ _)
    rw [hsum, total_cons]
    omega

/-! ## Elements with an owner each -/

theorem total_add {p : α → Bool} {f g : α → Int} (es : List α) :
    total p (fun e => f e + g e) es = total p f es + total p g es := by
  induction es with
  | nil => rfl
  | cons e es ih =>
    simp only [total_cons, ih]
    split <;> omega

theorem total_zero {p : α → Bool} {q : α → Int} {es : List α} (h : ∀ e ∈ es, q e = 0) : total p q es = 0 := by
  induction es with
  | nil => rfl
  | cons e es ih =>
    rw [total_cons, h e (by simp), ih fun x hx => h x (List.mem_cons_of_mem e hx)]
    simp

/-- Of elements with distinct keys one has the key `k`. -/
theorem total_single {κ : Type} [DecidableEq κ] {key : α → κ} {p : α → Bool} {f : α → Int} {x : α} :
    ∀ {xs : List α}, (xs.map key).Nodup → x ∈ xs →
      total p (fun y => if key x = key y then f y else 0) xs = if p x then f x else 0
  | y :: xs, hn, hx => by
    obtain ⟨hnew, hn⟩ := List.nodup_cons.1 hn
    rw [total_cons]
    rcases List.mem_cons.1 hx with rfl | hx
    · have hrest : total p (fun z => if key x = key z then f z else 0) xs = 0 := by
        refine total_zero fun z hz => if_neg fun he => hnew ?_
        rw [he]
        exact List.mem_map_of_mem hz
      rw [hrest]
      simp
    · have hne : key x ≠ key y := fun he => hnew (he.symm ▸ List.mem_map_of_mem hx)
      rw [total_single hn hx, if_neg hne]
      simp

/-- **Sums by owner.** When every element of `es` has its one owner among `xs`, adding up by owner or by element
is the same. -/
theorem total_owned {κ : Type} [DecidableEq κ] {key : α → κ} {owner : β → κ} {p : α → Bool} {p' : β → Bool}
    {w : α → Int} {w' q : β → Int} {xs : List α} (hn : (xs.map key).Nodup) {es : List β}
    (h : ∀ e ∈ es, ∃ x ∈ xs, key x = owner e ∧ p x = p' e ∧ w x = w' e) :
    total p (fun x => w x * total (fun e => decide (owner e = key x)) q es) xs = total p' (fun e => w' e * q e) es := by
  induction es with
  | nil => exact total_zero fun x _ => by simp
  | cons e es ih =>
    obtain ⟨x, hx, hk, hp, hw⟩ := h e (by simp)
    have hsplit : ∀ y, w y * total (fun e => decide (owner e = key y)) q (e :: es) =
        (if key x = key y then w y * q e else 0) + w y * total (fun e => decide (owner e = key y)) q es := by
      intro y
      rw [total_cons, Int.mul_add, ← hk]
      by_cases hy : key x = key y <;> simp [hy]
    simp only [hsplit]
    rw [total_add, ih fun d hd => h d (List.mem_cons_of_mem e hd), total_single hn hx, total_cons, hp, hw]

end Total

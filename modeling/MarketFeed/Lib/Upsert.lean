import Mathlib.Data.List.Nodup
import Mathlib.Tactic.Common
import MarketFeed.Lib.Total
/-!
# Rows under a key

A table with a primary key, or a dict in insertion order, is a list in which a key occurs once.
`upsert` merges a row into the one of its key, in place, or appends it; `erase` drops the row of a
key. Both are read through `lookup`, or, where a row carries a quantity that adds up, through `amount`.
-/

namespace Keyed

variable {α κ : Type} [DecidableEq κ] (key : α → κ) (merge : α → α → α)

def lookup (k : κ) (rows : List α) : Option α := rows.find? fun r => decide (key r = k)

/-- `INSERT … ON CONFLICT (key) DO UPDATE`; with `merge _ r = r`, `d[k] = r`. -/
def upsert (rows : List α) (r : α) : List α :=
  match rows with
  | [] => [r]
  | x :: xs => if key x = key r then merge x r :: xs else x :: upsert xs r

/-- `d.pop(k, None)`. -/
def erase (k : κ) (rows : List α) : List α := rows.filter fun r => decide (key r ≠ k)

variable {key merge}

@[simp] theorem lookup_nil (k : κ) : lookup key k ([] : List α) = none := rfl

theorem lookup_cons (k : κ) (x : α) (xs : List α) :
    lookup key k (x :: xs) = if key x = k then some x else lookup key k xs := by
  by_cases h : key x = k <;> simp [lookup, h]

theorem key_of_lookup {k : κ} {rows : List α} {r : α} (h : lookup key k rows = some r) : key r = k := by
  simpa using List.find?_some h

theorem mem_of_lookup {k : κ} {rows : List α} {r : α} (h : lookup key k rows = some r) : r ∈ rows :=
  List.mem_of_find?_eq_some h

theorem lookup_isSome_of_mem {rows : List α} {r : α} (h : r ∈ rows) : (lookup key (key r) rows).isSome := by
  induction rows with
  | nil => cases h
  | cons x xs ih =>
    rw [lookup_cons]
    by_cases hx : key x = key r
    · simp [hx]
    · rcases List.mem_cons.1 h with rfl | h
      · exact absurd rfl hx
      · rw [if_neg hx]
        exact ih h

/-- After an `upsert`, the key of the row has the merged row, and the others are as before. -/
theorem lookup_upsert (hm : ∀ o r, key o = key r → key (merge o r) = key r) (rows : List α) (r : α) (k : κ) :
    lookup key k (upsert key merge rows r) =
      if key r = k then some (match lookup key k rows with | some o => merge o r | none => r)
      else lookup key k rows := by
  induction rows with
  | nil => simp [upsert, lookup_cons]
  | cons x xs ih =>
    simp only [upsert]
    by_cases hx : key x = key r
    · rw [if_pos hx, lookup_cons, lookup_cons, hm x r hx]
      by_cases hk : key r = k
      · simp [hk, hx]
      · simp [hk, hx]
    · rw [if_neg hx, lookup_cons, lookup_cons, ih]
      by_cases hk : key r = k
      · have hxk : key x ≠ k := fun h => hx (h.trans hk.symm)
        simp [hk, hxk]
      · simp [hk]

/-- A row after an `upsert` was there, is the new one, or is the new one merged into one that was there. -/
theorem mem_upsert {rows : List α} {r x : α} (h : x ∈ upsert key merge rows r) :
    x ∈ rows ∨ x = r ∨ ∃ o ∈ rows, x = merge o r := by
  induction rows with
  | nil => exact .inr (.inl (List.mem_singleton.1 h))
  | cons y ys ih =>
    rw [upsert] at h
    by_cases hy : key y = key r
    · rw [if_pos hy] at h
      rcases List.mem_cons.1 h with rfl | h
      · exact .inr (.inr ⟨y, List.mem_cons_self, rfl⟩)
      · exact .inl (List.mem_cons_of_mem y h)
    · rw [if_neg hy] at h
      rcases List.mem_cons.1 h with rfl | h
      · exact .inl List.mem_cons_self
      · rcases ih h with h | h | ⟨o, ho, he⟩
        · exact .inl (List.mem_cons_of_mem y h)
        · exact .inr (.inl h)
        · exact .inr (.inr ⟨o, List.mem_cons_of_mem y ho, he⟩)

/-- What an `upsert` makes of the row of its key. -/
def put (merge : α → α → α) (o : Option α) (r : α) : Option α :=
  some (match o with
    | some o => merge o r
    | none => r)

/-- Rows upserted one after another: each key has those of its own merged, in their order. -/
theorem lookup_foldl_upsert (hm : ∀ o r, key o = key r → key (merge o r) = key r) (rs rows : List α) (k : κ) :
    lookup key k (rs.foldl (upsert key merge) rows) = (rs.filter fun r => decide (key r = k)).foldl (put merge)
      (lookup key k rows) := by
  induction rs generalizing rows with
  | nil => rfl
  | cons r rs ih =>
    rw [List.foldl_cons, ih, lookup_upsert hm]
    by_cases hk : key r = k <;> simp [hk, put]

theorem lookup_erase (k k' : κ) (rows : List α) :
    lookup key k (erase key k' rows) = if k = k' then none else lookup key k rows := by
  induction rows with
  | nil => simp [erase]
  | cons x xs ih =>
    have hcons : erase key k' (x :: xs) = if key x = k' then erase key k' xs else x :: erase key k' xs := by
      by_cases hx : key x = k' <;> simp [erase, hx]
    rw [hcons, lookup_cons]
    by_cases hx : key x = k'
    · rw [if_pos hx, ih]
      by_cases hk : k = k'
      · simp [hk]
      · have hxk : key x ≠ k := fun h => hk (h.symm.trans hx)
        simp [hk, hxk]
    · rw [if_neg hx, lookup_cons, ih]
      by_cases hk : k = k'
      · have hxk : key x ≠ k := fun h => hx (h.trans hk)
        simp [hk, hx]
      · simp [hk]

theorem lookup_append_single (k : κ) (rows : List α) (r : α) :
    lookup key k (rows ++ [r]) = (lookup key k rows).or (if key r = k then some r else none) := by
  induction rows with
  | nil => simp [lookup_cons]
  | cons x xs ih =>
    rw [List.cons_append, lookup_cons, lookup_cons, ih]
    by_cases hx : key x = k <;> simp [hx]

theorem lookup_map {f : α → α} (hf : ∀ r, key (f r) = key r) (k : κ) (rows : List α) :
    lookup key k (rows.map f) = (lookup key k rows).map f := by
  induction rows with
  | nil => rfl
  | cons x xs ih =>
    rw [List.map_cons, lookup_cons, lookup_cons, hf, ih]
    by_cases hx : key x = k <;> simp [hx]

theorem lookup_key_of_nodup {rows : List α} (hn : (rows.map key).Nodup) {r : α} (h : r ∈ rows) :
    lookup key (key r) rows = some r := by
  induction rows with
  | nil => cases h
  | cons x xs ih =>
    rw [List.map_cons, List.nodup_cons] at hn
    rw [lookup_cons]
    rcases List.mem_cons.1 h with rfl | h
    · rw [if_pos rfl]
    · have hx : key x ≠ key r := fun he => hn.1 (he ▸ List.mem_map_of_mem h)
      rw [if_neg hx]
      exact ih hn.2 h

theorem filter_key_of_nodup {rows : List α} (hn : (rows.map key).Nodup) (k : κ) :
    (rows.filter fun r => decide (key r = k)) = (lookup key k rows).toList := by
  induction rows with
  | nil => rfl
  | cons x xs ih =>
    rw [List.map_cons, List.nodup_cons] at hn
    rw [lookup_cons]
    by_cases hx : key x = k
    · have hnone : (xs.filter fun r => decide (key r = k)) = [] := by
        rw [List.filter_eq_nil_iff]
        intro r hr
        simp only [decide_eq_true_eq]
        intro hk
        exact hn.1 (hx ▸ hk ▸ List.mem_map_of_mem hr)
      simp [hx, hnone]
    · simp [hx, ih hn.2]

/-- The keys after an `upsert`: as before, or one more. -/
theorem map_key_upsert (hm : ∀ o r, key o = key r → key (merge o r) = key r) (rows : List α) (r : α) :
    (upsert key merge rows r).map key = rows.map key ∨
      key r ∉ rows.map key ∧ (upsert key merge rows r).map key = rows.map key ++ [key r] := by
  induction rows with
  | nil => exact .inr ⟨List.not_mem_nil, rfl⟩
  | cons x xs ih =>
    rw [upsert]
    by_cases hx : key x = key r
    · left
      rw [if_pos hx, List.map_cons, List.map_cons, hm x r hx, hx]
    · rw [if_neg hx, List.map_cons, List.map_cons]
      rcases ih with h | ⟨hn, h⟩
      · exact .inl (by rw [h])
      · refine .inr ⟨?_, by rw [h]; rfl⟩
        rw [List.mem_cons, not_or]
        exact ⟨fun he => hx he.symm, hn⟩

/-- A row under a new key comes last. -/
theorem upsert_of_lookup_none {rows : List α} {r : α} (h : lookup key (key r) rows = none) :
    upsert key merge rows r = rows ++ [r] := by
  induction rows with
  | nil => rfl
  | cons x xs ih =>
    rw [lookup_cons] at h
    by_cases hx : key x = key r
    · simp [hx] at h
    · rw [if_neg hx] at h
      rw [upsert, if_neg hx, ih h, List.cons_append]

theorem nodup_erase {rows : List α} (hn : (rows.map key).Nodup) (k : κ) : ((erase key k rows).map key).Nodup :=
  hn.sublist (List.filter_sublist.map key)

/-- The row of a key is one of those counted, or not. -/
theorem countP_erase {rows : List α} (hn : (rows.map key).Nodup) {k : κ} {r : α} (h : lookup key k rows = some r)
    (p : α → Bool) :
    (erase key k rows).countP p + (if p r then 1 else 0) = rows.countP p := by
  have hone : (rows.filter fun x => decide (key x = k)) = [r] := by rw [filter_key_of_nodup hn, h, Option.toList_some]
  have hsplit := List.countP_eq_countP_filter_add rows p fun x => decide (key x = k)
  rw [hone, List.countP_singleton] at hsplit
  rw [hsplit, erase, Nat.add_comm]
  simp

/-- An `upsert` keeps one row for each key. -/
theorem nodup_upsert_merge (hm : ∀ o r, key o = key r → key (merge o r) = key r)
    {rows : List α} (hn : (rows.map key).Nodup) (r : α) :
    ((upsert key merge rows r).map key).Nodup := by
  rcases map_key_upsert hm rows r with h | ⟨hr, h⟩
  · rw [h]
    exact hn
  · rw [h, List.nodup_append]
    exact ⟨hn, List.nodup_singleton _, fun a ha b hb => by rw [List.mem_singleton.1 hb]; exact fun he => hr (he ▸ ha)⟩

theorem nodup_foldl_upsert (hm : ∀ o r, key o = key r → key (merge o r) = key r) (rs : List α)
    {rows : List α} (hn : (rows.map key).Nodup) :
    ((rs.foldl (upsert key merge) rows).map key).Nodup := by
  induction rs generalizing rows with
  | nil => exact hn
  | cons r rs ih => exact ih (nodup_upsert_merge hm hn r)

/-! ## A dict filled row by row -/

section

variable (key)

/-- `{key r: r for r in rows}`. -/
def dictOf (rows : List α) : List α := rows.foldl (upsert key fun _ r => r) []

variable {key}

theorem lookup_replace (rows : List α) (r : α) (k : κ) :
    lookup key k (upsert key (fun _ r => r) rows r) = if key r = k then some r else lookup key k rows := by
  rw [lookup_upsert (fun _ _ _ => rfl)]
  split
  · cases lookup key k rows <;> rfl
  · rfl

theorem mem_replace_self (rows : List α) (r : α) : r ∈ upsert key (fun _ r => r) rows r :=
  mem_of_lookup (by rw [lookup_replace, if_pos rfl])

/-- A row under another key stays. -/
theorem mem_replace_of_ne {rows : List α} {r a : α} (h : a ∈ rows) (hne : key a ≠ key r) :
    a ∈ upsert key (fun _ r => r) rows r := by
  induction rows with
  | nil => cases h
  | cons x xs ih =>
    rw [upsert]
    by_cases hx : key x = key r
    · rw [if_pos hx]
      rcases List.mem_cons.1 h with rfl | h
      · exact absurd hx hne
      · exact List.mem_cons_of_mem r h
    · rw [if_neg hx]
      rcases List.mem_cons.1 h with rfl | h
      · exact List.mem_cons_self
      · exact List.mem_cons_of_mem x (ih h)

theorem nodup_upsert {rows : List α} (hn : (rows.map key).Nodup) (r : α) :
    ((upsert key (fun _ r => r) rows r).map key).Nodup := nodup_upsert_merge (fun _ _ _ => rfl) hn r

theorem nodup_dictOf (rows : List α) : ((dictOf key rows).map key).Nodup :=
  nodup_foldl_upsert (fun _ _ _ => rfl) rows List.nodup_nil

theorem lookup_foldl_replace (rows acc : List α) (k : κ) :
    lookup key k (rows.foldl (upsert key fun _ r => r) acc) = (lookup key k rows.reverse).or (lookup key k acc) := by
  induction rows generalizing acc with
  | nil => rfl
  | cons x xs ih =>
    rw [List.foldl_cons, ih, lookup_replace, List.reverse_cons, lookup_append_single]
    by_cases hx : key x = k
    · cases lookup key k xs.reverse <;> simp [hx]
    · simp [hx]

theorem lookup_dictOf (rows : List α) (k : κ) : lookup key k (dictOf key rows) = lookup key k rows.reverse := by
  rw [dictOf, lookup_foldl_replace]
  cases lookup key k rows.reverse <;> rfl

theorem lookup_eq_some_iff {rows : List α} (hn : (rows.map key).Nodup) {k : κ} {r : α} :
    lookup key k rows = some r ↔ r ∈ rows ∧ key r = k := by
  constructor
  · exact fun h => ⟨mem_of_lookup h, key_of_lookup h⟩
  · rintro ⟨h, rfl⟩
    exact lookup_key_of_nodup hn h

/-- Rows whose keys differ already are a dict. -/
theorem lookup_dictOf_of_nodup {rows : List α} (hn : (rows.map key).Nodup) (k : κ) :
    lookup key k (dictOf key rows) = lookup key k rows := by
  rw [lookup_dictOf]
  have hr : (rows.reverse.map key).Nodup := by rw [List.map_reverse, List.nodup_reverse]; exact hn
  ext r
  rw [lookup_eq_some_iff hr, lookup_eq_some_iff hn, List.mem_reverse]

/-- Of rows that come last, one under each key, each is in the dict. -/
theorem lookup_dictOf_append {a b : List α} (hn : (b.map key).Nodup) {r : α} (h : r ∈ b) :
    lookup key (key r) (dictOf key (a ++ b)) = some r := by
  have hr : (b.reverse.map key).Nodup := by rw [List.map_reverse, List.nodup_reverse]; exact hn
  rw [dictOf, List.foldl_append, lookup_foldl_replace, lookup_key_of_nodup hr (List.mem_reverse.2 h)]
  rfl

theorem mem_keys_iff {rows : List α} {k : κ} : k ∈ rows.map key ↔ (lookup key k rows).isSome := by
  constructor
  · intro h
    obtain ⟨r, hr, rfl⟩ := List.mem_map.1 h
    exact lookup_isSome_of_mem hr
  · intro h
    obtain ⟨r, hr⟩ := Option.isSome_iff_exists.1 h
    exact List.mem_map.2 ⟨r, mem_of_lookup hr, key_of_lookup hr⟩

end

/-! ## Quantities that add up -/

section

open Total

variable {M : Type} [AddCommMonoid M] (key) (q : α → M)

/-- The quantity of the row of `k`, zero where there is none. -/
def amount (k : κ) (rows : List α) : M :=
  match lookup key k rows with
  | some r => q r
  | none => 0

variable {key q}

theorem amount_congr {k : κ} {rows rows' : List α} (h : lookup key k rows' = lookup key k rows) :
    amount key q k rows' = amount key q k rows := by
  rw [amount, h, amount]

theorem amount_of_lookup {k : κ} {rows : List α} {r : α} (h : lookup key k rows = some r) :
    amount key q k rows = q r := by
  rw [amount, h]

theorem amount_erase (k k' : κ) (rows : List α) :
    amount key q k (erase key k' rows) = if k = k' then 0 else amount key q k rows := by
  by_cases hk : k = k'
  · rw [amount, lookup_erase, if_pos hk, if_pos hk]
  · rw [if_neg hk]
    apply amount_congr
    rw [lookup_erase, if_neg hk]

/-- An `upsert` whose merge adds the quantities adds the row's to its key. -/
theorem amount_upsert (hm : ∀ o r, key o = key r → key (merge o r) = key r) (hq : ∀ o r, q (merge o r) = q o + q r)
    (rows : List α) (r : α) (k : κ) :
    amount key q k (upsert key merge rows r) = amount key q k rows + if key r = k then q r else 0 := by
  unfold amount
  rw [lookup_upsert hm]
  by_cases hk : key r = k
  · rw [if_pos hk, if_pos hk]
    cases lookup key k rows with
    | some o => exact hq o r
    | none => exact (zero_add _).symm
  · rw [if_neg hk, if_neg hk, add_zero]

/-- … and so does a fold of them, the rows of one key together. -/
theorem amount_foldl_upsert (hm : ∀ o r, key o = key r → key (merge o r) = key r)
    (hq : ∀ o r, q (merge o r) = q o + q r)
    (rs rows : List α) (k : κ) :
    amount key q k (rs.foldl (upsert key merge) rows) = amount key q k rows +
      total (fun r => decide (key r = k)) q rs := by
  induction rs generalizing rows with
  | nil => simp
  | cons r rs ih =>
    rw [List.foldl_cons, ih, amount_upsert hm hq, total_cons, add_assoc]
    simp only [decide_eq_true_eq]

end

end Keyed

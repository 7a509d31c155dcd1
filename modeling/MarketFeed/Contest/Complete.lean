import Mathlib.Data.List.Dedup
import Mathlib.Data.List.Induction
import MarketFeed.Contest.Integrity
/-!
# What an empty integrity check says (contest.py:279-321)

`integrity_nil_iff`: the check finds nothing exactly when the chain holds and what it compares agrees.
The claim of the module (contest.py:9-15), that the tables are then what the journal gives, holds
exactly when the columns it does not compare agree as well.
-/

namespace Contest

open Keyed Total

variable {H : Type} {hash : ChainHash H} {t : Tables H}

/-! ## The journal, line by line -/

theorem cashOf_append (pid : ℤ) (js : List (Line H)) (j : Line H) :
    cashOf pid (js ++ [j]) = cashOf pid js + if j.participantId = pid then j.detail.cash else 0 := by
  rw [cashOf, total_append, total_cons, total_nil, add_zero, cashOf]
  simp only [decide_eq_true_eq]

theorem qtyOf_append (k : ℤ × String) (js : List (Line H)) (j : Line H) :
    qtyOf k (js ++ [j]) = qtyOf k js + j.qtyOf k := by
  rw [qtyOf, total_append, total_cons, total_nil, add_zero, qtyOf, if_pos rfl]

theorem holdingOf_append (k : ℤ × String) (js : List (Line H)) (j : Line H) :
    holdingOf k (js ++ [j]) = j.costStep k (holdingOf k js) := by
  rw [holdingOf, List.foldl_append, holdingOf]
  rfl

theorem fillLine_append (oid : ℤ) (js : List (Line H)) (j : Line H) :
    fillLine oid (js ++ [j]) =
      (match j.detail with
        | .fill f => if f.orderId = oid then some (j.participantId, f) else none
        | _ => none).or (fillLine oid js) := by
  unfold fillLine
  rw [List.reverse_append, List.reverse_singleton, List.singleton_append, List.findSome?_cons]
  cases j.detail with
  | deposit amount => rfl
  | other kind => rfl
  | fill f =>
    by_cases h : f.orderId = oid
    · simp [h]
    · simp [h]

theorem replay_append (js : List (Line H)) (j : Line H) : replay (js ++ [j]) = (replay js).add j := by
  rw [replay, List.foldl_append, replay]
  rfl

theorem holdingOf_fst (k : ℤ × String) (js : List (Line H)) : (holdingOf k js).1 = qtyOf k js := by
  induction js using List.reverseRecOn with
  | nil => rfl
  | append_singleton js j ih =>
    rw [holdingOf_append, qtyOf_append, ← ih]
    unfold Line.costStep Line.qtyOf
    split
    · rename_i f _
      split
      · unfold Fill.signedQty
        split
        · rfl
        · exact Int.sub_eq_add_neg
      · exact (add_zero _).symm
    · exact (add_zero _).symm

/-! ## The dicts of the replay -/

section

variable {κ : Type} [DecidableEq κ]

theorem amount_addTo (d : List (κ × ℤ)) (k k' : κ) (x : ℤ) :
    amount Prod.fst Prod.snd k (addTo d k' x) = amount Prod.fst Prod.snd k d + if k' = k then x else 0 :=
  amount_upsert (fun _ _ _ => by assumption) (fun _ _ => rfl) d (k', x) k

end

theorem replay_cash (pid : ℤ) (js : List (Line H)) : amount Prod.fst Prod.snd pid (replay js).cash = cashOf pid js := by
  induction js using List.reverseRecOn with
  | nil => rfl
  | append_singleton js j ih =>
    rw [replay_append, cashOf_append, ← ih]
    unfold Replay.add
    cases j.detail with
    | deposit n => exact amount_addTo _ _ _ _
    | fill f => exact amount_addTo _ _ _ _
    | other kind => simp [Detail.cash]

theorem replay_pos (k : ℤ × String) (js : List (Line H)) : amount Prod.fst Prod.snd k (replay js).pos = qtyOf k js := by
  induction js using List.reverseRecOn with
  | nil => rfl
  | append_singleton js j ih =>
    rw [replay_append, qtyOf_append, ← ih]
    unfold Replay.add Line.qtyOf
    cases j.detail with
    | deposit n => exact (add_zero _).symm
    | fill f => exact amount_addTo _ _ _ _
    | other kind => exact (add_zero _).symm

theorem replay_fills (oid : ℤ) (js : List (Line H)) :
    (lookup Prod.fst oid (replay js).fills).map Prod.snd = (fillLine oid js).map Prod.snd := by
  induction js using List.reverseRecOn with
  | nil => rfl
  | append_singleton js j ih =>
    rw [replay_append, fillLine_append]
    unfold Replay.add
    cases j.detail with
    | deposit n => exact ih
    | other kind => exact ih
    | fill f =>
      show (lookup Prod.fst oid (upsert Prod.fst (fun _ x => x) (replay js).fills (f.orderId, f))).map Prod.snd = _
      rw [lookup_replace]
      by_cases h : f.orderId = oid
      · simp [h]
      · simpa [h] using ih

/-! ## The four parts of the check -/

theorem brokenAt_eq_none_iff [DecidableEq H] (prev : H) (js : List (Line H)) : brokenAt hash prev js = none ↔
    Chained hash prev js := by
  induction js generalizing prev with
  | nil => exact ⟨fun _ => trivial, fun _ => rfl⟩
  | cons j js ih =>
    unfold brokenAt Chained
    by_cases hc : j.prevHash ≠ prev ∨ j.hash ≠ hash.chain prev j.ts j.participantId j.detail
    · rw [if_pos hc]
      constructor
      · intro h
        cases h
      · rintro ⟨h1, h2, _⟩
        rcases hc with hc | hc
        · exact absurd h1 hc
        · exact absurd h2 hc
    · rw [if_neg hc, ih]
      simp only [ne_eq, not_or, not_not] at hc
      exact ⟨fun h => ⟨hc.1, hc.2, h⟩, fun h => h.2.2⟩

theorem cashBreaks_nil_iff (cash : List (ℤ × ℤ)) :
    cashBreaks t cash = [] ↔ ∀ a ∈ t.accounts, a.cash.val = amount Prod.fst Prod.snd a.participantId cash := by
  rw [cashBreaks, List.filterMap_eq_nil_iff]
  refine forall_congr' fun a => forall_congr' fun _ => ?_
  simp only [ite_eq_right_iff, reduceCtorEq, imp_false, not_not]
  exact eq_comm

theorem amount_eq_zero {α κ : Type} [DecidableEq κ] {key : α → κ} {q : α → ℤ} {k : κ} {rows : List α}
    (h : k ∉ rows.map key) : amount key q k rows = 0 := by
  rw [mem_keys_iff, Option.not_isSome_iff_eq_none] at h
  rw [amount, h]

theorem positionBreaks_nil_iff (hu : t.Unique) (pos : List ((ℤ × String) × ℤ)) :
    positionBreaks t pos = [] ↔ ∀ k, (t.holding k).1 = amount Prod.fst Prod.snd k pos := by
  have htable : ∀ k, amount Position.key Position.qty k (dictOf Position.key t.positions) = (t.holding k).1 := by
    intro k
    unfold amount Tables.holding
    rw [lookup_dictOf_of_nodup hu.positions]
    cases lookup Position.key k t.positions <;> rfl
  rw [positionBreaks, List.filterMap_eq_nil_iff]
  simp only [List.mem_insertionSort, List.mem_dedup, List.mem_append, ite_eq_right_iff, reduceCtorEq, imp_false, ne_eq,
    not_not, htable]
  constructor
  · intro h k
    by_cases hk : k ∈ (dictOf Position.key t.positions).map Position.key ∨ k ∈ pos.map Prod.fst
    · exact h k hk
    · -- in neither dict, the quantity is zero on both sides
      rw [not_or] at hk
      rw [← htable, amount_eq_zero hk.1, amount_eq_zero hk.2]
  · exact fun h k _ => h k

theorem lookup_filled (hu : t.Unique) (oid : ℤ) :
    lookup Order.id oid (dictOf Order.id t.filled) = lookup Order.id oid t.filled :=
  lookup_dictOf_of_nodup (hu.orders.sublist (List.filter_sublist.map _)) oid

theorem orderBreaks_nil_iff (hu : t.Unique) (fills : List (ℤ × Fill)) :
    orderBreaks t fills = [] ↔
      (∀ oid, (lookup Order.id oid t.filled).isSome = (lookup Prod.fst oid fills).isSome) ∧
      ∀ oid o x, lookup Order.id oid t.filled = some o → lookup Prod.fst oid fills = some x →
      sameFill o x.2 = true := by
  rw [orderBreaks, List.filterMap_eq_nil_iff]
  simp only [List.mem_insertionSort, List.mem_dedup, List.mem_append, mem_keys_iff, lookup_filled hu]
  constructor
  · intro h
    constructor
    · intro oid
      cases ho : lookup Order.id oid t.filled with
      | none =>
        cases hx : lookup Prod.fst oid fills with
        | none => rfl
        | some x =>
          have := h oid (.inr (by rw [hx]; rfl))
          simp [ho] at this
      | some o =>
        cases hx : lookup Prod.fst oid fills with
        | none =>
          have := h oid (.inl (by rw [ho]; rfl))
          simp [ho, hx] at this
        | some x => rfl
    · intro oid o x ho hx
      have := h oid (.inl (by rw [ho]; rfl))
      simpa [ho, hx] using this
  · rintro ⟨hsome, hsame⟩ oid hmem
    cases ho : lookup Order.id oid t.filled with
    | none =>
      have hx := hsome oid
      rw [ho] at hx
      rw [ho, ← hx] at hmem
      simp at hmem
    | some o =>
      have hx := hsome oid
      rw [ho] at hx
      obtain ⟨x, hx⟩ := Option.isSome_iff_exists.1 hx.symm
      rw [hx]
      exact if_pos (hsame oid o x ho hx)

/-- The check finds nothing exactly when the chain holds and what it compares agrees. -/
theorem integrity_nil_iff [DecidableEq H] (hu : t.Unique) :
    integrity hash t = [] ↔ Chained hash hash.genesis t.journal ∧ Checked t := by
  unfold integrity
  cases hb : brokenAt hash hash.genesis t.journal with
  | some id =>
    have hnot : ¬Chained hash hash.genesis t.journal := by
      rw [← brokenAt_eq_none_iff, hb]
      exact fun h => by cases h
    simp [hnot]
  | none =>
    have hfills : ∀ oid, (lookup Prod.fst oid (replay t.journal).fills).isSome = (fillLine oid t.journal).isSome := by
      intro oid
      rw [← Option.isSome_map (f := Prod.snd), replay_fills, Option.isSome_map]
    simp only [List.append_eq_nil_iff, cashBreaks_nil_iff, positionBreaks_nil_iff hu, orderBreaks_nil_iff hu,
      replay_cash,
      replay_pos, hfills, (brokenAt_eq_none_iff _ _).1 hb, true_and]
    constructor
    · rintro ⟨⟨hcash, hqty⟩, hfilled, horders⟩
      refine ⟨hcash, fun k => (hqty k).trans (holdingOf_fst k t.journal).symm, hfilled, ?_⟩
      intro oid o x ho hx
      have hf := replay_fills oid t.journal
      rw [hx] at hf
      obtain ⟨y, hy, hyx⟩ := Option.map_eq_some_iff.1 hf
      rw [← hyx]
      exact horders oid o y ho hy
    · rintro ⟨hcash, hqty, hfilled, horders⟩
      refine ⟨⟨hcash, fun k => (hqty k).trans (holdingOf_fst k t.journal)⟩, hfilled, ?_⟩
      intro oid o y ho hy
      have hf := replay_fills oid t.journal
      rw [hy] at hf
      obtain ⟨x, hx, hxy⟩ := Option.map_eq_some_iff.1 hf.symm
      rw [← hxy]
      exact horders oid o x ho hx

/-- Where everything compared agrees, the tables are the journal's exactly when the rest agrees too. -/
theorem agrees_iff (hc : Checked t) : Agrees t ↔ Unchecked t := by
  constructor
  · intro h
    refine ⟨h.accounts, fun k => by rw [h.positions k], ?_⟩
    intro oid o x ho hx
    obtain ⟨h1, h2, h3, _⟩ := h.orders oid o x ho hx
    exact ⟨h1, h2, h3⟩
  · intro h
    refine ⟨h.accounts, hc.cash, fun k => Prod.ext (hc.qty k) (h.cost k), hc.filled, ?_⟩
    intro oid o x ho hx
    obtain ⟨h1, h2, h3⟩ := h.orders oid o x ho hx
    have hs := of_decide_eq_true (hc.orders oid o x ho hx)
    exact ⟨h1, h2, h3, hs.1, hs.2.1, hs.2.2.2.1⟩

/-- **Completeness of the check**: with an intact chain, an empty result means that the tables are the journal's if and
only if the columns it does not compare agree wherever the ones it compares do. -/
theorem integrity_complete_iff [DecidableEq H] (hu : t.Unique) (hchain : Chained hash hash.genesis t.journal) :
    (integrity hash t = [] → Agrees t) ↔ (Checked t → Unchecked t) := by
  rw [integrity_nil_iff hu]
  constructor
  · exact fun h hc => (agrees_iff hc).1 (h ⟨hchain, hc⟩)
  · exact fun h hc => (agrees_iff hc.2).2 (h hc.2)

/-- A hash that keeps everything it was given. -/
def linkHash : ChainHash (List (ℚ × ℤ × Detail)) := ⟨[], fun prev ts pid detail => (ts, pid, detail) :: prev⟩

/-- Two shares bought for 140221, with `cost` in the position's row. -/
def boughtTwo (cost : ℤ) : Tables (List (ℚ × ℤ × Detail)) :=
  let deposit : Detail := .deposit 10000000
  let fill : Detail := .fill ⟨1, "005930", "buy", 2, 70100, 140200, 21, 0, -140221⟩
  { participants := [⟨1, "mina", "", 1⟩]
    invites := [⟨"k3vP", 0, some 1, some 1⟩]
    accounts := [⟨1, .int 9859779⟩]
    positions := [⟨1, "005930", 2, cost⟩]
    orders := [⟨1, 1, "a", "005930", "buy", 2, 70100, 140200, 21, 0, .filled, none, 2⟩]
    journal := [⟨1, 1, 1, deposit, [], [(1, 1, deposit)]⟩,
      ⟨2, 2, 1, fill, [(1, 1, deposit)], [(2, 1, fill), (1, 1, deposit)]⟩]
    halted := none
    participantSeq := 1
    orderSeq := 1
    journalSeq := 2 }

theorem integrity_complete_bought :
    (integrity linkHash (boughtTwo 140221) = [] → Agrees (boughtTwo 140221)) ↔
      (Checked (boughtTwo 140221) → Unchecked (boughtTwo 140221)) :=
  integrity_complete_iff ⟨by decide, by decide, by decide⟩ ⟨rfl, rfl, rfl, rfl, trivial⟩

/-- Nothing is found where the row's cost is any other number. -/
theorem integrity_incomplete :
    (boughtTwo 1).Unique ∧ Chained linkHash linkHash.genesis (boughtTwo 1).journal ∧
      integrity linkHash (boughtTwo 1) = [] ∧
      ¬Agrees (boughtTwo 1) := by
  refine ⟨⟨by decide, by decide, by decide⟩, ⟨rfl, rfl, rfl, rfl, trivial⟩, by decide +kernel, ?_⟩
  intro h
  exact absurd (h.positions (1, "005930")) (by decide)

end Contest

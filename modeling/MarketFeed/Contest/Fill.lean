import MarketFeed.Contest.Complete
import MarketFeed.Contest.Spec
/-!
# What a fill does to the tables and to the replay (contest.py:185-227)

The table keeps cash, quantity and cost on one path, the replay of the journal computes them on another;
here are the two paths for the one line a fill adds, and the bounds of its amounts.
-/

namespace Contest

open Keyed Txn Total

variable {H : Type} {hash : ChainHash H} {cfg : Cfg} {r : Request} {t : Tables H} {now ts : ℚ}

/-! ## Amounts -/

theorem orderReason_none {cash : Cash} {held : ℤ} (h : orderReason cfg r cash held = none) :
    0 < r.price ∧ (r.side = "buy" → ((r.amount + r.fee cfg : ℤ) : ℚ) ≤ cash.val) ∧
      (r.side = "sell" → r.qty ≤ held) := by
  unfold orderReason at h
  split at h
  · cases h
  · rename_i hp
    split at h
    · cases h
    · rename_i hb
      split at h
      · cases h
      · rename_i hs
        refine ⟨not_le.1 hp, fun hside => ?_, fun hside => ?_⟩
        · exact not_lt.1 fun hlt => hb ⟨hside, hlt⟩
        · exact not_lt.1 fun hlt => hs ⟨hside, hlt⟩

theorem amount_pos (hq : 0 < r.qty) (hp : 0 < r.price) : 0 < r.amount := mul_pos hq hp

/-- A rebate is not more than the amount. -/
theorem amount_add_fee_nonneg (hf : -1000000 ≤ cfg.feePpm) (ha : 0 ≤ r.amount) : 0 ≤ r.amount + r.fee cfg := by
  have hmul : r.amount * -1000000 ≤ r.amount * cfg.feePpm := mul_le_mul_of_nonneg_left hf ha
  have hfee : r.fee cfg = r.amount * cfg.feePpm / 1000000 := rfl
  omega

/-- The rounded fee and the rounded tax together are not more than the amount. -/
theorem fee_add_tax_le (hs : cfg.feePpm + cfg.taxPpm ≤ 1000000) (ha : 0 ≤ r.amount) (hside : r.side = "sell") :
    r.fee cfg + r.tax cfg ≤ r.amount := by
  have hmul : r.amount * (cfg.feePpm + cfg.taxPpm) ≤ r.amount * 1000000 := mul_le_mul_of_nonneg_left hs ha
  have hfee : r.fee cfg = r.amount * cfg.feePpm / 1000000 := rfl
  have htax : r.tax cfg = r.amount * cfg.taxPpm / 1000000 := if_pos hside
  rw [mul_add] at hmul
  omega

/-- The share of the cost that a sale takes off. -/
theorem cost_share {cost qty held : ℤ} (hc : 0 ≤ cost) (hq : 0 < qty) (hle : qty ≤ held) :
    0 ≤ cost - cost * qty / held ∧ (held - qty = 0 → cost - cost * qty / held = 0) := by
  have hpos : 0 < held := by omega
  constructor
  · have hdiv : cost * qty / held ≤ cost := Int.ediv_le_of_le_mul hpos (mul_le_mul_of_nonneg_left hle hc)
    omega
  · intro h
    have he : qty = held := by omega
    rw [he, Int.mul_ediv_cancel cost (by omega), sub_self]

/-- Quantity and cost after a fill. -/
theorem fillOf_position {held cost : ℤ} (hside : r.side = "buy" ∨ r.side = "sell") (hq : 0 < r.qty) (hp : 0 < r.price)
    (hsell : r.side = "sell" → r.qty ≤ held) (hf : -1000000 ≤ cfg.feePpm) (hheld : 0 ≤ held) (hcost : 0 ≤ cost) :
    let x := (fillOf cfg r held cost).2
    0 ≤ x.1 ∧ 0 ≤ x.2 ∧ (x.1 = 0 → x.2 = 0) := by
  have hneed := amount_add_fee_nonneg hf (amount_pos hq hp).le
  unfold fillOf
  by_cases hb : r.side = "buy"
  · rw [if_pos hb]
    exact ⟨by simp only; omega, by simp only; omega, fun h => by simp only at h; omega⟩
  · have hs : r.side = "sell" := hside.resolve_left hb
    obtain ⟨hnonneg, hzero⟩ := cost_share hcost hq (hsell hs)
    rw [if_neg hb]
    exact ⟨by have := hsell hs; simp only; omega, hnonneg, hzero⟩

/-- A fill does not take more cash than there is. -/
theorem fillOf_cash {n held cost : ℤ} (hn : 0 ≤ n) (hside : r.side = "buy" ∨ r.side = "sell") (ha : 0 ≤ r.amount)
    (hbuy : r.side = "buy" → r.amount + r.fee cfg ≤ n) (hs : cfg.feePpm + cfg.taxPpm ≤ 1000000) :
    0 ≤ n + (fillOf cfg r held cost).1 := by
  unfold fillOf
  by_cases hb : r.side = "buy"
  · have := hbuy hb
    rw [if_pos hb]
    simp only
    omega
  · have := fee_add_tax_le hs ha (hside.resolve_left hb)
    rw [if_neg hb]
    simp only
    omega

/-! ## The tables -/

theorem map_updateCash (pid delta : ℤ) :
    (updateCash pid delta t).accounts.map Account.participantId = t.accounts.map Account.participantId := by
  rw [updateCash, List.map_map]
  refine List.map_congr_left fun a _ => ?_
  by_cases h : a.participantId = pid <;> simp [h]

/-- An account after the update: the participant's one, or one as it was. -/
theorem mem_updateCash (hu : (t.accounts.map Account.participantId).Nodup) {pid delta : ℤ} {account a : Account}
    (hacc : lookup Account.participantId pid t.accounts = some account) (h : a ∈ (updateCash pid delta t).accounts) :
    a = ⟨pid, account.cash.add delta⟩ ∨ (a ∈ t.accounts ∧ a.participantId ≠ pid) := by
  obtain ⟨b, hb, rfl⟩ := List.mem_map.1 h
  by_cases hpid : b.participantId = pid
  · left
    have hba : b = account := by
      have := lookup_key_of_nodup hu hb
      rw [hpid, hacc] at this
      exact (Option.some.inj this).symm
    rw [if_pos hpid, ← hba, hpid]
  · right
    rw [if_neg hpid]
    exact ⟨hb, hpid⟩

theorem holding_withFill (k : ℤ × String) :
    (t.withFill hash cfg r now ts).holding k =
      if (r.pid, r.symbol) = k then (fillOf cfg r (t.heldBy r).1 (t.heldBy r).2).2 else t.holding k := by
  obtain ⟨qty, cost, hx⟩ : ∃ qty cost, (fillOf cfg r (t.heldBy r).1 (t.heldBy r).2).2 = (qty, cost) := ⟨_, _, rfl⟩
  have hpos : (t.withFill hash cfg r now ts).positions =
      upsert Position.key (fun _ p => p) t.positions ⟨r.pid, r.symbol, qty, cost⟩ := by
    rw [show qty = (qty, cost).1 from rfl, show cost = (qty, cost).2 from rfl, ← hx]
    rfl
  have hkey : Position.key ⟨r.pid, r.symbol, qty, cost⟩ = (r.pid, r.symbol) := rfl
  rw [Tables.holding, hpos, lookup_replace, hkey, hx]
  by_cases hk : (r.pid, r.symbol) = k
  · rw [if_pos hk, if_pos hk]
  · rw [if_neg hk, if_neg hk]
    rfl

theorem filled_withOrder (reason : Option Reason) :
    (t.withOrder cfg r reason now).filled =
      t.filled ++ if reason.isSome then [] else [orderRow cfg r t.nextOrder reason now] := by
  unfold Tables.withOrder Tables.filled
  rw [List.filter_append]
  cases reason <;> rfl

/-- A new order's id is new. -/
theorem nodup_withOrder (hu : (t.orders.map Order.id).Nodup) (reason : Option Reason) :
    ((t.withOrder cfg r reason now).orders.map Order.id).Nodup := by
  unfold Tables.withOrder
  rw [List.map_append, List.nodup_append]
  refine ⟨hu, List.nodup_singleton _, ?_⟩
  intro i hi i' hi' he
  have hlt := (lt_nextId t.orderSeq (t.orders.map Order.id)).2 i hi
  have hid : i' = t.nextOrder := List.mem_singleton.1 hi'
  unfold Tables.nextOrder at hid
  omega

theorem lookup_nextOrder : lookup Order.id t.nextOrder t.filled = none := by
  rw [← Option.not_isSome_iff_eq_none, ← mem_keys_iff]
  intro h
  have hmem : t.nextOrder ∈ t.orders.map Order.id := (List.filter_sublist.map Order.id).subset h
  exact absurd ((lt_nextId t.orderSeq _).2 _ hmem) (lt_irrefl _)

/-! ## The replay -/

/-- The line an operation adds. -/
def newLine (hash : ChainHash H) (ts : ℚ) (pid : ℤ) (detail : Detail) (t : Tables H) : Line H :=
  ⟨nextId t.journalSeq (t.journal.map Line.id), ts, pid, detail, t.lastHash hash,
    hash.chain (t.lastHash hash) ts pid detail⟩

theorem journal_withFill :
    (t.withFill hash cfg r now ts).journal =
      t.journal ++ [newLine hash ts r.pid
        (.fill (fillDetail cfg r t.nextOrder (fillOf cfg r (t.heldBy r).1 (t.heldBy r).2).1)) t] :=
  rfl

/-- The replay does to a holding what the table's row gets. -/
theorem costStep_fill (k : ℤ × String) (s : ℤ × ℤ) (id delta : ℤ) :
    (newLine hash ts r.pid (.fill (fillDetail cfg r id delta)) t).costStep k s =
      if (r.pid, r.symbol) = k then (fillOf cfg r s.1 s.2).2 else s := by
  unfold Line.costStep newLine fillDetail fillOf
  by_cases hk : (r.pid, r.symbol) = k
  · by_cases hb : r.side = "buy"
    · simp [hk, hb]
    · simp [hk, hb]
  · simp [hk]

theorem holding_journal_withFill (h : ∀ k, t.holding k = holdingOf k t.journal) (k : ℤ × String) :
    (t.withFill hash cfg r now ts).holding k = holdingOf k (t.withFill hash cfg r now ts).journal := by
  rw [holding_withFill, journal_withFill, holdingOf_append, costStep_fill]
  by_cases hk : (r.pid, r.symbol) = k
  · have hheld : t.heldBy r = holdingOf k t.journal := by
      rw [← h k, ← hk]
      rfl
    rw [if_pos hk, if_pos hk, hheld]
  · rw [if_neg hk, if_neg hk, h k]

theorem fillLine_withFill (oid : ℤ) :
    fillLine oid (t.withFill hash cfg r now ts).journal =
      if t.nextOrder = oid then some (r.pid,
        fillDetail cfg r t.nextOrder (fillOf cfg r (t.heldBy r).1 (t.heldBy r).2).1)
      else fillLine oid t.journal := by
  rw [journal_withFill, fillLine_append]
  by_cases h : t.nextOrder = oid
  · simp [newLine, fillDetail, h]
  · simp [newLine, fillDetail, h]

theorem lookup_filled_withFill (oid : ℤ) :
    lookup Order.id oid (t.withFill hash cfg r now ts).filled =
      if t.nextOrder = oid then some (orderRow cfg r t.nextOrder none now) else lookup Order.id oid t.filled := by
  have hf : (t.withFill hash cfg r now ts).filled = t.filled ++ [orderRow cfg r t.nextOrder none now] :=
    @filled_withOrder H cfg r t now none
  have hid : (orderRow cfg r t.nextOrder none now).id = t.nextOrder := rfl
  rw [hf, lookup_append_single, hid]
  by_cases h : t.nextOrder = oid
  · rw [if_pos h, if_pos h, ← h, lookup_nextOrder]
    rfl
  · rw [if_neg h, if_neg h, Option.or_none]

end Contest

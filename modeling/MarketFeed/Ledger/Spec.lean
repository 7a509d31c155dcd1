import MarketFeed.Ledger.Effects
/-!
# What each operation writes

One lemma per operation, so that no later proof unfolds one: `newOrder_cases`, `totalsPlan_cases`
with `resolved_stmt` and `share_row`, `applyNotice_cases`, `closeDay_cases`. Which kinds of
statement an operation issues at all is `Call.issues` (`issues_of_mem`).
-/

namespace OrderLedger

open Script

/-- The kinds of statement an operation may issue. -/
def Call.issues : Call → Stmt → Bool
  | _, .insertEvent _ => true
  | .newOrder .., .insertOrder .. => true
  | .mark .., .markOrder .. => true
  | .recoverPending _, .setState _ st _ => st == .unknown
  | .setTotalsBaseline .., .insertTotalsBaseline .. => true
  | .setHoldingsBaseline .., .insertHolding .. => true
  | .setHoldingsBaseline .., .insertHoldingsTaken .. => true
  | .applyTotals .., .setState _ st _ => st == .accepted || st == .notSent
  | .applyTotals .., .insertFill _ => true
  | .applyTotals .., .updateFill .. => true
  | .applyNotice .., .insertNotice _ => true
  | .applyNotice .., .insertFill _ => true
  | .applyNotice .., .updateFill .. => true
  | .closeDay .., .setState _ st _ => st == .expired
  | .closeDay .., .insertDayClose _ => true
  | _, _ => false

/-! ## `new_order`, `recover_pending`, `set_holdings_baseline` -/

theorem newOrder_cases (l : Ledger) (now : Time) (cid : String) (k : Key) (qty price est : Int) :
    (∃ o ∈ l.orders, o.clientOrderId = cid ∧ l.newOrderStmts now cid k qty price est = [] ∧
      l.newOrderId cid = o.id) ∨
    ((∀ o ∈ l.orders, o.clientOrderId ≠ cid) ∧ l.newOrderId cid = l.orderSeq + 1 ∧
      l.newOrderStmts now cid k qty price est =
        [.insertOrder cid k.tradeDate k.symbol k.side qty price (if est = 0 then price else est) now,
         .insertEvent ⟨now, some (l.orderSeq + 1), .orderCreated k.symbol k.side qty price⟩]) := by
  unfold Ledger.newOrderStmts Ledger.newOrderId
  cases h : l.byClientId cid with
  | some o =>
    exact .inl ⟨o, List.mem_of_find?_eq_some h, by simpa using List.find?_some h, rfl, rfl⟩
  | none =>
    refine .inr ⟨fun o ho hc => ?_, rfl, rfl⟩
    exact List.find?_eq_none.1 h o ho (by simpa using hc)

theorem recoverPending_stmt {l : Ledger} {now : Time} {s : Stmt} (h : s ∈ l.recoverPendingStmts now) :
    (∃ o ∈ l.orders, o.state = .pendingSubmit ∧ s = .setState o.id .unknown now) ∨ ∃ e, s = .insertEvent e := by
  simp only [Ledger.recoverPendingStmts, List.mem_flatMap, List.mem_filter, beq_iff_eq, List.mem_cons,
    List.not_mem_nil, or_false] at h
  obtain ⟨o, ⟨ho, hst⟩, rfl | rfl⟩ := h
  · exact .inl ⟨o, ho, hst, rfl⟩
  · exact .inr ⟨_, rfl⟩

theorem setHoldingsBaseline_stmt {l : Ledger} {now : Time} {date : String} {hs : List (String × Int)} {s : Stmt}
    (h : s ∈ l.setHoldingsBaselineStmts now date hs) : (Call.setHoldingsBaseline now date hs).issues s = true := by
  unfold Ledger.setHoldingsBaselineStmts at h
  split at h
  · simp at h
  · simp only [List.mem_append, List.mem_map, List.mem_cons, List.not_mem_nil, or_false] at h
    rcases h with ⟨_, _, rfl⟩ | rfl | rfl <;> rfl

/-! ## `apply_totals` -/

theorem mem_liveOf {rows : List Order} {o : Order} : o ∈ liveOf rows ↔ o ∈ rows ∧ o.state ∈ liveStates := by
  simp [liveOf]

theorem mem_unknownOf {rows : List Order} {o : Order} : o ∈ unknownOf rows ↔ o ∈ rows ∧ o.state = .unknown := by
  simp [unknownOf]

theorem mem_openLiveOf {live : List Order} {o : Order} :
    o ∈ openLiveOf live ↔ o ∈ live ∧ o.state ∈ fillableStates ∧ o.filledQty < o.qty := by
  simp [openLiveOf]

theorem sortById_perm (os : List Order) : (sortById os).Perm os := List.perm_insertionSort _ _

/-- The two ways `resolve` goes on to the fills. -/
theorem resolve_cases {now : Time} {k : Key} {bOrd q : Int} {rows : List Order} {r : Resolved}
    (h : resolve now k bOrd q rows = .ok r) :
    (0 < bOrd - sumQty (liveOf rows) ∧ sumQty (unknownOf rows) = bOrd - sumQty (liveOf rows) ∧
      r.live = sortById (liveOf rows ++ (unknownOf rows).map Order.accept) ∧
      r.stmts = (unknownOf rows).flatMap fun o =>
        [.setState o.id .accepted now, .insertEvent ⟨now, some o.id, .unknownResolvedSent q⟩]) ∨
    (bOrd - sumQty (liveOf rows) ≤ 0 ∧ r.live = liveOf rows ∧
      r.stmts = ((unknownOf rows).filter fun o => decide (unknownGrace < now - o.createdTs)).flatMap fun o =>
        [.setState o.id .notSent now, .insertEvent ⟨now, some o.id, .unknownResolvedNotSent q⟩]) := by
  unfold resolve at h
  simp only at h
  split at h
  · rename_i hpos
    split at h
    · rename_i hunk; cases h; exact .inl ⟨hpos, hunk.2, rfl, rfl⟩
    · cases h
  · rename_i hpos; cases h; exact .inr ⟨by omega, rfl, rfl⟩

/-- Either `_apply_totals` attributes nothing, or the executed delta fits the open live orders. -/
theorem totalsPlan_cases (l : Ledger) (now : Time) (k : Key) (broker : Totals) :
    ((l.totalsPlan now k broker).resolved = [] ∧ (l.totalsPlan now k broker).shares = []) ∨
    ∃ base r, l.baseline k = some base ∧
      resolve now k (broker.ordQty - base.ordQty) broker.ordQty (l.rowsOf k) = .ok r ∧
      (l.totalsPlan now k broker).resolved = r.stmts ∧
      ((l.totalsPlan now k broker).shares = [] ∨
        ∃ delta amtDelta, delta = broker.ccldQty - base.ccldQty - sumFilled r.live ∧ 0 < delta ∧
          delta ≤ roomOf (openLiveOf r.live) ∧
          (l.totalsPlan now k broker).shares = allocate delta amtDelta delta amtDelta (openLiveOf r.live)) := by
  unfold Ledger.totalsPlan
  cases hb : l.baseline k with
  | none => exact .inl ⟨rfl, rfl⟩
  | some base =>
    cases hr : resolve now k (broker.ordQty - base.ordQty) broker.ordQty (l.rowsOf k) with
    | error => exact .inl ⟨by simp only [hr], by simp only [hr]⟩
    | ok r =>
      refine .inr ⟨base, r, rfl, hr, by simp only [hr], ?_⟩
      simp only [hr, Ledger.attribute]
      split
      · left; split <;> rfl
      · split
        · exact .inl rfl
        · split
          · exact .inl rfl
          · rename_i h1 h2 h3
            exact .inr ⟨_, _, rfl, by omega, by omega, rfl⟩

/-- A resolved row was UNKNOWN, and only its state changes. -/
theorem resolved_stmt {l : Ledger} {now : Time} {k : Key} {broker : Totals} {s : Stmt}
    (h : s ∈ (l.totalsPlan now k broker).resolved) :
    (∃ o ∈ l.rowsOf k, o.state = .unknown ∧ ∃ st, (st = .accepted ∨ st = .notSent) ∧ s = .setState o.id st now) ∨
      ∃ e, s = .insertEvent e := by
  obtain ⟨h0, _⟩ | ⟨base, r, _, hr, hres, _⟩ := totalsPlan_cases l now k broker
  · simp [h0] at h
  · rw [hres] at h
    obtain ⟨_, _, _, hst⟩ | ⟨_, _, hst⟩ := resolve_cases hr
    · rw [hst] at h
      simp only [List.mem_flatMap, List.mem_cons, List.not_mem_nil, or_false, mem_unknownOf] at h
      obtain ⟨o, ⟨ho, hu⟩, rfl | rfl⟩ := h
      · exact .inl ⟨o, ho, hu, _, .inl rfl, rfl⟩
      · exact .inr ⟨_, rfl⟩
    · rw [hst] at h
      simp only [List.mem_flatMap, List.mem_cons, List.not_mem_nil, or_false, List.mem_filter, mem_unknownOf] at h
      obtain ⟨o, ⟨⟨ho, hu⟩, _⟩, rfl | rfl⟩ := h
      · exact .inl ⟨o, ho, hu, _, .inr rfl, rfl⟩
      · exact .inr ⟨_, rfl⟩

/-- The live rows of the plan are ledger rows, resolved ones marked ACCEPTED. -/
theorem resolved_live {now : Time} {k : Key} {bOrd q : Int} {rows : List Order} {r : Resolved}
    (h : resolve now k bOrd q rows = .ok r) {o : Order} (ho : o ∈ r.live) :
    (o ∈ rows ∧ o.state ∈ liveStates) ∨ ∃ u ∈ rows, u.state = .unknown ∧ o = u.accept := by
  obtain ⟨_, _, hl, _⟩ | ⟨_, hl, _⟩ := resolve_cases h
  · rw [hl, (sortById_perm _).mem_iff, List.mem_append] at ho
    rcases ho with ho | ho
    · exact .inl (mem_liveOf.1 ho)
    · obtain ⟨u, hu, rfl⟩ := List.mem_map.1 ho
      exact .inr ⟨u, (mem_unknownOf.1 hu).1, (mem_unknownOf.1 hu).2, rfl⟩
  · rw [hl] at ho
    exact .inl (mem_liveOf.1 ho)

theorem resolved_live_ids {now : Time} {k : Key} {bOrd q : Int} {rows : List Order} {r : Resolved}
    (h : resolve now k bOrd q rows = .ok r) (hn : (rows.map (·.id)).Nodup) : (r.live.map (·.id)).Nodup := by
  have hlive : ((liveOf rows).map (·.id)).Nodup := hn.sublist (List.filter_sublist.map _)
  obtain ⟨_, _, hl, _⟩ | ⟨_, hl, _⟩ := resolve_cases h
  · rw [hl, ((sortById_perm _).map _).nodup_iff, List.map_append, List.map_map]
    refine List.nodup_append.2 ⟨hlive, hn.sublist (List.filter_sublist.map _), fun a ha b hb hab => ?_⟩
    obtain ⟨x, hx, rfl⟩ := List.mem_map.1 ha
    obtain ⟨y, hy, rfl⟩ := List.mem_map.1 hb
    have hxy : x = y := List.inj_on_of_nodup_map hn (mem_liveOf.1 hx).1 (mem_unknownOf.1 hy).1 hab
    have h1 := (mem_liveOf.1 hx).2
    rw [hxy, (mem_unknownOf.1 hy).2] at h1
    simp [liveStates] at h1
  · rw [hl]; exact hlive

/-! ### The attribution loop -/

theorem roomOf_cons (o : Order) (os : List Order) : roomOf (o :: os) = (o.qty - o.filledQty) + roomOf os := by
  simp [roomOf]

theorem allocate_orders {delta amtDelta : Int} :
    ∀ {left amtLeft : Int} {os : List Order},
      (((allocate delta amtDelta left amtLeft os).map (·.order)).Sublist os)
  | _, _, [] => by simp [allocate]
  | left, amtLeft, o :: os => by
    simp only [allocate]
    split
    · exact List.nil_sublist _
    · exact allocate_orders.cons_cons o

theorem roomOf_nonneg : ∀ {os : List Order}, (∀ o ∈ os, o.filledQty < o.qty) → 0 ≤ roomOf os
  | [], _ => by simp [roomOf]
  | o :: os, h => by
    have ho := h o (by simp)
    have ih := roomOf_nonneg fun x hx => h x (List.mem_cons_of_mem o hx)
    rw [roomOf_cons]; omega

/-- Every share is positive and fits its order; together they are the whole delta. -/
theorem allocate_takes {delta amtDelta : Int} :
    ∀ {left amtLeft : Int} {os : List Order}, 0 ≤ left → left ≤ roomOf os → (∀ o ∈ os, o.filledQty < o.qty) →
      (∀ s ∈ allocate delta amtDelta left amtLeft os, 0 < s.take ∧ s.take ≤ s.order.qty - s.order.filledQty) ∧
      ((allocate delta amtDelta left amtLeft os).map (·.take)).sum = left
  | left, amtLeft, [], h0, hle, _ => by
    simp only [roomOf, List.map_nil, List.sum_nil] at hle
    simp [allocate]; omega
  | left, amtLeft, o :: os, h0, hle, hroom => by
    have ho := hroom o (by simp)
    rw [roomOf_cons] at hle
    simp only [allocate]
    split
    · rename_i hz; simp [hz]
    · have hos : ∀ x ∈ os, x.filledQty < x.qty := fun x hx => hroom x (by simp [hx])
      have hnn := roomOf_nonneg hos
      generalize ht : min (o.qty - o.filledQty) left = take
      generalize (if take = left then amtLeft else roundHalfEven (amtDelta * take) delta) = amt
      obtain ⟨ih1, ih2⟩ := @allocate_takes delta amtDelta (left - take) (amtLeft - amt) os (by omega) (by omega) hos
      refine ⟨fun s hs => ?_, ?_⟩
      · rcases List.mem_cons.1 hs with rfl | hs
        · exact ⟨by simp only; omega, by simp only; omega⟩
        · exact ih1 s hs
      · rw [List.map_cons, List.sum_cons, ih2]
        show take + (left - take) = left
        omega

/-- A share goes to a row of the key that was open when it was read. -/
theorem share_row {l : Ledger} {now : Time} {k : Key} {broker : Totals} {s : Share}
    (h : s ∈ (l.totalsPlan now k broker).shares) :
    (∃ r ∈ l.rowsOf k, r.id = s.order.id ∧ r.filledQty = s.order.filledQty ∧ r.qty = s.order.qty ∧
      (r.state ∈ fillableStates ∨ r.state = .unknown)) ∧
    0 < s.take ∧ s.take ≤ s.order.qty - s.order.filledQty := by
  obtain ⟨_, h0⟩ | ⟨base, r, _, hr, _, h0 | ⟨delta, amtDelta, _, hpos, hle, hsh⟩⟩ := totalsPlan_cases l now k broker
  · simp [h0] at h
  · simp [h0] at h
  · rw [hsh] at h
    have htake := @allocate_takes delta amtDelta delta amtDelta _ (by omega) hle fun o ho => (mem_openLiveOf.1 ho).2.2
    refine ⟨?_, htake.1 s h⟩
    have hmem : s.order ∈ openLiveOf r.live := allocate_orders.subset (List.mem_map_of_mem h)
    obtain ⟨hlive, hfill, _⟩ := mem_openLiveOf.1 hmem
    obtain ⟨hrow, _⟩ | ⟨u, hu, hust, heq⟩ := resolved_live hr hlive
    · exact ⟨s.order, hrow, rfl, rfl, rfl, .inl hfill⟩
    · exact ⟨u, hu, by rw [heq]; rfl, by rw [heq]; rfl, by rw [heq]; rfl, .inr hust⟩

theorem Wf.rowsOf_ids {l : Ledger} (h : Wf l) (k : Key) : ((l.rowsOf k).map (·.id)).Nodup := by
  rw [List.nodup_iff_pairwise_ne, List.pairwise_map]
  exact (h.sorted.imp fun hlt => by omega).sublist List.filter_sublist

theorem shares_ids {l : Ledger} (hw : Wf l) (now : Time) (k : Key) (broker : Totals) :
    ((l.totalsPlan now k broker).shares.map (·.order.id)).Nodup := by
  obtain ⟨_, h0⟩ | ⟨base, r, _, hr, _, h0 | ⟨delta, amtDelta, _, _, _, hsh⟩⟩ := totalsPlan_cases l now k broker
  · simp [h0]
  · simp [h0]
  · rw [hsh]
    have hsub := (@allocate_orders delta amtDelta delta amtDelta (openLiveOf r.live)).map (·.id)
    rw [List.map_map] at hsub
    refine List.Nodup.sublist hsub ?_
    exact (resolved_live_ids hr (hw.rowsOf_ids k)).sublist (List.filter_sublist.map _)

/-! ## `apply_notice` -/

theorem byOdno_some {l : Ledger} {date odno : String} {o : Order} (h : l.byOdno date odno = some o) :
    o ∈ l.orders ∧ o.tradeDate = date ∧ o.hasOdno odno = true := by
  have hp := List.find?_some h
  simp only [Bool.and_eq_true, beq_iff_eq] at hp
  exact ⟨List.mem_of_find?_eq_some h, hp⟩

/-- Either the notice is applied to a fillable row with room for it, or only an event is written. -/
theorem applyNotice_cases (l : Ledger) (now : Time) (date odno : String) (qty price : Int) (key : String) :
    (∃ o, l.byOdno date odno = some o ∧ (∀ n ∈ l.noticeFills, n.key ≠ key) ∧ o.state ∈ fillableStates ∧ 0 < qty ∧
      qty ≤ o.qty - o.filledQty ∧ l.applyNotice now date odno qty price key = (noticeStmts now o qty price key,
        .applied)) ∨
    ((l.applyNotice now date odno qty price key).2 ≠ .applied ∧
      ((l.applyNotice now date odno qty price key).1 = [] ∨
        ∃ e, (l.applyNotice now date odno qty price key).1 = [.insertEvent e])) := by
  unfold Ledger.applyNotice
  split
  · exact .inr ⟨by simp, .inl rfl⟩
  · rename_i hkey
    cases ho : l.byOdno date odno with
    | none => exact .inr ⟨by simp, .inr ⟨_, rfl⟩⟩
    | some o =>
      simp only
      split
      · rename_i ht
        simp only [Order.takesNotice, decide_eq_true_eq] at ht
        refine .inl ⟨o, rfl, fun n hn hk => hkey ?_, ht.1, ht.2.1, ht.2.2, rfl⟩
        exact List.any_eq_true.2 ⟨n, hn, by simpa using hk⟩
      · exact .inr ⟨by simp, .inr ⟨_, rfl⟩⟩

/-! ## `close_day` -/

theorem dayCloseOf_none {l : Ledger} {date : String} (h : l.dayCloseOf date = none) {row : DayClose}
    (hr : row ∈ l.dayClose) : row.tradeDate ≠ date := by
  intro he
  exact List.find?_eq_none.1 h row hr (by simpa using he)

/-- `close_day` writes only when the day is still open, nothing is unresolved and there is no break. -/
theorem closeDay_cases (l : Ledger) (now : Time) (date : String) (openBreaks : Nat) :
    (l.closeDay now date openBreaks).1 = [] ∨
    (l.dayCloseOf date = none ∧ unresolved (l.ordersOf date closeLimit) = [] ∧ openBreaks = 0 ∧
      (l.closeDay now date openBreaks).1 = expireStmts now (l.ordersOf date closeLimit) ++
        [.insertDayClose ⟨date, now, summarize (l.ordersOf date closeLimit)⟩,
         .insertEvent ⟨now, none, .dayClosed date (summarize (l.ordersOf date closeLimit))⟩]) := by
  unfold Ledger.closeDay
  cases hd : l.dayCloseOf date with
  | some row => exact .inl rfl
  | none =>
    simp only
    split
    · exact .inl rfl
    · split
      · exact .inl rfl
      · rename_i hu hb
        exact .inr ⟨trivial, by simpa using hu, by omega, rfl⟩

theorem mem_ordersOf {l : Ledger} {date : String} {n : Nat} {o : Order} (h : o ∈ l.ordersOf date n) :
    o ∈ l.orders ∧ o.tradeDate = date := by
  have := List.mem_of_mem_take h
  simpa using this

theorem expireStmts_stmt {now : Time} {rows : List Order} {s : Stmt} (h : s ∈ expireStmts now rows) :
    (∃ o ∈ rows, o.state ∈ fillableStates ∧ s = .setState o.id .expired now) ∨ ∃ e, s = .insertEvent e := by
  simp only [expireStmts, expirable, List.mem_flatMap, List.mem_filter, decide_eq_true_eq, List.mem_cons,
    List.not_mem_nil, or_false] at h
  obtain ⟨o, ⟨ho, hf⟩, rfl | rfl⟩ := h
  · exact .inl ⟨o, ho, hf, rfl⟩
  · exact .inr ⟨_, rfl⟩

/-! ## The kinds of statement an operation issues -/

theorem issues_of_mem {l : Ledger} {c : Call} {s : Stmt} (hs : s ∈ c.stmts l) : c.issues s = true := by
  cases c with
  | newOrder now cid k q p e =>
    obtain ⟨_, _, _, h, _⟩ | ⟨_, _, h⟩ := newOrder_cases l now cid k q p e
    · simp [Call.stmts, h] at hs
    · simp only [Call.stmts, h, List.mem_cons, List.not_mem_nil, or_false] at hs
      rcases hs with rfl | rfl <;> rfl
  | mark =>
    simp only [Call.stmts, markStmts, List.mem_cons, List.not_mem_nil, or_false] at hs
    rcases hs with rfl | rfl <;> rfl
  | recoverPending => obtain ⟨_, _, _, rfl⟩ | ⟨_, rfl⟩ := recoverPending_stmt hs <;> rfl
  | setTotalsBaseline =>
    simp only [Call.stmts, setTotalsBaselineStmts, List.mem_singleton] at hs
    subst hs; rfl
  | setHoldingsBaseline => exact setHoldingsBaseline_stmt hs
  | applyTotals =>
    rcases List.mem_append.1 hs with hs | hs
    · obtain ⟨_, _, _, _, rfl | rfl, rfl⟩ | ⟨_, rfl⟩ := resolved_stmt hs <;> rfl
    · obtain ⟨sh, _, hs⟩ := List.mem_flatMap.1 hs
      simp only [Share.stmts, List.mem_cons, List.not_mem_nil, or_false] at hs
      rcases hs with rfl | rfl | rfl <;> rfl
  | applyNotice now date odno qty price key =>
    obtain ⟨o, _, _, _, _, _, h⟩ | ⟨_, h | ⟨_, h⟩⟩ := applyNotice_cases l now date odno qty price key
    · simp only [Call.stmts, h, noticeStmts, List.mem_cons, List.not_mem_nil, or_false] at hs
      rcases hs with rfl | rfl | rfl | rfl <;> rfl
    · simp [Call.stmts, h] at hs
    · simp only [Call.stmts, h, List.mem_singleton] at hs
      subst hs; rfl
  | closeDay now date n =>
    obtain h | ⟨_, _, _, h⟩ := closeDay_cases l now date n
    · simp [Call.stmts, h] at hs
    · simp only [Call.stmts, h, List.mem_append, List.mem_cons, List.not_mem_nil, or_false] at hs
      rcases hs with hs | rfl | rfl
      · obtain ⟨_, _, _, rfl⟩ | ⟨_, rfl⟩ := expireStmts_stmt hs <;> rfl
      · rfl
      · rfl

/-- Only `new_order` inserts an order. -/
theorem stmt_isInsertOrder {l : Ledger} {c : Call} (hc : ∀ now cid k q p e, c ≠ .newOrder now cid k q p e) {s : Stmt}
    (hs : s ∈ c.stmts l) : s.isInsertOrder = false := by
  have hi := issues_of_mem hs
  cases s with
  | insertOrder =>
    cases c with
    | newOrder now cid k q p e => exact absurd rfl (hc now cid k q p e)
    | _ => cases hi
  | _ => rfl

end OrderLedger

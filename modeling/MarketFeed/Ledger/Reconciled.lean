import MarketFeed.Ledger.Counting
import MarketFeed.Ledger.Quantities
/-!
# A clean reconciliation (ledger.py:239-306)

`_apply_totals` compares three deltas: ordered quantity, executed quantity, executed amount. The amount delta
is looked at only where there is a quantity delta to book: with none the call returns before it.

| here | there |
| --- | --- |
| `Ledger.atBroker` | the orders in `live` once the UNKNOWN ones are resolved |
| `Agrees` | the sums over the live orders afterwards are the broker's deltas |
-/

namespace OrderLedger

open Script Lts Total

/-- Live, or UNKNOWN where the broker has more than the live orders. -/
def Ledger.atBroker (l : Ledger) (k : Key) (base broker : Totals) (o : Order) : Bool :=
  decide (o.state ∈ liveStates) || (decide (o.state = .unknown) && decide (0 < l.extra k base broker))

/-- The live orders of the key add up to the broker's totals since the baseline. -/
structure Agrees (l : Ledger) (k : Key) (base broker : Totals) : Prop where
  ordered : sumQty (liveOf (l.rowsOf k)) = broker.ordQty - base.ordQty
  executed : sumFilled (liveOf (l.rowsOf k)) = broker.ccldQty - base.ccldQty
  amount : sumAmt (liveOf (l.rowsOf k)) = broker.ccldAmt - base.ccldAmt

section

variable {l : Ledger} {now : Time} {k : Key} {base broker : Totals} {r : Resolved}

/-! ## The orders at the broker -/

theorem not_live_of_unknown {o : Order} (h : o.state = .unknown) : o.state ∉ liveStates := by
  simp [h, liveStates]

/-- The sums of the loop are over the rows at the broker. -/
theorem sum_resolved (hr : resolve now k (broker.ordQty - base.ordQty) broker.ordQty (l.rowsOf k) = .ok r)
    {q : Order → Int}
    (hq : ∀ o : Order, q o.accept = q o) : (r.live.map q).sum = total (l.atBroker k base broker) q (l.rowsOf k) := by
  obtain ⟨hpos, _, hl, _⟩ | ⟨hneg, hl, _⟩ := resolve_cases hr
  · have hextra : 0 < l.extra k base broker := hpos
    have haccept : ((unknownOf (l.rowsOf k)).map Order.accept).map q = (unknownOf (l.rowsOf k)).map q := by
      rw [List.map_map]
      exact List.map_congr_left fun o _ => hq o
    have hsplit := total_split (l.atBroker k base broker) (fun o => decide (o.state ∈ liveStates)) q (l.rowsOf k)
    have hlive : total (fun o => l.atBroker k base broker o && decide (o.state ∈ liveStates)) q (l.rowsOf k) =
        total (fun o => decide (o.state ∈ liveStates)) q (l.rowsOf k) := by
      refine total_congr fun o _ => ?_
      by_cases ho : o.state ∈ liveStates <;> simp [Ledger.atBroker, ho]
    have hunk : total (fun o => l.atBroker k base broker o && !decide (o.state ∈ liveStates)) q (l.rowsOf k) =
        total (fun o => decide (o.state = .unknown)) q (l.rowsOf k) := by
      refine total_congr fun o _ => ?_
      by_cases ho : o.state = .unknown
      · simp [Ledger.atBroker, ho, hextra, liveStates]
      · simp [Ledger.atBroker, ho]
    rw [hl, ((sortById_perm _).map q).sum_eq, List.map_append, List.sum_append, haccept, hsplit, hlive, hunk]
    rfl
  · have hextra : ¬ 0 < l.extra k base broker := Int.not_lt.2 hneg
    rw [hl]
    have hsame : total (l.atBroker k base broker) q (l.rowsOf k) = total (fun o => decide (o.state ∈ liveStates)) q
        (l.rowsOf k) := by
      refine total_congr fun o _ => ?_
      simp [Ledger.atBroker, hextra]
    rw [hsame]
    rfl

/-- A row of the loop is a row at the broker. -/
theorem row_of_resolved (hr : resolve now k (broker.ordQty - base.ordQty) broker.ordQty (l.rowsOf k) = .ok r)
    {o : Order} (ho : o ∈ r.live) :
    ∃ u ∈ l.rowsOf k, u.id = o.id ∧ l.atBroker k base broker u = true := by
  obtain ⟨hrow, hlive⟩ | ⟨u, hu, hust, rfl⟩ := resolved_live hr ho
  · exact ⟨o, hrow, rfl, by simp [Ledger.atBroker, hlive]⟩
  · obtain ⟨hpos, _, _, _⟩ | ⟨_, hl, _⟩ := resolve_cases hr
    · have hextra : 0 < l.extra k base broker := hpos
      exact ⟨u, hu, rfl, by simp [Ledger.atBroker, hust, hextra]⟩
    · -- nothing is accepted here: the row read was live itself
      rw [hl] at ho
      obtain ⟨hrow, hlive⟩ := mem_liveOf.1 ho
      exact ⟨_, hrow, rfl, by simp [Ledger.atBroker, hlive]⟩

/-- Afterwards the live rows are those at the broker. -/
theorem live_after_iff (hw : Wf l) (hb : l.baseline k = some base)
    (hr : resolve now k (broker.ordQty - base.ordQty) broker.ordQty (l.rowsOf k) = .ok r)
    {o : Order} (ho : o ∈ l.rowsOf k) :
    (rowAfter (l.applyTotalsStmts now k broker) o).state ∈ liveStates ↔ l.atBroker k base broker o = true := by
  have hown : ∀ x ∈ l.rowsOf k, x.id = o.id → x = o := fun x hx hid =>
    hw.eq_of_id (mem_rowsOf.1 hx).1 (mem_rowsOf.1 ho).1 hid
  obtain ⟨hno, hsame⟩ | ⟨s, hs, hset⟩ := rowAfter_cases (l.applyTotalsStmts now k broker) o
  · rw [hsame]
    constructor
    · intro hlive
      simp [Ledger.atBroker, hlive]
    · intro hat
      by_contra hlive
      -- an UNKNOWN row that the broker has is given a state
      obtain ⟨hunk, hpos⟩ : o.state = .unknown ∧
          0 < l.extra k base broker := by simpa [Ledger.atBroker, hlive] using hat
      obtain ⟨_, _, _, hst⟩ | ⟨hneg, _, _⟩ := resolve_cases hr
      · have hmem : Stmt.setState o.id .accepted now ∈ l.applyTotalsStmts now k broker := by
          refine List.mem_append_left _ ?_
          simp only [Ledger.totalsPlan, hb, hr, hst]
          exact List.mem_flatMap.2 ⟨o, mem_unknownOf.2 ⟨ho, hunk⟩, by simp⟩
        exact hno _ hmem rfl
      · exact absurd hpos (Int.not_lt.2 hneg)
  · obtain ⟨x, hx, hid, hcase⟩ := applyTotals_sets hb hs hset
    obtain rfl := hown x hx hid
    rcases hcase with ⟨hfill, hlive⟩ | ⟨hunk, hpos, hlive⟩ | ⟨hunk, hneg, hst⟩
    · exact iff_of_true hlive (by simp [Ledger.atBroker, live_of_fillable hfill])
    · exact iff_of_true hlive (by simp [Ledger.atBroker, hunk, hpos])
    · refine iff_of_false (by simp [hst, liveStates]) ?_
      simp [Ledger.atBroker, not_live_of_unknown hunk, Int.not_lt.2 hneg]

/-! ## The shares -/

/-- The amounts of the shares are the whole amount delta. -/
theorem allocate_amts {delta amtDelta : Int} :
    ∀ {left amtLeft : Int} {os : List Order}, 0 < left → left ≤ roomOf os →
      ((allocate delta amtDelta left amtLeft os).map (·.amt)).sum = amtLeft
  | left, amtLeft, [], h0, hle => by
    simp only [roomOf, List.map_nil, List.sum_nil] at hle
    omega
  | left, amtLeft, o :: os, h0, hle => by
    rw [roomOf_cons] at hle
    have hne : left ≠ 0 := by omega
    simp only [allocate, if_neg hne, List.map_cons, List.sum_cons]
    by_cases htake : min (o.qty - o.filledQty) left = left
    · rw [if_pos htake, htake, Int.sub_self]
      cases os <;> simp [allocate]
    · rw [if_neg htake]
      have ih := @allocate_amts delta amtDelta (left - min (o.qty - o.filledQty) left)
        (amtLeft - roundHalfEven (amtDelta * min (o.qty - o.filledQty) left) delta) os (by omega) (by omega)
      rw [ih]
      omega

def Share.fill (now : Time) (s : Share) : Fill := ⟨s.order.id, s.take, s.amt, .dayTotals, now⟩

theorem fills_applyTotals (l : Ledger) (now : Time) (k : Key) (broker : Totals) :
    (l.applyTotalsStmts now k broker).flatMap Stmt.fills = (l.totalsPlan now k broker).shares.map (Share.fill now) := by
  rw [Ledger.applyTotalsStmts, List.flatMap_append, fills_of_resolved, List.nil_append]
  induction (l.totalsPlan now k broker).shares with
  | nil => rfl
  | cons s ss ih =>
    rw [List.flatMap_cons, List.flatMap_append, ih]
    rfl

/-- Every fill is booked on a row at the broker. -/
theorem sum_booked (hw : Wf l) (hb : l.baseline k = some base) (q : Fill → Int) :
    total (l.atBroker k base broker)
        (fun o => total (fun f : Fill => f.orderId == o.id) q ((l.applyTotalsStmts now k broker).flatMap Stmt.fills))
        (l.rowsOf k) =
      ((l.totalsPlan now k broker).shares.map fun s => q (s.fill now)).sum := by
  have hown := @total_owned Order Fill Nat _ (·.id) (·.orderId) (l.atBroker k base broker) (fun _ => true)
    (fun _ => 1) (fun _ => 1) q
    (l.rowsOf k) (hw.rowsOf_ids k) ((l.applyTotalsStmts now k broker).flatMap Stmt.fills) ?_
  · simp only [Int.one_mul] at hown
    have hall : total (fun _ => true) q ((l.applyTotalsStmts now k broker).flatMap Stmt.fills) =
        ((l.totalsPlan now k broker).shares.map fun s => q (s.fill now)).sum := by
      rw [fills_applyTotals]
      simp [total, Function.comp_def]
    rw [← hall, ← hown]
    congr 1
  · intro f hf
    rw [fills_applyTotals] at hf
    obtain ⟨s, hs, rfl⟩ := List.mem_map.1 hf
    obtain ⟨_, h0⟩ | ⟨base', r', hb', hr', _, h0 | ⟨_, _, _, _, _, hsh⟩⟩ := totalsPlan_cases l now k broker
    · simp [h0] at hs
    · simp [h0] at hs
    · obtain rfl : base = base' := Option.some.inj (hb.symm.trans hb')
      rw [hsh] at hs
      obtain ⟨hlive, _⟩ := mem_openLiveOf.1 (allocate_orders.subset (List.mem_map_of_mem hs))
      obtain ⟨u, hu, hid, hat⟩ := row_of_resolved hr' hlive
      exact ⟨u, hu, hid, hat, rfl⟩

/-! ## The sums afterwards -/

theorem rowsOf_applyTotals (l : Ledger) (now : Time) (k : Key) (broker : Totals) :
    (l.call (.applyTotals now k broker)).rowsOf k = (l.rowsOf k).map (rowAfter (l.applyTotalsStmts now k broker)) := by
  have hno : ∀ s ∈ l.applyTotalsStmts now k broker, s.isInsertOrder = false := fun s hs =>
    @stmt_isInsertOrder l (.applyTotals now k broker) (by simp) s hs
  unfold Ledger.rowsOf Ledger.call
  rw [Call.stmts, execAll_orders hno, List.filter_map]
  congr 1
  exact List.filter_congr fun o _ => by simp

/-- A sum over the live rows afterwards, in terms of the rows before. -/
theorem sum_live_after (hw : Wf l) (hb : l.baseline k = some base)
    (hr : resolve now k (broker.ordQty - base.ordQty) broker.ordQty (l.rowsOf k) = .ok r) {q q' : Order → Int}
    (hq : ∀ o ∈ l.rowsOf k, q (rowAfter (l.applyTotalsStmts now k broker) o) = q' o) :
    ((liveOf ((l.call (.applyTotals now k broker)).rowsOf k)).map q).sum = total (l.atBroker k base broker) q'
      (l.rowsOf k) := by
  rw [rowsOf_applyTotals, liveOf, List.filter_map, List.map_map]
  have hfilter : (l.rowsOf k).filter
      ((fun o => decide (o.state ∈ liveStates)) ∘ rowAfter (l.applyTotalsStmts now k broker)) =
      (l.rowsOf k).filter (l.atBroker k base broker) := by
    refine List.filter_congr fun o ho => ?_
    have := live_after_iff hw hb hr ho
    by_cases hat : l.atBroker k base broker o = true
    · simp [hat, this.2 hat]
    · have hfalse : l.atBroker k base broker o = false := by simpa using hat
      simp [hfalse, mt this.1 hat]
  rw [hfilter, total]
  exact congrArg List.sum (List.map_congr_left fun o ho => hq o (List.mem_filter.1 ho).1)

theorem balancedOn_applyTotals (hw : Wf l) (now : Time) (broker : Totals) {o : Order} (ho : o ∈ l.rowsOf k) :
    BalancedOn (l.applyTotalsStmts now k broker) o := by
  have h := @call_balancedOn l hw (.applyTotals now k broker) ((Call.applyTotals now k broker).stmts l).length
    (by rw [List.take_length]; exact call_endsPaired l _) o (mem_rowsOf.1 ho).1
  rw [List.take_length] at h
  exact h

/-- **The sums of the live orders after the call**: those of the loop, and what the shares add. -/
theorem sums_after (hw : Wf l) (hb : l.baseline k = some base)
    (hr : resolve now k (broker.ordQty - base.ordQty) broker.ordQty (l.rowsOf k) = .ok r) :
    let live' := liveOf ((l.call (.applyTotals now k broker)).rowsOf k)
    let shares := (l.totalsPlan now k broker).shares
    sumQty live' = sumQty r.live ∧ sumFilled live' = sumFilled r.live + (shares.map (·.take)).sum ∧
      sumAmt live' = sumAmt r.live + (shares.map (·.amt)).sum := by
  refine ⟨?_, ?_, ?_⟩
  · rw [sumQty, sumQty, sum_resolved hr fun _ => rfl]
    exact sum_live_after hw hb hr fun o _ => rowAfter_qty _ o
  · rw [sumFilled, sumFilled, sum_resolved hr fun _ => rfl, sum_live_after hw hb hr fun o ho =>
      (balancedOn_applyTotals hw now broker ho).1,
      total_add]
    exact congrArg (_ + ·) (sum_booked hw hb (·.qty))
  · rw [sumAmt, sumAmt, sum_resolved hr fun _ => rfl, sum_live_after hw hb hr fun o ho =>
      (balancedOn_applyTotals hw now broker ho).2,
      total_add]
    exact congrArg (_ + ·) (sum_booked hw hb (·.amt))

/-! ## A call that returns no break -/

theorem recentNotices_eq_zero (h : ∀ n ∈ l.noticeFills, n.ts ≤ now - noticeGrace) (live : List Order) :
    l.recentNotices now live = 0 := by
  have hnone : l.noticeFills.filter (fun n => decide (now - noticeGrace < n.ts ∧ n.orderId ∈ live.map (·.id))) =
      [] := by
    rw [List.filter_eq_nil_iff]
    intro n hn
    simp [Int.not_lt.2 (h n hn)]
  rw [Ledger.recentNotices, hnone]
  rfl

theorem totalsPlan_eq (hb : l.baseline k = some base)
    (hr : resolve now k (broker.ordQty - base.ordQty) broker.ordQty (l.rowsOf k) = .ok r) :
    l.totalsPlan now k broker = ⟨r.stmts,
      (l.attribute now k (broker.ccldQty - base.ccldQty) (broker.ccldAmt - base.ccldAmt) r.live).1,
      r.breaks ++ (l.attribute now k (broker.ccldQty - base.ccldQty) (broker.ccldAmt - base.ccldAmt) r.live).2⟩ := by
  simp only [Ledger.totalsPlan, hb, hr]

theorem resolve_error {bOrd q : Int} {rows : List Order} {breaks : List Break}
    (h : resolve now k bOrd q rows = .error breaks) :
    breaks ≠ [] := by
  unfold resolve at h
  simp only at h
  split at h
  · split at h
    · cases h
    · cases h
      exact List.cons_ne_nil _ _
  · cases h

/-- Without a break the live orders are what the broker has. -/
theorem resolve_clean {bOrd q : Int} {rows : List Order} (h : resolve now k bOrd q rows = .ok r)
    (hclean : r.breaks = []) :
    sumQty r.live = bOrd := by
  unfold resolve at h
  simp only at h
  split at h
  · split at h
    · rename_i hunk
      cases h
      have hsum : sumQty (sortById (liveOf rows ++ (unknownOf rows).map Order.accept)) = sumQty (liveOf rows) +
          sumQty (unknownOf rows) := by
        rw [sumQty, ((sortById_perm _).map _).sum_eq, List.map_append, List.sum_append, List.map_map]
        rfl
      show sumQty (sortById _) = _
      rw [hsum, hunk.2]
      omega
    · cases h
  · cases h
    have hnot : ¬ bOrd - sumQty (liveOf rows) < 0 := by
      intro hneg
      rw [if_pos hneg] at hclean
      cases hclean
    show sumQty (liveOf rows) = _
    omega

/-- The executed delta is below nothing, nothing, too much for the open orders, or booked. -/
theorem attribute_cases (l : Ledger) (now : Time) (k : Key) (bFill bAmt : Int) (live : List Order) :
    (bFill < sumFilled live ∧ (l.attribute now k bFill bAmt live).1 = [] ∧
      ((l.attribute now k bFill bAmt live).2 = [] → sumFilled live - bFill ≤ l.recentNotices now live)) ∨
    (bFill = sumFilled live ∧ l.attribute now k bFill bAmt live = ([], [])) ∨
    (roomOf (openLiveOf live) < bFill - sumFilled live ∧ (l.attribute now k bFill bAmt live).1 = [] ∧
      (l.attribute now k bFill bAmt live).2 ≠ []) ∨
    (0 < bFill - sumFilled live ∧ bFill - sumFilled live ≤ roomOf (openLiveOf live) ∧
      l.attribute now k bFill bAmt live =
        (allocate (bFill - sumFilled live) (bAmt - sumAmt live) (bFill - sumFilled live) (bAmt - sumAmt live)
        (openLiveOf live), [])) := by
  unfold Ledger.attribute
  simp only
  split
  · left
    split
    · exact ⟨by omega, rfl, fun _ => by omega⟩
    · exact ⟨by omega, rfl, nofun⟩
  · split
    · exact .inr (.inl ⟨by omega, rfl⟩)
    · split
      · exact .inr (.inr (.inl ⟨‹_›, rfl, nofun⟩))
      · exact .inr (.inr (.inr ⟨by omega, by omega, rfl⟩))

/-- Without a break and without recent notices the ordered quantities agree, and the executed delta is nothing or is
booked. -/
theorem clean_cases (hclean : l.applyTotalsBreaks now k broker = [])
    (hnotice : ∀ n ∈ l.noticeFills, n.ts ≤ now - noticeGrace) :
    ∃ base r, l.baseline k = some base ∧
      resolve now k (broker.ordQty - base.ordQty) broker.ordQty (l.rowsOf k) = .ok r ∧
      sumQty r.live = broker.ordQty - base.ordQty ∧
      ((broker.ccldQty - base.ccldQty = sumFilled r.live ∧ (l.totalsPlan now k broker).shares = []) ∨
        (0 < broker.ccldQty - base.ccldQty - sumFilled r.live ∧
          ((l.totalsPlan now k broker).shares.map (·.take)).sum = broker.ccldQty - base.ccldQty - sumFilled r.live ∧
          ((l.totalsPlan now k broker).shares.map (·.amt)).sum = broker.ccldAmt - base.ccldAmt - sumAmt r.live)) := by
  unfold Ledger.applyTotalsBreaks at hclean
  cases hb : l.baseline k with
  | none => simp [Ledger.totalsPlan, hb] at hclean
  | some base =>
    cases hr : resolve now k (broker.ordQty - base.ordQty) broker.ordQty (l.rowsOf k) with
    | error breaks =>
      simp only [Ledger.totalsPlan, hb, hr] at hclean
      exact absurd hclean (resolve_error hr)
    | ok r =>
      rw [totalsPlan_eq hb hr] at hclean ⊢
      obtain ⟨hord, hattr⟩ := List.append_eq_nil_iff.1 hclean
      refine ⟨base, r, rfl, hr, resolve_clean hr hord, ?_⟩
      rcases attribute_cases l now k (broker.ccldQty - base.ccldQty) (broker.ccldAmt - base.ccldAmt) r.live with
        ⟨hneg, _, hwait⟩ | ⟨hzero, hnone⟩ | ⟨_, _, hbreak⟩ | ⟨hpos, hroom, hbooked⟩
      · have hrecent := hwait hattr
        rw [recentNotices_eq_zero hnotice] at hrecent
        omega
      · exact .inl ⟨hzero, by rw [hnone]⟩
      · exact absurd hattr hbreak
      · right
        rw [hbooked]
        exact ⟨hpos, (allocate_takes (by omega) hroom fun o ho => (mem_openLiveOf.1 ho).2.2).2,
          allocate_amts hpos hroom⟩

end

/-! ## Runs -/

/-- What the broker's day totals are when they leave out nothing. -/
def Venue.trueTotals (st : Venue) (k : Key) : Totals where
  ordQty := total (·.key == k) (·.qty) st.book
  ccldQty := total (·.order.key == k) (·.qty) st.execs
  ccldAmt := total (·.order.key == k) (fun e => e.qty * e.price) st.execs

def buysOfDay : Key := ⟨"20260720", "005930", .buy⟩

/-- One share is executed at 100 and booked from the totals, and then once more by its notice; another is executed at
200. -/
def twoSharesOneTwice : List VenueAct :=
  oneShareExecuted ++ [oneShareTotals 2, oneShareNotice 3 "0000000101",
    .execute ⟨buysOfDay, "0000000101", 3, some "c1"⟩ 1 200 "100001"]

end OrderLedger

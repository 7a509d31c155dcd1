import MarketFeed.Ledger.Reconciled
/-!
# Orders whose outcome is not known (ledger.py:239-306, rule 2)

`_apply_totals` never sees which orders the broker has: it sees how many shares were ordered and executed
since the baseline. `Account` is what stands behind those sums, order by order. Where the verdicts already in
the ledger are true to it (`Account.Settled`), the sums tell apart the one open order from the others, and
every row ends as the account says.

| here | there |
| --- | --- |
| `Account.Due` | the row that takes the executed delta |
| `rowAfter_setStates` | `_set_state` and its event, for each UNKNOWN row (:258-273) |
-/

namespace OrderLedger

open Script Lts Total

/-- The broker's side of a key: which of the ledger's orders it has, what of each is executed. The totals are
sums over these orders: they are true and current, and nobody else orders. -/
structure Account (l : Ledger) (k : Key) (base broker : Totals) where
  has : Order → Bool
  executed : Order → Int
  ordered_eq : broker.ordQty - base.ordQty = total has (·.qty) (l.rowsOf k)
  executed_eq : broker.ccldQty - base.ccldQty = total has executed (l.rowsOf k)
  executed_le : ∀ o ∈ l.rowsOf k, executed o ≤ o.qty

/-- The verdicts of the ledger so far are right. -/
structure Account.Settled {l : Ledger} {k : Key} {base broker : Totals} (acc : Account l k base broker) : Prop where
  live : ∀ o ∈ l.rowsOf k, o.state ∈ liveStates → acc.has o = true
  gone : ∀ o ∈ l.rowsOf k, o.state = .rejected ∨ o.state = .notSent → acc.has o = false
  booked : ∀ o ∈ l.rowsOf k, o.isOpen = false → acc.has o = true → o.filledQty = acc.executed o

/-- The broker has executed more of it than is booked. -/
def Account.Due {l : Ledger} {k : Key} {base broker : Totals} (acc : Account l k base broker) (o : Order) : Prop :=
  acc.has o = true ∧ o.unsettled ∧ o.filledQty < acc.executed o

section

variable {l : Ledger} {now : Time} {k : Key} {base broker : Totals} {acc : Account l k base broker}
  {r : Resolved} {t : Order}

theorem eq_of_open (ho : OneOpen l) {a b : Order} (ha : a ∈ l.rowsOf k) (hb : b ∈ l.rowsOf k) (hao : a.isOpen = true)
    (hbo : b.isOpen = true) : a = b := by
  obtain ⟨ha, hak⟩ := mem_rowsOf.1 ha
  obtain ⟨hb, hbk⟩ := mem_rowsOf.1 hb
  exact ho a ha b hb (hak.trans hbk.symm) hao hbo

/-- A sum over open rows is the one open row's. -/
theorem total_open (hw : Wf l) (ho : OneOpen l) (ht : t ∈ l.rowsOf k) (hto : t.isOpen = true)
    {p : Order → Bool} {q : Order → Int}
    (hp : ∀ o ∈ l.rowsOf k, p o = true → o.isOpen = true) : total p q (l.rowsOf k) = if p t then q t else 0 := by
  have hone : ∀ o ∈ l.rowsOf k, p o = true → q o = if t.id = o.id then q o else 0 := by
    intro o hmem hpo
    rw [eq_of_open ho ht hmem hto (hp o hmem hpo), if_pos rfl]
  rw [total_congr_on hone]
  exact total_single (hw.rowsOf_ids k) ht

/-! ## The ordered quantity -/

/-- What the broker has and the live rows have not. -/
theorem extra_eq (hs : acc.Settled) :
    l.extra k base broker = total (fun o => acc.has o && !decide (o.state ∈ liveStates)) (·.qty) (l.rowsOf k) := by
  have hlive : total (fun o => acc.has o && decide (o.state ∈ liveStates)) (·.qty)
      (l.rowsOf k) = sumQty (liveOf (l.rowsOf k)) := by
    refine total_congr fun o ho => ?_
    by_cases hst : o.state ∈ liveStates
    · simp [hst, hs.live o ho hst]
    · simp [hst]
  rw [Ledger.extra, acc.ordered_eq, total_split acc.has (fun o => decide (o.state ∈ liveStates))]
  omega

theorem open_of_has (hs : acc.Settled) {o : Order} (ho : o ∈ l.rowsOf k) (hh : acc.has o = true)
    (hl : o.state ∉ liveStates) :
    o.isOpen = true := by
  have hgone := hs.gone o ho
  cases hst : o.state <;> simp [hst, liveStates, hh, Order.isOpen, openStates] at hl hgone ⊢

/-- An open row that is not live is what the extra quantity is about. -/
theorem extra_of_open (hw : Wf l) (ho : OneOpen l) (hs : acc.Settled) (ht : t ∈ l.rowsOf k) (hto : t.isOpen = true)
    (hl : t.state ∉ liveStates) : l.extra k base broker = if acc.has t then t.qty else 0 := by
  rw [extra_eq hs, total_open hw ho ht hto]
  · simp [hl]
  · intro o hmem hp
    simp only [Bool.and_eq_true, Bool.not_eq_true', decide_eq_false_iff_not] at hp
    exact open_of_has hs hmem hp.1 hp.2

theorem extra_of_fillable (ho : OneOpen l) (hs : acc.Settled) (ht : t ∈ l.rowsOf k) (hf : t.state ∈ fillableStates) :
    l.extra k base broker = 0 := by
  rw [extra_eq hs]
  refine total_eq_zero fun o hmem => ?_
  by_contra hne
  simp only [Bool.not_eq_false, Bool.and_eq_true, Bool.not_eq_true', decide_eq_false_iff_not] at hne
  have heq := eq_of_open ho hmem ht (open_of_has hs hmem hne.1 hne.2) (isOpen_of_fillable hf)
  exact hne.2 (heq ▸ live_of_fillable hf)

theorem sum_unknown (hw : Wf l) (ho : OneOpen l) (ht : t ∈ l.rowsOf k) (hto : t.isOpen = true) :
    sumQty (unknownOf (l.rowsOf k)) = if t.state = .unknown then t.qty else 0 := by
  have h := @total_open l k t hw ho ht hto (fun o => decide (o.state = .unknown)) (·.qty) fun o _ hu => by
    exact isOpen_of_unknown (by simpa using hu)
  have hsum : sumQty (unknownOf (l.rowsOf k)) = total (fun o => decide (o.state = .unknown)) (·.qty) (l.rowsOf k) := rfl
  rw [hsum, h]
  simp

/-- With an order that may take fills, or one that is UNKNOWN, the totals are explained. -/
theorem resolve_unsettled (hw : Wf l) (ho : OneOpen l) (hs : acc.Settled) (ht : t ∈ l.rowsOf k) (hu : t.unsettled) :
    ∃ r, resolve now k (broker.ordQty - base.ordQty) broker.ordQty (l.rowsOf k) = .ok r := by
  have hextra : l.extra k base broker ≤ 0 ∨ (t.state = .unknown ∧ l.extra k base broker = t.qty) := by
    rcases hu with hf | hu
    · exact .inl (Int.le_of_eq (extra_of_fillable ho hs ht hf))
    · have h := extra_of_open hw ho hs ht (isOpen_of_unknown hu) (not_live_of_unknown hu)
      split at h
      · exact .inr ⟨hu, h⟩
      · exact .inl (Int.le_of_eq h)
  simp only [Ledger.extra] at hextra
  simp only [resolve]
  split
  · rename_i hpos
    obtain ⟨hunk, hqty⟩ : t.state = .unknown ∧ broker.ordQty - base.ordQty - sumQty (liveOf (l.rowsOf k)) = t.qty := by
      rcases hextra with hle | h
      · omega
      · exact h
    have hne : unknownOf (l.rowsOf k) ≠ [] := List.ne_nil_of_mem (mem_unknownOf.2 ⟨ht, hunk⟩)
    have hsum := sum_unknown hw ho ht (isOpen_of_unknown hunk)
    rw [if_pos hunk] at hsum
    rw [if_pos ⟨hne, by omega⟩]
    exact ⟨_, rfl⟩
  · exact ⟨_, rfl⟩

/-- The rows the call takes to be at the broker are at the broker. -/
theorem atBroker_eq (hw : Wf l) (ho : OneOpen l) (hq : ∀ o ∈ l.orders, 0 < o.qty) (hs : acc.Settled)
    (hr : resolve now k (broker.ordQty - base.ordQty) broker.ordQty (l.rowsOf k) = .ok r)
    {o : Order} (hmem : o ∈ l.rowsOf k) :
    l.atBroker k base broker o = acc.has o := by
  have hpos := hq o (mem_rowsOf.1 hmem).1
  by_cases hl : o.state ∈ liveStates
  · simp [Ledger.atBroker, hl, hs.live o hmem hl]
  by_cases hh : acc.has o = true
  · have hopen := open_of_has hs hmem hh hl
    have hextra := extra_of_open hw ho hs hmem hopen hl
    rw [if_pos hh] at hextra
    -- a pending order at the broker stops the call
    have hunk : o.state = .unknown := by
      by_contra hne
      have hsum := sum_unknown hw ho hmem hopen
      rw [if_neg hne] at hsum
      simp only [Ledger.extra] at hextra
      obtain ⟨_, hsum', _⟩ | ⟨hneg, _⟩ := resolve_cases hr <;> omega
    simp [Ledger.atBroker, hunk, hh, hextra, hpos]
  · rw [Bool.not_eq_true] at hh
    by_cases hunk : o.state = .unknown
    · have hextra := extra_of_open hw ho hs hmem (isOpen_of_unknown hunk) hl
      simp [Ledger.atBroker, hl, hh, hextra]
    · simp [Ledger.atBroker, hl, hunk, hh]

/-- The sums of the call are over the orders at the broker. -/
theorem sum_has (hw : Wf l) (ho : OneOpen l) (hq : ∀ o ∈ l.orders, 0 < o.qty) (hs : acc.Settled)
    (hr : resolve now k (broker.ordQty - base.ordQty) broker.ordQty (l.rowsOf k) = .ok r)
    {q : Order → Int} (hacc : ∀ o : Order, q o.accept = q o) :
    (r.live.map q).sum = total acc.has q (l.rowsOf k) := by
  rw [sum_resolved hr hacc]
  exact total_congr fun o hmem => atBroker_eq hw ho hq hs hr hmem

/-! ## The executed quantity -/

/-- The executed delta of the call is the open order's. -/
theorem delta_eq (hw : Wf l) (ho : OneOpen l) (hq : ∀ o ∈ l.orders, 0 < o.qty) (hs : acc.Settled)
    (hr : resolve now k (broker.ordQty - base.ordQty) broker.ordQty (l.rowsOf k) = .ok r) (ht : t ∈ l.rowsOf k)
    (hto : t.isOpen = true) :
    broker.ccldQty - base.ccldQty - sumFilled r.live = if acc.has t then acc.executed t - t.filledQty else 0 := by
  have hfilled : sumFilled r.live = total acc.has (·.filledQty) (l.rowsOf k) := sum_has hw ho hq hs hr fun _ => rfl
  have hsplit := @total_add Order acc.has (·.filledQty) (fun o => acc.executed o - o.filledQty) (l.rowsOf k)
  have hsame : total acc.has (fun o => o.filledQty + (acc.executed o - o.filledQty))
      (l.rowsOf k) = total acc.has acc.executed (l.rowsOf k) :=
    total_congr_on fun o _ _ => by omega
  have hopen := total_split acc.has (·.isOpen) (fun o => acc.executed o - o.filledQty) (l.rowsOf k)
  -- the closed rows have nothing to add
  have hclosed : total (fun o => acc.has o && !o.isOpen) (fun o => acc.executed o - o.filledQty) (l.rowsOf k) = 0 := by
    rw [@total_congr_on Order Int _ _ _ (fun _ => 0)]
    · exact total_zero fun _ _ => rfl
    · intro o hmem hp
      simp only [Bool.and_eq_true, Bool.not_eq_true'] at hp
      rw [hs.booked o hmem hp.2 hp.1]
      omega
  have hone := @total_open l k t hw ho ht hto (fun o => acc.has o && o.isOpen)
      (fun o => acc.executed o - o.filledQty) fun o _ hp => by
    simp only [Bool.and_eq_true] at hp
    exact hp.2
  simp only [hto, Bool.and_true] at hone
  rw [acc.executed_eq]
  omega

/-- Only a row that is due takes a share. -/
theorem share_due (hw : Wf l) (ho : OneOpen l) (hq : ∀ o ∈ l.orders, 0 < o.qty) (hs : acc.Settled)
    (hb : l.baseline k = some base)
    {s : Share} (hsh : s ∈ (l.totalsPlan now k broker).shares) : ∃ u ∈ l.rowsOf k, u.id = s.order.id ∧ acc.Due u := by
  obtain ⟨⟨u, hu, hid, _, _, hst⟩, _⟩ := share_row hsh
  obtain ⟨_, h0⟩ | ⟨base', r, hb', hr, _, h0 | ⟨delta, _, hdelta, hpos, _, _⟩⟩ := totalsPlan_cases l now k broker
  · simp [h0] at hsh
  · simp [h0] at hsh
  · obtain rfl : base = base' := Option.some.inj (hb.symm.trans hb')
    have hd := delta_eq hw ho hq hs hr hu (isOpen_of_unsettled hst)
    refine ⟨u, hu, hid, ?_⟩
    split at hd
    · exact ⟨‹_›, hst, by omega⟩
    · omega

/-- The row that is due is among those that may take fills, accepted if it was UNKNOWN. -/
theorem openLive_of_due (hw : Wf l) (ho : OneOpen l) (hq : ∀ o ∈ l.orders, 0 < o.qty) (hs : acc.Settled)
    (hr : resolve now k (broker.ordQty - base.ordQty) broker.ordQty (l.rowsOf k) = .ok r) (ht : t ∈ l.rowsOf k)
    (hdue : acc.Due t) :
    ∃ o ∈ openLiveOf r.live, o.id = t.id := by
  obtain ⟨hhas, hst, hlt⟩ := hdue
  have hto := isOpen_of_unsettled hst
  have hle := acc.executed_le t ht
  rcases hst with hf | hu
  · have hlive : t ∈ liveOf (l.rowsOf k) := mem_liveOf.2 ⟨ht, live_of_fillable hf⟩
    refine ⟨t, mem_openLiveOf.2 ⟨?_, hf, by omega⟩, rfl⟩
    obtain ⟨_, _, hl, _⟩ | ⟨_, hl, _⟩ := resolve_cases hr
    · rw [hl, (sortById_perm _).mem_iff]
      exact List.mem_append_left _ hlive
    · rwa [hl]
  · have hextra := extra_of_open hw ho hs ht hto (not_live_of_unknown hu)
    rw [if_pos hhas] at hextra
    have hqty := hq t (mem_rowsOf.1 ht).1
    refine ⟨t.accept, mem_openLiveOf.2 ⟨?_, by simp [Order.accept, fillableStates], ?_⟩, rfl⟩
    · obtain ⟨_, _, hl, _⟩ | ⟨hneg, _, _⟩ := resolve_cases hr
      · rw [hl, (sortById_perm _).mem_iff]
        exact List.mem_append_right _ (List.mem_map_of_mem (mem_unknownOf.2 ⟨ht, hu⟩))
      · simp only [Ledger.extra] at hextra
        omega
    · show t.filledQty < t.qty
      omega

/-- The row that is due takes the whole delta. -/
theorem shares_due (hw : Wf l) (ho : OneOpen l) (hq : ∀ o ∈ l.orders, 0 < o.qty) (hs : acc.Settled)
    (hb : l.baseline k = some base)
    (ht : t ∈ l.rowsOf k) (hdue : acc.Due t) : ∃ o, o.id = t.id ∧ o.filledQty = t.filledQty ∧ o.qty = t.qty ∧
      (l.totalsPlan now k broker).shares = [⟨o, acc.executed t - t.filledQty,
        broker.ccldAmt - base.ccldAmt - total acc.has (·.filledAmt) (l.rowsOf k)⟩] := by
  obtain ⟨hhas, hst, hlt⟩ := hdue
  have hto := isOpen_of_unsettled hst
  obtain ⟨r, hr⟩ := @resolve_unsettled l now k base broker acc t hw ho hs ht hst
  have hdelta := delta_eq hw ho hq hs hr ht hto
  rw [if_pos hhas] at hdelta
  have hamt : sumAmt r.live = total acc.has (·.filledAmt) (l.rowsOf k) := sum_has hw ho hq hs hr fun _ => rfl
  have hle := acc.executed_le t ht
  have hmem := openLive_of_due hw ho hq hs hr ht ⟨hhas, hst, hlt⟩
  obtain hnil | ⟨t', o, hfind, hopen, hid, hfill, hqty, _⟩ := openLive_eq hw ho hr
  · obtain ⟨o, hmem, _⟩ := hmem
    simp [hnil] at hmem
  obtain ⟨ht', hk', hto'⟩ := openOrder_some hfind
  obtain rfl : t' = t := eq_of_open ho (mem_rowsOf.2 ⟨ht', hk'⟩) ht hto' hto
  refine ⟨o, hid, hfill, hqty, ?_⟩
  have hroom : roomOf (openLiveOf r.live) = t'.qty - t'.filledQty := by simp [hopen, roomOf, hfill, hqty]
  rw [totalsPlan_eq hb hr]
  rcases attribute_cases l now k (broker.ccldQty - base.ccldQty) (broker.ccldAmt - base.ccldAmt) r.live with
    ⟨hneg, _⟩ | ⟨hzero, _⟩ | ⟨hover, _⟩ | ⟨hpos, hfits, hbooked⟩
  · omega
  · omega
  · omega
  · rw [hbooked, hopen, hdelta, hamt]
    have htake : min (o.qty - o.filledQty) (acc.executed t' - t'.filledQty) = acc.executed t' - t'.filledQty := by omega
    have hne : acc.executed t' - t'.filledQty ≠ 0 := by omega
    simp only [allocate, if_neg hne, htake, if_true]

/-! ## The rows afterwards -/

/-- `_set_state` and its event on each row of `us`. -/
theorem rowAfter_setStates {us : List Order} {st : OrderState} {e : Order → Event} {o : Order} :
    rowAfter (us.flatMap fun u => [.setState u.id st now, .insertEvent (e u)]) o =
      if o.id ∈ us.map (·.id) then { o with state := st, updatedTs := now } else o := by
  induction us generalizing o with
  | nil => rfl
  | cons u us ih =>
    rw [List.flatMap_cons, rowAfter_append, ih]
    by_cases hid : o.id = u.id
    · simp [Stmt.onRow, hid]
    · simp [Stmt.onRow, hid]

theorem id_mem_iff (hw : Wf l) (ht : t ∈ l.rowsOf k) (p : Order → Bool) : t.id ∈ ((l.rowsOf k).filter p).map (·.id) ↔
    p t = true := by
  constructor
  · intro h
    obtain ⟨u, hu, hid⟩ := List.mem_map.1 h
    obtain ⟨hu, hp⟩ := List.mem_filter.1 hu
    obtain rfl := hw.eq_of_id (mem_rowsOf.1 hu).1 (mem_rowsOf.1 ht).1 hid
    exact hp
  · exact fun h => List.mem_map_of_mem (List.mem_filter.2 ⟨ht, h⟩)

/-- What the call makes of a row before the executed delta. -/
def Account.verdict (acc : Account l k base broker) (now : Time) (o : Order) : OrderState :=
  if o.state = .unknown then
    if acc.has o then .accepted else if unknownGrace < now - o.createdTs then .notSent else .unknown
  else o.state

/-- **The verdicts**: the state is the account's, the counters stay. -/
theorem rowAfter_resolved (hw : Wf l) (ho : OneOpen l) (hq : ∀ o ∈ l.orders, 0 < o.qty) (hs : acc.Settled)
    (hb : l.baseline k = some base) (ht : t ∈ l.rowsOf k) :
    ∃ ts, rowAfter (l.totalsPlan now k broker).resolved t = { t with state := acc.verdict now t, updatedTs := ts } := by
  by_cases hunk : t.state = .unknown
  · obtain ⟨r, hr⟩ := @resolve_unsettled l now k base broker acc t hw ho hs ht (.inr hunk)
    have hextra := extra_of_open hw ho hs ht (isOpen_of_unknown hunk) (not_live_of_unknown hunk)
    have hqty := hq t (mem_rowsOf.1 ht).1
    rw [totalsPlan_eq hb hr]
    simp only [Ledger.extra] at hextra
    by_cases hh : acc.has t = true
    · rw [if_pos hh] at hextra
      obtain ⟨_, _, _, hst⟩ | ⟨hneg, _, _⟩ := resolve_cases hr
      · have hin : t.id ∈ (unknownOf (l.rowsOf k)).map (·.id) := (id_mem_iff hw ht _).2 (by simpa using hunk)
        refine ⟨now, ?_⟩
        rw [hst, rowAfter_setStates, if_pos hin]
        simp [Account.verdict, hunk, hh]
      · omega
    · rw [if_neg hh] at hextra
      obtain ⟨hpos, _, _, _⟩ | ⟨_, _, hst⟩ := resolve_cases hr
      · omega
      · have hin := @id_mem_iff l k t hw ht fun o => decide (unknownGrace < now - o.createdTs) &&
          decide (o.state = .unknown)
        rw [hst, rowAfter_setStates, unknownOf, List.filter_filter]
        by_cases hg : unknownGrace < now - t.createdTs
        · refine ⟨now, ?_⟩
          rw [if_pos (hin.2 (by simp [hg, hunk]))]
          simp [Account.verdict, hunk, hh, hg]
        · refine ⟨t.updatedTs, ?_⟩
          have hsame : acc.verdict now t = t.state := by simp [Account.verdict, hunk, hh, hg]
          rw [if_neg (mt hin.1 (by simp [hg])), hsame]
  · have hno : ∀ s ∈ (l.totalsPlan now k broker).resolved, s.target ≠ some t.id := by
      intro s hmem htarget
      obtain ⟨u, hu, hust, st, _, rfl⟩ | ⟨e, rfl⟩ := resolved_stmt hmem
      · obtain rfl := hw.eq_of_id (mem_rowsOf.1 hu).1 (mem_rowsOf.1 ht).1 (Option.some.inj htarget)
        exact hunk hust
      · cases htarget
    refine ⟨t.updatedTs, ?_⟩
    rw [rowAfter_of_no_target hno]
    simp [Account.verdict, hunk]

theorem rowAfter_share {s : Share} {o : Order} (hid : o.id = s.order.id) :
    rowAfter (s.stmts now) o = { o with
      filledQty := s.order.filledQty + s.take
      filledAmt := o.filledAmt + s.amt
      state := if s.order.filledQty + s.take = s.order.qty then .filled else .partlyFilled
      updatedTs := now } := by
  simp [Share.stmts, Stmt.onRow, hid]

/-- A row with nothing due keeps its counters. -/
theorem rowAfter_not_due (hw : Wf l) (ho : OneOpen l) (hq : ∀ o ∈ l.orders, 0 < o.qty) (hs : acc.Settled)
    (hb : l.baseline k = some base) (ht : t ∈ l.rowsOf k) (hn : ¬ acc.Due t) :
    ∃ ts, rowAfter (l.applyTotalsStmts now k broker) t = { t with state := acc.verdict now t, updatedTs := ts } := by
  obtain ⟨ts, hres⟩ := @rowAfter_resolved l now k base broker acc t hw ho hq hs hb ht
  refine ⟨ts, ?_⟩
  rw [Ledger.applyTotalsStmts, rowAfter_append, rowAfter_of_no_target, hres]
  intro s hmem htarget
  obtain ⟨sh, hsh, hmem⟩ := List.mem_flatMap.1 hmem
  obtain ⟨u, hu, hid, hdue⟩ := share_due hw ho hq hs hb hsh
  simp only [Share.stmts, List.mem_cons, List.not_mem_nil, or_false] at hmem
  rw [rowAfter_id] at htarget
  rcases hmem with rfl | rfl | rfl <;> simp only [Stmt.target, reduceCtorEq, Option.some.injEq] at htarget
  obtain rfl := hw.eq_of_id (mem_rowsOf.1 hu).1 (mem_rowsOf.1 ht).1 (hid.trans htarget)
  exact hn hdue

/-- … and the row that is due takes all that was executed. -/
theorem rowAfter_due (hw : Wf l) (ho : OneOpen l) (hq : ∀ o ∈ l.orders, 0 < o.qty) (hs : acc.Settled)
    (hb : l.baseline k = some base) (ht : t ∈ l.rowsOf k) (hdue : acc.Due t) :
    rowAfter (l.applyTotalsStmts now k broker) t = { t with
      filledQty := acc.executed t
      filledAmt := t.filledAmt + (broker.ccldAmt - base.ccldAmt - total acc.has (·.filledAmt) (l.rowsOf k))
      state := if acc.executed t = t.qty then .filled else .partlyFilled
      updatedTs := now } := by
  obtain ⟨ts, hres⟩ := @rowAfter_resolved l now k base broker acc t hw ho hq hs hb ht
  obtain ⟨o, hid, hfill, hqty, hsh⟩ := @shares_due l now k base broker acc t hw ho hq hs hb ht hdue
  have hsum : t.filledQty + (acc.executed t - t.filledQty) = acc.executed t := by omega
  rw [Ledger.applyTotalsStmts, rowAfter_append, hres, hsh, List.flatMap_cons, List.flatMap_nil, List.append_nil,
    rowAfter_share (by simp [hid])]
  simp [hfill, hqty, hsum]

end

/-- The order is in the broker's book. -/
def Venue.has (st : Venue) (o : Order) : Bool := st.book.any (·.owner == some o.clientOrderId)

/-- The broker's totals of the key are those of the desk's orders. -/
def Venue.Alone (st : Venue) (k : Key) (base : Totals) : Prop :=
  (st.trueTotals k).ordQty - base.ordQty = total st.has (·.qty) (st.ledger.rowsOf k) ∧
    (st.trueTotals k).ccldQty - base.ccldQty = total st.has (fun o => st.executedFor o.clientOrderId)
      (st.ledger.rowsOf k) ∧
    ∀ o ∈ st.ledger.rowsOf k, st.executedFor o.clientOrderId ≤ o.qty

instance (st : Venue) (k : Key) (base : Totals) : Decidable (st.Alone k base) := by unfold Venue.Alone; infer_instance

def Venue.account {st : Venue} {k : Key} {base : Totals} (h : st.Alone k base) :
    Account st.ledger k base (st.trueTotals k) where
  has := st.has
  executed o := st.executedFor o.clientOrderId
  ordered_eq := h.1
  executed_eq := h.2.1
  executed_le := h.2.2

instance (l : Ledger) : Decidable (OneOpen l) := by unfold OneOpen; infer_instance

/-- A buy of three whose request timed out; the broker has it, and executes one share. -/
def unknownExecuted : List VenueAct :=
  [.baseline buysOfDay 0 0 0, .record 0 "c1" buysOfDay 3 100 0, .accept ⟨buysOfDay, "0000000101", 3, some "c1"⟩,
   .mark 1 1 .unknown none none, .execute ⟨buysOfDay, "0000000101", 3, some "c1"⟩ 1 100 "100000"]

/-- The first order is given up after the grace time and reaches the broker after that; the second never does. -/
def lateArrival : List VenueAct :=
  [.baseline buysOfDay 0 0 0, .record 0 "c1" buysOfDay 3 100 0, .mark 1 1 .unknown none none,
    .reconcile 30000001 buysOfDay 0 0 0,
   .accept ⟨buysOfDay, "0000000101", 3, some "c1"⟩, .record 30000002 "c2" buysOfDay 3 100 0,
     .mark 30000003 2 .unknown none none]

/-- The day is closed after one share of three, and the other two are executed after that. -/
def executedAfterClose : List VenueAct :=
  oneShareExecuted ++ [oneShareTotals 2, .closeDay 3 "20260720" 0, .execute ⟨buysOfDay, "0000000101", 3, some "c1"⟩ 2
    100 "100001"]

end OrderLedger

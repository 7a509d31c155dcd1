import MarketFeed.Ledger.Crash
import MarketFeed.Desk.OneOrder
/-!
# No order for a closed day (order_desk.py:281-309, :380-392)

`submit` looks at `day_close` once, right after it has the lock; the price and the day totals come
later. A `close_day` in that window closes the day under a submit that goes on to record and to send.
That window is the only one (`noCloseInGap`): once the row is recorded it is pending, it is the newest
row of its day, and `close_day` refuses as long as it is.
-/

namespace OrderDesk

open OrderLedger Lts Script

variable {lim : Limits} {db : Db}

/-- The day that a step closes now: `close_day` of a day still open, with nothing unresolved and no break. -/
def Desk.closes (d : Desk) (lbl : Label) : Option String :=
  (d.closing lbl).bind fun (date, n) =>
    if d.ledger.dayCloseOf date = none ∧ unresolved (d.ledger.ordersOf date closeLimit) = [] ∧ n = 0 then some date
    else none

/-- The day of the submit suspended between its checks and its row. -/
def Desk.gap (d : Desk) : Option String := d.holder.bind (·.stage.unrecorded)

/-- The day is not closed under a submit that has not recorded its order yet. -/
def noCloseInGap (d : Desk) (lbl : Label) : Prop := d.closes lbl = none ∨ d.closes lbl ≠ d.gap

instance (d : Desk) (lbl : Label) : Decidable (noCloseInGap d lbl) := by unfold noCloseInGap; infer_instance

/-- The day of a submit past its checks. -/
def Stage.day : Stage → String
  | .pricing day => day
  | .baselining day _ => day
  | .ordering day _ _ => day
  | .sending day _ _ _ => day

structure Timely (d : Desk) : Prop where
  inv : Inv d
  dayOpen : ∀ h, d.holder = some h → d.ledger.dayCloseOf h.stage.day = none
  created : ∀ c ∈ d.created, c.dayClosed = false
  sent : ∀ s ∈ d.sent, s.dayClosed = false

theorem timely_init : Timely .init :=
  ⟨inv_init, by simp [Desk.holder, Desk.init], by simp [Desk.init], by simp [Desk.init]⟩

/-! ## Days stay open -/

theorem dayCloseOf_execAll {l : Ledger} {ss : List Stmt} (h : ∀ s ∈ ss, s.isDayClose = false) (day : String) :
    (l.execAll ss).dayCloseOf day = l.dayCloseOf day := by
  rw [Ledger.dayCloseOf, execAll_dayClose_of_none h, Ledger.dayCloseOf]

/-- A new row of `day_close` comes from an `INSERT` of the script. -/
theorem dayClose_execAll_mem {l : Ledger} {ss : List Stmt} {row : DayClose} (h : row ∈ (l.execAll ss).dayClose) :
    row ∈ l.dayClose ∨ .insertDayClose row ∈ ss := by
  revert h
  refine runScript_invariant (I := fun l' : Ledger => row ∈ l'.dayClose → row ∈ l.dayClose ∨ .insertDayClose row ∈ ss)
    (fun h => .inl h) ?_
  intro l' s hs ih h
  by_cases hc : ∃ row', s = .insertDayClose row'
  · obtain ⟨row', rfl⟩ := hc
    simp only [Ledger.exec] at h
    split at h
    · exact ih h
    · rcases List.mem_append.1 h with h | h
      · exact ih h
      · obtain rfl := List.mem_singleton.1 h
        exact .inr hs
  · rw [exec_dayClose fun row' he => hc ⟨row', he⟩] at h
    exact ih h

theorem createdBy_eq_nil {l : Ledger} {ss : List Stmt} (h : ∀ s ∈ ss, s.isInsertOrder = false) :
    createdBy l ss = [] := by
  refine List.filterMap_eq_nil_iff.2 fun s hs => ?_
  have := h s hs
  split
  · simp [Stmt.isInsertOrder] at this
  · rfl

/-- What the script that records an order does to the days, cut anywhere. -/
theorem place_days {l : Ledger} {q : Request} {day : String} {pre : List Stmt} {now : Time} {unit : Int}
    (hpre : ∀ s ∈ pre, ∃ k t, s = .insertTotalsBaseline k t) {ss : List Stmt}
    (hss : ss ⊆ pre ++ l.newOrderStmts now q.clientOrderId (q.key day) q.qty q.price unit) :
    (∀ s ∈ ss, s.isDayClose = false) ∧ ∀ c ∈ createdBy l ss, c.dayClosed = (l.dayCloseOf day).isSome := by
  have hstmt : ∀ s ∈ ss, (s.isDayClose = false ∧ s.isInsertOrder = false) ∨
      ∃ cid sym side qty price est, s = .insertOrder cid day sym side qty price est now := by
    intro s hs
    rcases List.mem_append.1 (hss hs) with hs | hs
    · obtain ⟨k, t, rfl⟩ := hpre s hs
      exact .inl ⟨rfl, rfl⟩
    · obtain ⟨_, _, _, h0, _⟩ | ⟨_, _, h0⟩ := newOrder_cases l now q.clientOrderId (q.key day) q.qty q.price unit <;>
        rw [h0] at hs
      · cases hs
      · simp only [List.mem_cons, List.not_mem_nil, or_false] at hs
        rcases hs with rfl | rfl
        · exact .inr ⟨_, _, _, _, _, _, rfl⟩
        · exact .inl ⟨rfl, rfl⟩
  constructor
  · intro s hs
    obtain ⟨h, _⟩ | ⟨_, _, _, _, _, _, rfl⟩ := hstmt s hs
    · exact h
    · rfl
  · intro c hc
    obtain ⟨s, hs, hsc⟩ := List.mem_filterMap.1 hc
    obtain ⟨_, hno⟩ | ⟨_, _, _, _, _, _, rfl⟩ := hstmt s hs
    · cases s with
      | insertOrder => simp [Stmt.isInsertOrder] at hno
      | _ => cases hsc
    · cases hsc
      rfl

/-- The newest row of a day is among those `close_day` reads. -/
theorem mem_ordersOf_newest {l : Ledger} (hw : Wf l) {r : Order} (hr : r ∈ l.orders) (hn : r.id = l.orderSeq) :
    r ∈ l.ordersOf r.tradeDate closeLimit := by
  obtain ⟨xs, ys, hxy⟩ := List.append_of_mem hr
  have hlast : ys = [] := by
    refine List.eq_nil_iff_forall_not_mem.2 fun y hy => ?_
    have hs := hw.sorted
    rw [hxy, List.pairwise_append, List.pairwise_cons] at hs
    have hlt := hs.2.1.1 y hy
    have hb := hw.bounded y (by simp [hxy, hy])
    omega
  rw [Ledger.ordersOf, hxy, hlast, List.filter_append, List.reverse_append]
  simp [closeLimit]

/-- A pending row of the submit keeps its day from being closed. -/
theorem unresolved_of_ownRow {d : Desk} (hw : Wf d.ledger) {q : Request} {day : String} {id : Nat} {r : Order}
    (hr : OwnRow d.ledger q day id r) : unresolved (d.ledger.ordersOf day closeLimit) ≠ [] := by
  have hday : r.tradeDate = day := congrArg Key.tradeDate hr.key_eq
  have hmem : r ∈ unresolved (d.ledger.ordersOf day closeLimit) := by
    refine List.mem_filter.2 ⟨hday ▸ mem_ordersOf_newest hw hr.mem hr.newest, ?_⟩
    simp [hr.pending]
  exact List.ne_nil_of_mem hmem

/-! ## Every timely move keeps the days open -/

theorem Stage.day_of_unrecorded {stage : Stage} {day : String} (h : stage.unrecorded = some day) : stage.day = day := by
  cases stage <;> first | exact Option.some.inj h | cases h

theorem Stage.unrecorded_or_placed (stage : Stage) :
    stage.unrecorded = some stage.day ∨ ∃ id, stage.placed = some (stage.day, id) := by
  cases stage with
  | pricing day => exact .inl rfl
  | baselining day unit => exact .inl rfl
  | ordering day id retried => exact .inr ⟨id, rfl⟩
  | sending day id retried j => exact .inr ⟨id, rfl⟩

theorem Timely.passed {d : Desk} (ht : Timely d) {q : Request} {day : String} (hp : d.passed q day) :
    d.ledger.dayCloseOf day = none := by
  obtain ⟨_, _, h2, _⟩ | ⟨stage, hh, hs⟩ := hp
  · exact h2
  · have := ht.dayOpen _ hh
    rwa [Stage.day_of_unrecorded hs] at this

/-- A completed `close_day` leaves the day of the suspended submit open. -/
theorem Timely.close {d : Desk} (ht : Timely d) {lbl : Label} (hgap : noCloseInGap d lbl) {now : Time} {date : String}
    {n : Nat} (hc : d.closing lbl = some (date, n)) {h : Holder} (hh : d.holder = some h) (k : Nat) :
    (d.ledger.execAll ((d.ledger.closeDay now date n).1.take k)).dayCloseOf h.stage.day = none := by
  have hopen := ht.dayOpen h hh
  obtain h0 | ⟨hd, hu, hn, hs⟩ := closeDay_cases d.ledger now date n
  · rw [h0, List.take_nil]
    exact hopen
  · have hne : date ≠ h.stage.day := by
      rintro rfl
      obtain hun | ⟨id, hpl⟩ := h.stage.unrecorded_or_placed
      · have hcloses : d.closes lbl = some h.stage.day := by
          simp only [Desk.closes, hc, Option.bind_some, if_pos (And.intro hd (And.intro hu hn))]
        have hg : d.gap = some h.stage.day := by rw [Desk.gap, hh]; exact hun
        rcases hgap with hg' | hg'
        · rw [hcloses] at hg'; cases hg'
        · exact hg' (hcloses.trans hg.symm)
      · obtain ⟨r, hr⟩ := (ht.inv.holds h hh).after _ _ hpl
        exact unresolved_of_ownRow ht.inv.wf hr hu
    rw [Ledger.dayCloseOf, List.find?_eq_none]
    intro row hrow
    obtain hold | hnew := dayClose_execAll_mem hrow
    · exact List.find?_eq_none.1 hopen row hold
    · have hmem := List.mem_of_mem_take hnew
      rw [hs] at hmem
      rcases List.mem_append.1 hmem with hmem | hmem
      · obtain ⟨_, _, _, he⟩ | ⟨_, he⟩ := expireStmts_stmt hmem <;> cases he
      · simp only [List.mem_cons, List.not_mem_nil, or_false, reduceCtorEq] at hmem
        cases hmem
        simpa using hne

theorem timely_move {d : Desk} (ht : Timely d) {lbl : Label} (hgap : noCloseInGap d lbl) {ss : List Stmt}
    {p : Option Proc} {sent : List Sent} (hm : Move db d lbl ss (p.bind (·.holder)) sent) :
    Timely (d.after ss p sent) := by
  have hi := inv_move ht.inv hm
  generalize hh : p.bind (·.holder) = h at hm
  have hholder : (d.after ss p sent).holder = h := hh
  -- the steps that insert no order, and send nothing
  have hkeep : (∀ s ∈ ss, s.isInsertOrder = false) → sent = d.sent →
      (∀ x, h = some x → (d.ledger.execAll ss).dayCloseOf x.stage.day = none) → Timely (d.after ss p sent) := by
    rintro hss rfl hday
    refine ⟨hi, fun x hx => hday x (hholder ▸ hx), fun c hc => ?_, ht.sent⟩
    rw [Desk.after, createdBy_eq_nil hss, List.append_nil] at hc
    exact ht.created c hc
  cases hm with
  | quiet hc hk =>
    refine hkeep (quiet_stmts hc _).1 rfl fun x hx => ?_
    rw [dayCloseOf_execAll fun s hs => (stmt_not_closing (by rintro _ _ _ rfl; cases hc) (List.mem_of_mem_take hs)).2]
    rcases hk with rfl | rfl
    · cases hx
    · exact ht.dayOpen x hx
  | close hk =>
    rename_i now date n k
    refine hkeep (fun s hs => ?_) rfl fun x hx => ?_
    · exact stmt_isInsertOrder (c := .closeDay now date n) (by simp) (List.mem_of_mem_take hs)
    · rcases hk with rfl | ⟨rfl, hc⟩
      · cases hx
      · exact ht.close hgap hc hx k
  | boot =>
    refine hkeep (fun s hs => ?_) rfl (by rintro x ⟨⟩)
    exact stmt_isInsertOrder (c := .recoverPending _) (by simp) (List.mem_of_mem_take hs)
  | suspend hp hs =>
    refine hkeep (by simp) rfl ?_
    rintro x ⟨⟩
    rw [Stage.day_of_unrecorded hs]
    exact ht.passed hp
  | place hp hpre =>
    have hopen := ht.passed hp
    obtain ⟨hclose, hcreated⟩ := place_days hpre (List.Subset.refl _)
    refine ⟨hi, fun x hx => ?_, fun c hc => ?_, ht.sent⟩
    · rw [hholder] at hx
      cases hx
      rw [Desk.after, dayCloseOf_execAll hclose]
      exact hopen
    · rcases List.mem_append.1 hc with hc | hc
      · exact ht.created c hc
      · rw [hcreated c hc, hopen]
        rfl
  | placeCut hp hpre =>
    have hopen := ht.passed hp
    obtain ⟨_, hcreated⟩ := place_days hpre (List.take_subset _ _)
    refine ⟨hi, fun x hx => ?_, fun c hc => ?_, ht.sent⟩
    · rw [hholder] at hx
      cases hx
    · rcases List.mem_append.1 hc with hc | hc
      · exact ht.created c hc
      · rw [hcreated c hc, hopen]
        rfl
  | send hs =>
    rename_i q day id retried
    have hopen := ht.dayOpen _ hs
    refine ⟨hi, fun x hx => ?_, fun c hc => ?_, fun s hs' => ?_⟩
    · rw [hholder] at hx
      cases hx
      exact hopen
    · rw [Desk.after, createdBy_eq_nil (by simp), List.append_nil] at hc
      exact ht.created c hc
    · rcases List.mem_append.1 hs' with hs' | hs'
      · exact ht.sent s hs'
      · obtain rfl := List.mem_singleton.1 hs'
        exact Option.isSome_eq_false_iff.2 (Option.isNone_iff_eq_none.2 hopen)
  | repeated hs =>
    refine hkeep (by simp) rfl ?_
    rintro x ⟨⟩
    exact ht.dayOpen ⟨_, .sending _ _ _ _⟩ hs
  | finish hs =>
    rename_i q day id j retried now result k
    refine hkeep (fun s hs' => ?_) rfl (by rintro x ⟨⟩)
    obtain h0 | ⟨st, _, odno, msg, h0⟩ := finish_cases db now id result <;> rw [h0] at hs'
    · simp at hs'
    · exact stmt_isInsertOrder (l := d.ledger) (c := .mark now id st odno msg) (by simp) (List.mem_of_mem_take hs')

theorem timely_step {d d' : Desk} (ht : Timely d) {lbl : Label} (hgap : noCloseInGap d lbl)
    (h : step lim db d lbl = some d') : Timely d' := by
  obtain ⟨ss, p, sent, rfl, hm⟩ | ⟨j, s, v, hj, _, rfl⟩ := step_moves h
  · exact timely_move ht hgap hm
  · refine ⟨⟨ht.inv.wf, ht.inv.oneOpen, ht.inv.holds⟩, ht.dayOpen, ht.created, fun t hts => ?_⟩
    rcases List.mem_or_eq_of_mem_set hts with hts | rfl
    · exact ht.sent t hts
    · exact ht.sent s (List.mem_of_getElem? hj)

/-- **No order for a closed day**, in every run in which no `close_day` closes the day of a submit that is
suspended between its checks and its row. -/
theorem no_order_for_closed_day {ls : List Label} {d : Desk} (h : Run (step lim db) noCloseInGap .init ls d) :
    (∀ c ∈ d.created, c.dayClosed = false) ∧ ∀ s ∈ d.sent, s.dayClosed = false := by
  have ht : Timely d := h.invariant timely_init fun s a s' hI hg hs => timely_step hI hg hs
  exact ⟨ht.created, ht.sent⟩

/-- An order is sent, the day is closed once it is refused, and the next order of the day is turned away. -/
def closedAfterwards : List Label :=
  [.boot 0 none, .run (.arrive ⟨"c1", "005930", .buy, 1, 70000⟩), .run (.enter 0 "20260720" 1),
   .run (.totalled ⟨0, 0, 0⟩ 2), .run .send, .run (.startReconcile "20260720"), .run (.gotHoldings [] 3),
   .run (.gotTotals ⟨0, 0, 0⟩ 4), .run (.gotBalance [] 5 (some "20260720")), .verdict 0 .rejected,
   .run (.answer (.error (.rejected (.str (py "APBK0919")) [])) 6), .run (.startReconcile "20260720"),
   .run (.gotBalance [] 7 (some "20260720")), .run (.arrive ⟨"c2", "005930", .buy, 1, 70000⟩),
   .run (.enter 0 "20260720" 8)]

theorem no_order_for_closed_day_afterwards :
    ∃ d, Run (step ⟨1000000, 10000000⟩ roomyDb) noCloseInGap .init closedAfterwards d ∧
      (∀ c ∈ d.created, c.dayClosed = false) ∧ ∀ s ∈ d.sent, s.dayClosed = false := by
  obtain ⟨d, h⟩ : ∃ d, exec (step ⟨1000000, 10000000⟩ roomyDb) noCloseInGap .init closedAfterwards = some d :=
    Option.isSome_iff_exists.1 (by decide)
  exact ⟨d, run_of_exec h, no_order_for_closed_day (run_of_exec h)⟩

/-- A market order waits for its price while a reconciliation that was under way closes the day. -/
def closedInGap : List Label :=
  [.boot 0 none, .run (.startReconcile "20260720"), .run (.gotHoldings [] 1),
   .run (.arrive ⟨"c1", "005930", .buy, 1, 0⟩), .run (.enter 0 "20260720" 2),
   .run (.gotBalance [] 3 (some "20260720")), .run (.priced 70000 4), .run (.totalled ⟨0, 0, 0⟩ 5), .run .send]

/-- **The gap is real**: the row is created and the order sent although the day is closed. -/
theorem closed_in_gap :
    ∃ d, Run (step ⟨1000000, 10000000⟩ roomyDb) anyStep .init closedInGap d ∧
      d.created = [⟨"20260720", true⟩] ∧ d.sent = [⟨"c1", .underway, true, true⟩] :=
  exists_run (by decide)

end OrderDesk

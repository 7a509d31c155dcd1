import MarketFeed.Lib.Total
import MarketFeed.Ledger.States
import MarketFeed.Desk.AtMostOnce
import MarketFeed.Desk.Calls
/-!
# The order limits (order_desk.py:280-308, kis_trading.py:171-178, ledger.py:190-200)

The day's sum is read before the wait for the day totals and the order is inserted after it. The lock
keeps the sum from growing meanwhile (`Limited.waits`), and no row comes back from REJECTED or NOT_SENT,
so with positive prices the limits hold in every reachable state (`limits_hold`).

A market order is sized with the quote, and a quote without a price is read as 0 (`Floats.num`). Then
every limit passes: `empty_quote_is_sent`.

| here | there |
| --- | --- |
| `Floats` | `int(float(x))`: how Python reads and rounds a number, and what `int` raises on NaN and infinity |
| `quotePrice` | the entry `price` of `KISTrading.price`; what the other entries raise is `Act.leave` |
| `spent` | the sum over the day's rows that are not REJECTED or NOT_SENT of `qty * est_price` |
-/

namespace OrderDesk

open OrderLedger Lts Total

variable {lim : Limits} {db : Db}

/-! ## The quote -/

structure Floats where
  /-- Of a text; `none` where `float` raises `ValueError`. -/
  ofText : PyStr → Option (Py Int)
  /-- Of a float of the document, by its `repr`. -/
  ofRepr : PyStr → Py Int
  ofInt : Int → Py Int

/-- `int(_num(v))` (kis_trading.py:71-75). -/
def Floats.num (fl : Floats) (v : Option Json) : Py Int :=
  match v with
  | none => .ok 0
  | some j =>
    if j.truthy then
      match j with
      | .bool _ => .ok 1
      | .int n => fl.ofInt n
      | .float repr _ => fl.ofRepr repr
      | .str s => (fl.ofText s).getD (.ok 0)
      | .null | .array _ | .object _ => .ok 0
    else .ok 0

/-- `price(symbol)["price"]` on the document of a successful call (kis_trading.py:174-175). -/
def quotePrice (fl : Floats) (d : Fields) : Py Int :=
  match orDict (get d "output") with
  | none => raise .attributeError "AttributeError"
  | some o => fl.num (get o "stck_prpr")

/-- Floats that are whole numbers, and texts that are none. -/
def wholeFloats : Floats := ⟨fun _ => none, fun _ => .ok 0, fun n => .ok n⟩

/-! ## What a day's orders add up to -/

/-- Not REJECTED and not NOT_SENT. -/
def counted (o : Order) : Bool := !decide (o.state ∈ [OrderState.rejected, .notSent])

def spent (l : Ledger) (day : String) : Int :=
  total (fun o => o.tradeDate == day && counted o) (fun o => o.qty * o.estPrice) l.orders

/-- What `notional_today` adds up is no less. -/
theorem spent_le_notionalToday (l : Ledger) (day : String) : spent l day ≤ l.notionalToday day := by
  unfold spent total Ledger.notionalToday counted
  generalize l.orders.filter _ = os
  induction os with
  | nil => simp
  | cons o os ih =>
    simp only [List.map_cons, List.sum_cons]
    omega

/-- Every row was sized with a positive price, within the limit per order. -/
def Sized (lim : Limits) (l : Ledger) : Prop :=
  ∀ r ∈ l.orders, 0 < r.qty ∧ 0 < r.estPrice ∧ r.qty * r.estPrice ≤ lim.orderMaxKrw

theorem Sized.amount_nonneg {l : Ledger} (h : Sized lim l) : ∀ r ∈ l.orders, 0 ≤ r.qty * r.estPrice := by
  intro r hr
  obtain ⟨h1, h2, _⟩ := h r hr
  exact Int.mul_nonneg (by omega) (by omega)

theorem sized_script {l : Ledger} (h : Sized lim l) {ss : List Stmt} (hi : ∀ s ∈ ss, s.isInsertOrder = false) :
    Sized lim (l.execAll ss) := by
  intro o ho
  rw [execAll_orders hi] at ho
  obtain ⟨r, hr, rfl⟩ := List.mem_map.1 ho
  simpa using h r hr

/-- A row that counts after a script counted before: REJECTED and NOT_SENT are final. -/
theorem counted_of_after {l : Ledger} (hw : Wf l) {ss : List Stmt} (ht : TargetsOpen l ss)
    {r : Order} (hr : r ∈ l.orders)
    (hc : counted (rowAfter ss r) = true) : counted r = true := by
  by_contra hno
  have hclosed : ¬ r.isOpen = true := by
    simp only [counted, Bool.not_eq_true', decide_eq_false_iff_not, not_not, List.mem_cons, List.not_mem_nil,
      or_false] at hno
    rcases hno with h | h <;> simp [Order.isOpen, openStates, h]
  rw [rowAfter_of_not hw ht hr hclosed] at hc
  exact hno hc

/-- **Without a new order the day's sum does not grow.** -/
theorem spent_script {l : Ledger} (hw : Wf l) (hs : Sized lim l)
    {ss : List Stmt} (hi : ∀ s ∈ ss, s.isInsertOrder = false)
    (ht : TargetsOpen l ss) (day : String) : spent (l.execAll ss) day ≤ spent l day := by
  have hmap : spent (l.execAll ss) day =
      total (fun r => r.tradeDate == day && counted (rowAfter ss r)) (fun r => r.qty * r.estPrice) l.orders := by
    unfold spent total
    rw [execAll_orders hi, List.filter_map, List.map_map]
    refine congrArg List.sum ?_
    have hday : ∀ r, (rowAfter ss r).tradeDate = r.tradeDate := fun r => congrArg Key.tradeDate (rowAfter_key ss r)
    refine (List.map_congr_left fun r _ => by simp).trans (congrArg _ (List.filter_congr fun r _ => by simp [hday]))
  rw [hmap]
  apply total_mono hs.amount_nonneg
  intro r hr hc
  simp only [Bool.and_eq_true] at hc ⊢
  exact ⟨hc.1, counted_of_after hw ht hr hc.2⟩

/-! ## A new row -/

/-- The sum of every day that has an order is within the daily limit. -/
def Bounded (lim : Limits) (l : Ledger) : Prop :=
  ∀ r ∈ l.orders, counted r = true → spent l r.tradeDate ≤ lim.orderDailyMaxKrw

theorem bounded_script {l : Ledger} (hw : Wf l) (hs : Sized lim l) (hb : Bounded lim l) {ss : List Stmt}
    (hi : ∀ s ∈ ss, s.isInsertOrder = false) (ht : TargetsOpen l ss) : Bounded lim (l.execAll ss) := by
  intro o ho hc
  rw [execAll_orders hi] at ho
  obtain ⟨r, hr, rfl⟩ := List.mem_map.1 ho
  have hday : (rowAfter ss r).tradeDate = r.tradeDate := congrArg Key.tradeDate (rowAfter_key ss r)
  have hbefore := hb r hr (counted_of_after hw ht hr hc)
  have hmono := spent_script hw hs hi ht r.tradeDate
  rw [hday]
  omega

/-- `new_order`, cut anywhere, has added its row or nothing. -/
theorem newOrder_rows (l : Ledger) (q : Request) (now : Time) (day : String) (unit : Int) (k : Nat) :
    (l.execAll ((l.newOrderStmts now q.clientOrderId (q.key day) q.qty q.price unit).take k)).orders = l.orders ∨
    (l.execAll ((l.newOrderStmts now q.clientOrderId (q.key day) q.qty q.price unit).take k)).orders =
      l.orders ++ [q.row l now day unit] := by
  cases hnew : l.byClientId q.clientOrderId with
  | some o =>
    left
    rw [Ledger.newOrderStmts, hnew, List.take_nil, execAll_nil]
  | none =>
    have hcut := @place_cut l q hnew [] (by simp) now day unit k
    exact hcut.imp (·.1) (·.1)

theorem spent_append {l l' : Ledger} {r : Order} (ho : l'.orders = l.orders ++ [r]) (day : String) :
    spent l' day = spent l day + if r.tradeDate == day && counted r then r.qty * r.estPrice else 0 := by
  rw [spent, ho, total_append, total_cons, total_nil]
  simp [spent]

/-- A unit price that was checked against the limits may be recorded. -/
structure Request.fits (lim : Limits) (l : Ledger) (q : Request) (day : String) (unit : Int) : Prop where
  unit_pos : 0 < unit
  one : unit * q.qty ≤ lim.orderMaxKrw
  day_le : spent l day + unit * q.qty ≤ lim.orderDailyMaxKrw

theorem limits_append {l l' : Ledger} (hs : Sized lim l) (hb : Bounded lim l) {q : Request} (hq : q.Formed) {now : Time}
    {day : String} {unit : Int} (hf : q.fits lim l day unit) (ho : l'.orders = l.orders ++ [q.row l now day unit]) :
    Sized lim l' ∧ Bounded lim l' := by
  have hest : (q.row l now day unit).estPrice = unit := if_neg (by have := hf.unit_pos; omega)
  have hamount : (q.row l now day unit).qty * (q.row l now day unit).estPrice = unit * q.qty := by
    rw [hest]
    exact Int.mul_comm _ _
  have hnew : ∀ day', spent l' day' = spent l day' + if day == day' then unit * q.qty else 0 := by
    intro day'
    rw [spent_append ho, hamount]
    by_cases hd : day = day' <;> simp [Request.row, counted, hd]
  constructor
  · intro r hr
    rw [ho] at hr
    rcases List.mem_append.1 hr with hr | hr
    · exact hs r hr
    · rw [List.mem_singleton.1 hr, hamount, hest]
      exact ⟨hq.qty, hf.unit_pos, hf.one⟩
  · intro r hr hc
    rw [ho] at hr
    have hle := hf.day_le
    rw [hnew]
    by_cases hd : day = r.tradeDate
    · rw [if_pos (by simpa using hd), ← hd]
      exact hle
    · rw [if_neg (by simpa using hd), Int.add_zero]
      rcases List.mem_append.1 hr with hr | hr
      · exact hb r hr hc
      · rw [List.mem_singleton.1 hr] at hd
        exact absurd rfl hd

/-! ## Over a run -/

/-- The quote a market order is sized with has a positive price. -/
def Label.PricedAbove : Label → Prop
  | .run (.priced unit _) => 0 < unit
  | .crash (.priced unit _) _ => 0 < unit
  | _ => True

instance (lbl : Label) : Decidable lbl.PricedAbove := by
  unfold Label.PricedAbove
  split <;> infer_instance

/-- Requests pass their checks, and the quotes of market orders have a positive price. -/
def Quoted (_ : Desk) (lbl : Label) : Prop := lbl.Brings Request.Formed ∧ lbl.PricedAbove

instance (d : Desk) (lbl : Label) : Decidable (Quoted d lbl) := by unfold Quoted; infer_instance

structure Limited (lim : Limits) (d : Desk) : Prop where
  once : Once d
  formed : ∀ p, d.proc = some p → p.All Request.Formed
  sized : Sized lim d.ledger
  bounded : Bounded lim d.ledger
  waits : ∀ q day unit, d.holder = some ⟨q, .baselining day unit⟩ → q.fits lim d.ledger day unit

theorem limited_init : Limited lim .init :=
  ⟨once_init, fun _ h => (nomatch h), fun _ h => (nomatch h), fun _ h => (nomatch h), fun _ _ _ h => (nomatch h)⟩

/-- The unit price at hand is positive, and the check against `notional_today` bounds the day's sum. -/
theorem Pricing.fits {d : Desk} {p : Proc} (hf : p.All Request.Formed) {a : Act} (ha : (Label.run a).PricedAbove)
    {q : Request} {day : String} {unit : Int} (h : Pricing p a q day unit) (hw : q.within lim d.ledger day unit) :
    q.fits lim d.ledger day unit := by
  have hle := spent_le_notionalToday d.ledger day
  refine ⟨?_, hw.1, by have := hw.2; omega⟩
  cases h with
  | limit hq hprice =>
    have := (hf.1 q hq).price
    omega
  | market => exact ha

/-- Who waits for the totals has inserted nothing in this step. -/
theorem baselining_move {d : Desk} {lbl : Label} {ss : List Stmt} {q : Request} {day : String} {unit : Int}
    {sent : List Sent}
    (h : Move db d lbl ss (some ⟨q, .baselining day unit⟩) sent) :
    (∀ s ∈ ss, s.isInsertOrder = false) ∧ TargetsOpen d.ledger ss := by
  have hopen : ∀ {ss}, Targets Order.unsettled d.ledger ss → TargetsOpen d.ledger ss := fun ht =>
    ht.mono fun _ => isOpen_of_unsettled
  cases h with
  | quiet hc => exact ⟨(quiet_stmts hc _).1, hopen (quiet_stmts hc _).2⟩
  | close =>
    refine ⟨fun s hs => ?_, hopen ((call_targets d.ledger (c := .closeDay _ _ _) (by simp) (by simp)).take _)⟩
    exact stmt_isInsertOrder (c := .closeDay _ _ _) (by simp) (List.mem_of_mem_take hs)
  | suspend => exact ⟨by simp, targets_of_none (by simp)⟩

/-- One call of the desk, cut anywhere. -/
theorem limits_call {d : Desk} (hd : Limited lim d) {p : Proc} (hp : d.proc = some p) {a : Act}
    (ha : (Label.run a).PricedAbove) {l : Ledger} {c : Call} (hcall : Calls lim d p a l c) (k : Nat)
    (hl : Wf l ∧ Sized lim l ∧ Bounded lim l) :
    Wf (l.execAll ((c.stmts l).take k)) ∧ Sized lim (l.execAll ((c.stmts l).take k)) ∧
      Bounded lim (l.execAll ((c.stmts l).take k)) := by
  obtain ⟨hw, hs, hb⟩ := hl
  refine ⟨wf_execAll hw _, ?_⟩
  have hholder : d.holder = p.holder := by rw [Desk.holder, hp]; rfl
  have hscript : (∀ s ∈ c.stmts l, s.isInsertOrder = false) → TargetsOpen l (c.stmts l) →
      Sized lim (l.execAll ((c.stmts l).take k)) ∧ Bounded lim (l.execAll ((c.stmts l).take k)) := fun hi ht =>
    have hi' := fun s hs => hi s (List.mem_of_mem_take hs)
    ⟨sized_script hs hi', bounded_script hw hs hb hi' (ht.take k)⟩
  cases hcall with
  | newOrder hsame hpr =>
    rename_i q day now unit
    have hq : q.Formed := hpr.elim (fun h => h.1.asked (hd.formed p hp)) fun h => (hd.formed p hp).2 _ h
    have hfits : q.fits lim d.ledger day unit :=
      hpr.elim (fun h => h.1.fits (hd.formed p hp) ha h.2) fun h => hd.waits q day unit (hholder.trans h)
    have hspent : spent l day = spent d.ledger day := by rw [spent, spent, hsame]
    obtain hord | hord := newOrder_rows l q now day unit k
    · constructor
      · intro r hr
        exact hs r (hord ▸ hr)
      · intro r hr hc
        have hsum := hb r (hord ▸ hr) hc
        rw [spent] at hsum ⊢
        rwa [show (l.execAll ((Call.stmts l (.newOrder now q.clientOrderId (q.key day) q.qty q.price unit)).take
          k)).orders =
          l.orders from hord]
    · exact limits_append hs hb hq ⟨hfits.unit_pos, hfits.one, by rw [hspent]; exact hfits.day_le⟩ hord
  | mark hh hst =>
    obtain ⟨own, hown⟩ := (hd.once.inv.holds _ (hholder.trans hh)).after _ _ rfl
    obtain rfl := hown.id_eq
    refine hscript (fun s hs => stmt_isInsertOrder (by simp) hs) ((mark_targets hown.mem _ _ _ _).mono ?_)
    rintro x rfl
    exact isOpen_of_pendingSubmit hown.pending
  | _ => exact hscript (fun s hs => stmt_isInsertOrder (by simp) hs) (call_targetsOpen l (by simp))

theorem limited_step {d d' : Desk} (hd : Limited lim d) {lbl : Label} (hok : Quoted d lbl)
    (h : step lim db d lbl = some d') : Limited lim d' := by
  obtain ⟨_, hsized, hbounded⟩ : Wf d'.ledger ∧ Sized lim d'.ledger ∧ Bounded lim d'.ledger := by
    refine step_ledger (I := fun l => Wf l ∧ Sized lim l ∧ Bounded lim l) h ⟨hd.once.inv.wf, hd.sized, hd.bounded⟩
      (fun p a l c k hp hlbl hl hcall => ?_) fun now k => ?_
    · refine limits_call hd hp ?_ hcall k hl
      have hpr := hok.2
      cases hlbl with
      | run => exact hpr
      | crash => cases a <;> exact hpr
    · have hi : ∀ s ∈ (d.ledger.recoverPendingStmts now).take k, s.isInsertOrder = false := fun s hs =>
        @stmt_isInsertOrder d.ledger (.recoverPending now) (by simp) s (List.mem_of_mem_take hs)
      have ht : TargetsOpen d.ledger ((d.ledger.recoverPendingStmts now).take k) :=
        ((recoverPending_targets d.ledger now).mono fun _ => isOpen_of_pendingSubmit).take k
      exact ⟨wf_execAll hd.once.inv.wf _, sized_script hd.sized hi,
        bounded_script hd.once.inv.wf hd.sized hd.bounded hi ht⟩
  refine ⟨once_step hd.once h, step_all hd.formed hok.1 h, hsized, hbounded, fun q day unit hh => ?_⟩
  cases stepped h with
  | @run a p p' ss sent hp ha =>
    have hh : p'.holder = some ⟨q, .baselining day unit⟩ := hh
    have hmove := (act_moves hp ha).1
    rw [hh] at hmove
    obtain ⟨hi, ht⟩ := baselining_move hmove
    have hmono := spent_script hd.once.inv.wf hd.sized hi ht day
    have hfits : q.fits lim d.ledger day unit := by
      obtain hkept | ⟨hpr, hw⟩ := (act_issued ha).2 q day unit hh
      · refine hd.waits q day unit ?_
        rw [Desk.holder, hp, ← hh, ← hkept]
        rfl
      · exact hpr.fits (hd.formed p hp) hok.2 hw
    refine ⟨hfits.unit_pos, hfits.one, ?_⟩
    have := hfits.day_le
    show spent (d.ledger.execAll ss) day + unit * q.qty ≤ lim.orderDailyMaxKrw
    omega
  | crash | die => cases hh
  | boot _ hp =>
    obtain rfl | rfl := hp <;> cases hh
  | verdict => exact hd.waits q day unit hh

/-- **Orders stay within the limits** as long as every quote that sizes a market order has a positive price:
a request at the broker belongs to a row sized with a positive price within the limit per order, and no day's
sum exceeds the daily limit. -/
theorem limits_hold {ls : List Label} {d : Desk} (h : Run (step lim db) Quoted .init ls d) :
    (∀ s ∈ d.sent, ∃ r ∈ d.ledger.orders, r.clientOrderId = s.clientOrderId ∧ 0 < r.estPrice ∧
      r.qty * r.estPrice ≤ lim.orderMaxKrw) ∧
    ∀ r ∈ d.ledger.orders, counted r = true → spent d.ledger r.tradeDate ≤ lim.orderDailyMaxKrw := by
  have hd : Limited lim d := h.invariant limited_init fun _ _ _ hI hok hs => limited_step hI hok hs
  refine ⟨fun s hs => ?_, hd.bounded⟩
  obtain ⟨r, hr, hc⟩ := hd.once.row s hs
  obtain ⟨_, hest, hone⟩ := hd.sized r hr
  exact ⟨r, hr, hc, hest, hone⟩

/-- A market order of `qty` shares, sized with the quote `unit` and accepted by the broker. -/
def marketOrder (qty unit : Int) : List Label :=
  [.boot 0 none, .run (.arrive ⟨"c1", "005930", .buy, qty, 0⟩), .run (.enter 0 "20260720" 1), .run (.priced unit 2),
   .run (.totalled ⟨0, 0, 0⟩ 3), .run .send, .verdict 0 (.accepted "0000000101")]

theorem limits_hold_market : ∃ d, Run (step ⟨1000000, 5000000⟩ roomyDb) Quoted .init (marketOrder 10 70000) d ∧
    d.sent.length = 1 ∧
    (∀ s ∈ d.sent, ∃ r ∈ d.ledger.orders, r.clientOrderId = s.clientOrderId ∧ 0 < r.estPrice ∧
      r.qty * r.estPrice ≤ 1000000) ∧
    ∀ r ∈ d.ledger.orders, counted r = true → spent d.ledger r.tradeDate ≤ 5000000 := by
  obtain ⟨d, hd, hlen⟩ : ∃ d, Run (step ⟨1000000, 5000000⟩ roomyDb) Quoted .init (marketOrder 10 70000) d ∧
      d.sent.length = 1 :=
    exists_run (by decide +kernel)
  exact ⟨d, hd, hlen, limits_hold hd⟩

/-- A successful reply of the quote service without a price. -/
def emptyQuote : Fields := [(py "rt_cd", .str (py "0")), (py "output", .object [])]

/-- **A quote without a price passes every limit.** The order is sized with 0 and accepted by the broker. -/
theorem empty_quote_is_sent : ∃ unit d, quotePrice wholeFloats emptyQuote = .ok unit ∧
    Run (step ⟨1000000, 5000000⟩ roomyDb) (fun _ lbl => lbl.Brings Request.Formed) .init (marketOrder 1000 unit) d ∧
    ∃ s ∈ d.sent, s.verdict.isAccepted = true ∧ ¬ ∃ r ∈ d.ledger.orders, r.clientOrderId = s.clientOrderId ∧
    0 < r.estPrice := by
  obtain ⟨d, hd, hbad⟩ : ∃ d, Run (step ⟨1000000, 5000000⟩ roomyDb) (fun _ lbl => lbl.Brings Request.Formed) .init
      (marketOrder 1000 0) d ∧
    ∃ s ∈ d.sent, s.verdict.isAccepted = true ∧
      ¬ ∃ r ∈ d.ledger.orders, r.clientOrderId = s.clientOrderId ∧ 0 < r.estPrice := exists_run (by decide +kernel)
  exact ⟨0, d, rfl, hd, hbad⟩

end OrderDesk

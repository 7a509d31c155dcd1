import Mathlib.Algebra.Ring.Int.Defs
import Mathlib.Data.List.Sort
import MarketFeed.Ledger.Schema
/-!
# The ledger's operations (ledger.py:124-405)

Every operation reads the tables under `self._lock` and then writes. `fStmts` is the list of
statements the operation `f` issues on the ledger it finds, `f` the ledger it leaves and its
result. Later reads inside an operation never see rows that its own earlier statements changed,
except where noted, so the statements are a function of the ledger found.
-/

namespace OrderLedger

open Script

/-! ## Queries -/

/-- `SELECT * FROM orders WHERE id=?`. -/
def Ledger.order (l : Ledger) (id : Nat) : Option Order := l.orders.find? (·.id == id)

/-- `by_client_id` (ledger.py:161). -/
def Ledger.byClientId (l : Ledger) (cid : String) : Option Order := l.orders.find? (·.clientOrderId == cid)

/-- `orders` with a trade date (ledger.py:169): newest first, at most `limit`. -/
def Ledger.ordersOf (l : Ledger) (date : String) (limit : Nat) : List Order :=
  ((l.orders.filter (·.tradeDate == date)).reverse).take limit

/-- The rows of one key, `ORDER BY id` (ledger.py:247). -/
def Ledger.rowsOf (l : Ledger) (k : Key) : List Order := l.orders.filter (·.key == k)

/-- `open_order` (ledger.py:177). -/
def Ledger.openOrder (l : Ledger) (k : Key) : Option Order := (l.rowsOf k).find? (·.isOpen)

/-- `keys_to_watch` (ledger.py:184), `SELECT DISTINCT`. -/
def Ledger.keysToWatch (l : Ledger) (date : String) : List (String × Side) :=
  ((l.orders.filter fun o => o.tradeDate == date && !decide (o.state ∈ [.rejected, .notSent])).map
    fun o => (o.symbol, o.side)).dedup

/-- `notional_today` (ledger.py:190). -/
def Ledger.notionalToday (l : Ledger) (date : String) : Int :=
  ((l.orders.filter fun o => o.tradeDate == date && !decide (o.state ∈ [.rejected, .notSent])).map
    fun o => max (o.qty * o.estPrice) o.filledAmt).sum

/-- `totals_baseline` (ledger.py:207). -/
def Ledger.baseline (l : Ledger) (k : Key) : Option Totals := (l.totalsBaseline.find? (·.1 == k)).map (·.2)

/-- `has_holdings_baseline` (ledger.py:219). -/
def Ledger.hasHoldingsBaseline (l : Ledger) (date : String) : Bool :=
  l.holdingsBaselineTaken.any (·.1 == date)

/-- `day_close` (ledger.py:370). -/
def Ledger.dayCloseOf (l : Ledger) (date : String) : Option DayClose := l.dayClose.find? (·.tradeDate == date)

/-! ## Recording and marking orders -/

/-- `new_order` (ledger.py:124-139). -/
def Ledger.newOrderStmts (l : Ledger) (now : Time) (cid : String) (k : Key) (qty price estPrice : Int) : List Stmt :=
  match l.byClientId cid with
  | some _ => []
  | none =>
    [.insertOrder cid k.tradeDate k.symbol k.side qty price (if estPrice = 0 then price else estPrice) now,
     .insertEvent ⟨now, some (l.orderSeq + 1), .orderCreated k.symbol k.side qty price⟩]

/-- The id of the order `new_order` returns. -/
def Ledger.newOrderId (l : Ledger) (cid : String) : Nat :=
  match l.byClientId cid with
  | some o => o.id
  | none => l.orderSeq + 1

/-- `mark` (ledger.py:141-148). -/
def markStmts (now : Time) (id : Nat) (state : OrderState) (odno message : Option String) : List Stmt :=
  [.markOrder id state odno message now, .insertEvent ⟨now, some id, .orderMarked state odno message⟩]

/-- `recover_pending` (ledger.py:150-158). -/
def Ledger.recoverPendingStmts (l : Ledger) (now : Time) : List Stmt :=
  (l.orders.filter (·.state == .pendingSubmit)).flatMap fun o =>
    [.setState o.id .unknown now, .insertEvent ⟨now, some o.id, .recoveredPendingAsUnknown⟩]

/-! ## Baselines -/

/-- `set_totals_baseline` (ledger.py:213). -/
def setTotalsBaselineStmts (k : Key) (totals : Totals) : List Stmt := [.insertTotalsBaseline k totals]

/-- `set_holdings_baseline` (ledger.py:223-231). -/
def Ledger.setHoldingsBaselineStmts (l : Ledger) (now : Time) (date : String) (holdings : List (String × Int)) :
    List Stmt :=
  if l.hasHoldingsBaseline date then []
  else holdings.map (fun h => .insertHolding date h.1 h.2) ++
    [.insertHoldingsTaken date now, .insertEvent ⟨now, none, .holdingsBaseline date holdings⟩]

/-! ## Reconciliation by totals -/

/-- A difference the ledger cannot explain. -/
inductive BreakKind
  | noBaseline
  | unexplainedBrokerOrders (extraQty : Int)
  | ledgerOrdersMissingAtBroker (missingQty : Int)
  | brokerFillsBelowLedger (delta : Int)
  | fillsExceedOrders (delta room : Int)
  | positionMismatch (ledgerQty brokerQty : Int)
  deriving DecidableEq

/-- `side` is absent from a `position_mismatch`. -/
structure Break where
  symbol : String
  side : Option Side
  kind : BreakKind
  deriving DecidableEq

def Key.brk (k : Key) (kind : BreakKind) : Break := ⟨k.symbol, some k.side, kind⟩

def sumQty (os : List Order) : Int := (os.map (·.qty)).sum
def sumFilled (os : List Order) : Int := (os.map (·.filledQty)).sum
def sumAmt (os : List Order) : Int := (os.map (·.filledAmt)).sum

/-- `sum(o["qty"] - o["filled_qty"] for o in os)`. -/
def roomOf (os : List Order) : Int := (os.map fun o => o.qty - o.filledQty).sum

def liveOf (rows : List Order) : List Order := rows.filter fun o => decide (o.state ∈ liveStates)
def unknownOf (rows : List Order) : List Order := rows.filter fun o => decide (o.state = .unknown)

/-- `o["state"] in FILLABLE_STATES and o["filled_qty"] < o["qty"]`. -/
def openLiveOf (live : List Order) : List Order :=
  live.filter fun o => decide (o.state ∈ fillableStates ∧ o.filledQty < o.qty)

/-- `o["state"] = ACCEPTED` on the row read. -/
def Order.accept (o : Order) : Order := { o with state := .accepted }

/-- `sorted(live + unknown, key=lambda o: o["id"])`. -/
def sortById (os : List Order) : List Order := os.insertionSort fun a b => a.id ≤ b.id

/-- What `_apply_totals` has settled before it looks at the fills. -/
structure Resolved where
  stmts : List Stmt
  breaks : List Break
  live : List Order

/-- The UNKNOWN orders against the broker's ordered quantity (ledger.py:250-273); `error` is the
early return of an unexplained broker order. -/
def resolve (now : Time) (k : Key) (bOrd brokerOrdQty : Int) (rows : List Order) : Except (List Break) Resolved :=
  let live := liveOf rows
  let unknown := unknownOf rows
  let extra := bOrd - sumQty live
  if 0 < extra then
    if unknown ≠ [] ∧ sumQty unknown = extra then
      .ok { stmts := unknown.flatMap fun o =>
              [.setState o.id .accepted now, .insertEvent ⟨now, some o.id, .unknownResolvedSent brokerOrdQty⟩]
            breaks := []
            live := sortById (live ++ unknown.map Order.accept) }
    else .error [k.brk (.unexplainedBrokerOrders extra)]
  else
    .ok { stmts := (unknown.filter fun o => decide (unknownGrace < now - o.createdTs)).flatMap fun o =>
            [.setState o.id .notSent now, .insertEvent ⟨now, some o.id, .unknownResolvedNotSent brokerOrdQty⟩]
          breaks := if extra < 0 then [k.brk (.ledgerOrdersMissingAtBroker (-extra))] else []
          live := live }

/-- Python's `round(num / den)` for `0 < den`: to the nearest integer, ties to even. -/
def roundHalfEven (num den : Int) : Int :=
  let q := num / den
  let r := num % den
  if 2 * r < den then q else if den < 2 * r then q + 1 else if q % 2 = 0 then q else q + 1

/-- One share of the executed delta: the row read, and what it takes. -/
structure Share where
  order : Order
  take : Int
  amt : Int

/-- The attribution loop (ledger.py:291-298). -/
def allocate (delta amtDelta : Int) : Int → Int → List Order → List Share
  | _, _, [] => []
  | left, amtLeft, o :: os =>
    if left = 0 then []
    else
      let take := min (o.qty - o.filledQty) left
      let amt := if take = left then amtLeft else roundHalfEven (amtDelta * take) delta
      ⟨o, take, amt⟩ :: allocate delta amtDelta (left - take) (amtLeft - amt) os

/-- The statements that write one share (ledger.py:299-305). -/
def Share.stmts (now : Time) (s : Share) : List Stmt :=
  let filled := s.order.filledQty + s.take
  [.insertFill ⟨s.order.id, s.take, s.amt, .dayTotals, now⟩,
   .updateFill s.order.id filled s.amt (if filled = s.order.qty then .filled else .partlyFilled) now,
   .insertEvent ⟨now, some s.order.id, .fill s.take s.amt .dayTotals⟩]

/-- `SUM(qty)` of the notice fills of these orders newer than the grace time (ledger.py:278-281). -/
def Ledger.recentNotices (l : Ledger) (now : Time) (live : List Order) : Int :=
  ((l.noticeFills.filter fun n => decide (now - noticeGrace < n.ts ∧ n.orderId ∈ live.map (·.id))).map (·.qty)).sum

/-- The executed delta against the live orders (ledger.py:275-306). -/
def Ledger.attribute (l : Ledger) (now : Time) (k : Key) (bFill bAmt : Int) (live : List Order) :
    List Share × List Break :=
  let delta := bFill - sumFilled live
  let amtDelta := bAmt - sumAmt live
  if delta < 0 then
    if -delta ≤ l.recentNotices now live then ([], []) else ([], [k.brk (.brokerFillsBelowLedger delta)])
  else if delta = 0 then ([], [])
  else
    let openLive := openLiveOf live
    if roomOf openLive < delta then ([], [k.brk (.fillsExceedOrders delta (roomOf openLive))])
    else (allocate delta amtDelta delta amtDelta openLive, [])

/-- What `_apply_totals` writes and returns (ledger.py:239-306), split into the resolution of the
UNKNOWN orders and the shares of the executed delta. -/
structure TotalsPlan where
  resolved : List Stmt
  shares : List Share
  breaks : List Break

def Ledger.totalsPlan (l : Ledger) (now : Time) (k : Key) (broker : Totals) : TotalsPlan :=
  match l.baseline k with
  | none => ⟨[], [], [k.brk .noBaseline]⟩
  | some base =>
    match resolve now k (broker.ordQty - base.ordQty) broker.ordQty (l.rowsOf k) with
    | .error breaks => ⟨[], [], breaks⟩
    | .ok r =>
      let a := l.attribute now k (broker.ccldQty - base.ccldQty) (broker.ccldAmt - base.ccldAmt) r.live
      ⟨r.stmts, a.1, r.breaks ++ a.2⟩

/-- `apply_totals` (ledger.py:234): its statements. -/
def Ledger.applyTotalsStmts (l : Ledger) (now : Time) (k : Key) (broker : Totals) : List Stmt :=
  (l.totalsPlan now k broker).resolved ++ (l.totalsPlan now k broker).shares.flatMap (Share.stmts now)

/-- `apply_totals`: the breaks it returns. -/
def Ledger.applyTotalsBreaks (l : Ledger) (now : Time) (k : Key) (broker : Totals) : List Break :=
  (l.totalsPlan now k broker).breaks

/-! ## Execution notices -/

/-- `s.lstrip("0")`. -/
def stripZeros (s : String) : List Char := s.toList.dropWhile (· == '0')

def Order.hasOdno (o : Order) (odno : String) : Bool :=
  match o.odno with
  | some n => decide (stripZeros n = stripZeros odno)
  | none => false

/-- The order a notice names (ledger.py:317-320). -/
def Ledger.byOdno (l : Ledger) (date odno : String) : Option Order :=
  l.orders.find? fun o => o.tradeDate == date && o.hasOdno odno

inductive NoticeResult | applied | duplicate | unmatched | ignored
  deriving DecidableEq

/-- The guard of `ignored` (ledger.py:324), negated. -/
def Order.takesNotice (o : Order) (qty : Int) : Bool :=
  decide (o.state ∈ fillableStates ∧ 0 < qty ∧ qty ≤ o.qty - o.filledQty)

/-- The statements of an applied notice (ledger.py:327-334). -/
def noticeStmts (now : Time) (o : Order) (qty price : Int) (key : String) : List Stmt :=
  let filled := o.filledQty + qty
  let amt := qty * price
  [.insertNotice ⟨key, o.id, qty, amt, now⟩,
   .insertFill ⟨o.id, qty, amt, .notice, now⟩,
   .updateFill o.id filled amt (if filled = o.qty then .filled else .partlyFilled) now,
   .insertEvent ⟨now, some o.id, .fill qty amt .notice⟩]

/-- `apply_notice` (ledger.py:308-335). -/
def Ledger.applyNotice (l : Ledger) (now : Time) (date odno : String) (qty price : Int) (key : String) :
    List Stmt × NoticeResult :=
  if l.noticeFills.any (·.key == key) then ([], .duplicate)
  else match l.byOdno date odno with
    | none => ([.insertEvent ⟨now, none, .noticeUnmatched odno qty price⟩], .unmatched)
    | some o =>
      if o.takesNotice qty then (noticeStmts now o qty price key, .applied)
      else ([.insertEvent ⟨now, some o.id, .noticeIgnored qty price o.state⟩], .ignored)

/-! ## Holdings -/

/-- `pos.get(sym, 0)` of `expected_holdings` (ledger.py:340-348). -/
def Ledger.expectedHolding (l : Ledger) (date sym : String) : Int :=
  ((l.holdingsBaseline.filter fun h => h.1 == date && h.2.1 == sym).map (·.2.2)).sum +
  ((l.orders.filter fun o => o.tradeDate == date && o.symbol == sym).map fun o =>
    if o.side = .buy then o.filledQty else -o.filledQty).sum

/-- `recent.get(sym, 0)` of `reconcile_holdings` (ledger.py:353-358). -/
def Ledger.recentHolding (l : Ledger) (now : Time) (date sym : String) : Int :=
  (l.noticeFills.map fun n => match l.order n.orderId with
    | some o =>
      if o.tradeDate = date ∧ o.symbol = sym ∧ now - noticeGrace < n.ts then
        if o.side = .buy then n.qty else -n.qty
      else 0
    | none => 0).sum

/-- `broker.get(sym, 0)`. -/
def holdingOf (holdings : List (String × Int)) (sym : String) : Int :=
  ((holdings.find? (·.1 == sym)).map (·.2)).getD 0

/-- `reconcile_holdings` (ledger.py:350-367). -/
def Ledger.reconcileHoldings (l : Ledger) (now : Time) (date : String) (broker : List (String × Int)) : List Break :=
  let known := (l.holdingsBaseline.filter (·.1 == date)).map (·.2.1) ++
    (l.orders.filter (·.tradeDate == date)).map (·.symbol)
  let syms := (known.filter fun s => l.expectedHolding date s != 0) ++ broker.map (·.1)
  (syms.dedup.insertionSort (· ≤ ·)).filterMap fun s =>
    let diff := l.expectedHolding date s - holdingOf broker s
    let pending := l.recentHolding now date s
    if diff = 0 ∨ (0 < diff * pending ∧ diff.natAbs ≤ pending.natAbs) then none
    else some ⟨s, none, .positionMismatch (l.expectedHolding date s) (holdingOf broker s)⟩

/-! ## Closing the day -/

/-- `limit=100_000` in `close_day`. -/
def closeLimit : Nat := 100000

inductive CloseResult
  | closed (row : DayClose)
  | unknownOrders (ids : List Nat)
  | breaks (openBreaks : Nat)
  deriving DecidableEq

def expirable (rows : List Order) : List Order := rows.filter fun o => decide (o.state ∈ fillableStates)

def unresolved (rows : List Order) : List Order :=
  rows.filter fun o => decide (o.state ∈ [OrderState.pendingSubmit, .unknown])

/-- The day's result (ledger.py:392-401), over the rows read before anything expired. -/
def summarize (rows : List Order) : CloseSummary where
  ordersSent := (liveOf rows).length
  ordersRejected := rows.countP (·.state == .rejected)
  ordersNotSent := rows.countP (·.state == .notSent)
  filledQty := sumFilled (liveOf rows)
  filledAmt := sumAmt (liveOf rows)
  expiredOrders := (expirable rows).length
  expiredQty := roomOf (expirable rows)

/-- `_set_state(EXPIRED)` and its event, for each order that could still fill. -/
def expireStmts (now : Time) (rows : List Order) : List Stmt :=
  (expirable rows).flatMap fun o =>
    [.setState o.id .expired now, .insertEvent ⟨now, some o.id, .orderExpired (o.qty - o.filledQty)⟩]

/-- `close_day` (ledger.py:375-405). -/
def Ledger.closeDay (l : Ledger) (now : Time) (date : String) (openBreaks : Nat) : List Stmt × CloseResult :=
  match l.dayCloseOf date with
  | some row => ([], .closed row)
  | none =>
    let rows := l.ordersOf date closeLimit
    if unresolved rows ≠ [] then ([], .unknownOrders ((unresolved rows).map (·.id)))
    else if openBreaks ≠ 0 then ([], .breaks openBreaks)
    else
      let row : DayClose := ⟨date, now, summarize rows⟩
      (expireStmts now rows ++ [.insertDayClose row, .insertEvent ⟨now, none, .dayClosed date row.summary⟩],
        .closed row)

/-! ## Calls -/

/-- A call of one of the ledger's writing operations, with its arguments. -/
inductive Call
  | newOrder (now : Time) (clientOrderId : String) (key : Key) (qty price estPrice : Int)
  | mark (now : Time) (id : Nat) (state : OrderState) (odno message : Option String)
  | recoverPending (now : Time)
  | setTotalsBaseline (key : Key) (totals : Totals)
  | setHoldingsBaseline (now : Time) (tradeDate : String) (holdings : List (String × Int))
  | applyTotals (now : Time) (key : Key) (broker : Totals)
  | applyNotice (now : Time) (tradeDate odno : String) (qty price : Int) (noticeKey : String)
  | closeDay (now : Time) (tradeDate : String) (openBreaks : Nat)
  deriving DecidableEq

/-- The statements a call issues on the ledger it finds. -/
def Call.stmts (l : Ledger) : Call → List Stmt
  | .newOrder now cid k qty price est => l.newOrderStmts now cid k qty price est
  | .mark now id state odno message => markStmts now id state odno message
  | .recoverPending now => l.recoverPendingStmts now
  | .setTotalsBaseline k totals => setTotalsBaselineStmts k totals
  | .setHoldingsBaseline now date holdings => l.setHoldingsBaselineStmts now date holdings
  | .applyTotals now k broker => l.applyTotalsStmts now k broker
  | .applyNotice now date odno qty price key => (l.applyNotice now date odno qty price key).1
  | .closeDay now date openBreaks => (l.closeDay now date openBreaks).1

/-- The ledger after a completed call. -/
def Ledger.call (l : Ledger) (c : Call) : Ledger := l.execAll (c.stmts l)

end OrderLedger

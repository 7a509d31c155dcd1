import MarketFeed.Lib.Txn
/-!
# The order ledger's tables and statements (ledger.py:35-101, :105-114)

`Ledger` is the SQLite database of `SCHEMA`, one list per table, rows in rowid order. The
connection is opened with `isolation_level=None` and no statement of ledger.py begins a
transaction, so every `Stmt` commits alone (`Ledger.exec`); an operation is a list of them
(Ops.lean) and a crash cuts that list.

| here | there |
| --- | --- |
| `OrderState`, `openStates`, `liveStates`, `fillableStates` | the state constants (`ledger.py:35-46`); `partlyFilled` is `PARTIAL` |
| `Order`, `Fill`, `NoticeFill`, `DayClose`, `Event` | rows of `orders`, `fills`, `notice_fills`, `day_close`, `events` |
| `Time` | a reading of `time.time()`, in microseconds; an operation reads it once |
| `Event.detail` | the keyword arguments of `_event`, before `json.dumps` |
-/

namespace OrderLedger

open Script

abbrev Time := Int

/-- `CHECK (side IN ('buy', 'sell'))`. -/
inductive Side | buy | sell
  deriving DecidableEq

inductive OrderState
  | pendingSubmit | accepted | partlyFilled | filled | rejected | unknown | notSent | expired
  deriving DecidableEq

/-- `OPEN_STATES`. -/
def openStates : List OrderState := [.pendingSubmit, .accepted, .partlyFilled, .unknown]

/-- `LIVE_STATES`: the order is certainly at the broker. -/
def liveStates : List OrderState := [.accepted, .partlyFilled, .filled, .expired]

/-- `FILLABLE_STATES`: live, and may still take fills. -/
def fillableStates : List OrderState := [.accepted, .partlyFilled]

/-- `UNKNOWN_GRACE_S = 30.0`. -/
def unknownGrace : Time := 30000000

/-- `NOTICE_GRACE_S = 60.0`. -/
def noticeGrace : Time := 60000000

/-- (trade date, symbol, side): the granularity of the broker's day totals. -/
structure Key where
  tradeDate : String
  symbol : String
  side : Side
  deriving DecidableEq

structure Order where
  id : Nat
  clientOrderId : String
  tradeDate : String
  symbol : String
  side : Side
  qty : Int
  price : Int
  estPrice : Int
  state : OrderState
  odno : Option String
  message : Option String
  filledQty : Int
  filledAmt : Int
  createdTs : Time
  updatedTs : Time
  deriving DecidableEq

def Order.key (o : Order) : Key := ⟨o.tradeDate, o.symbol, o.side⟩

def Order.isOpen (o : Order) : Bool := decide (o.state ∈ openStates)

/-- `fills.source`. -/
inductive FillSource | dayTotals | notice
  deriving DecidableEq

structure Fill where
  orderId : Nat
  qty : Int
  amt : Int
  source : FillSource
  ts : Time
  deriving DecidableEq

/-- Cumulative day totals of a key, as the broker reports them. -/
structure Totals where
  ordQty : Int
  ccldQty : Int
  ccldAmt : Int
  deriving DecidableEq

structure NoticeFill where
  key : String
  orderId : Nat
  qty : Int
  amt : Int
  ts : Time
  deriving DecidableEq

/-- The summary `close_day` stores as JSON. -/
structure CloseSummary where
  ordersSent : Nat
  ordersRejected : Nat
  ordersNotSent : Nat
  filledQty : Int
  filledAmt : Int
  expiredOrders : Nat
  expiredQty : Int
  deriving DecidableEq

structure DayClose where
  tradeDate : String
  ts : Time
  summary : CloseSummary
  deriving DecidableEq

inductive EventDetail
  | orderCreated (symbol : String) (side : Side) (qty price : Int)
  | orderMarked (state : OrderState) (odno message : Option String)
  | recoveredPendingAsUnknown
  | holdingsBaseline (tradeDate : String) (holdings : List (String × Int))
  | unknownResolvedSent (brokerOrdQty : Int)
  | unknownResolvedNotSent (brokerOrdQty : Int)
  | fill (qty amt : Int) (source : FillSource)
  | noticeUnmatched (odno : String) (qty price : Int)
  | noticeIgnored (qty price : Int) (state : OrderState)
  | orderExpired (unfilledQty : Int)
  | dayClosed (tradeDate : String) (summary : CloseSummary)
  deriving DecidableEq

structure Event where
  ts : Time
  orderId : Option Nat
  detail : EventDetail
  deriving DecidableEq

structure Ledger where
  orders : List Order
  /-- `sqlite_sequence` of `orders`: the last id given out (`AUTOINCREMENT`). -/
  orderSeq : Nat
  fills : List Fill
  totalsBaseline : List (Key × Totals)
  holdingsBaseline : List (String × String × Int)
  holdingsBaselineTaken : List (String × Time)
  noticeFills : List NoticeFill
  dayClose : List DayClose
  events : List Event
  deriving DecidableEq

/-- A ledger file just created by `executescript(SCHEMA)`. -/
def Ledger.empty : Ledger := ⟨[], 0, [], [], [], [], [], [], []⟩

/-! ## Statements -/

/-- The writing statements of ledger.py. -/
inductive Stmt
  /-- `INSERT INTO orders`, state `PENDING_SUBMIT`. -/
  | insertOrder (clientOrderId tradeDate symbol : String) (side : Side) (qty price estPrice : Int) (now : Time)
  /-- `UPDATE orders SET state=?, odno=COALESCE(?, odno), message=COALESCE(?, message), updated_ts=?`. -/
  | markOrder (id : Nat) (state : OrderState) (odno message : Option String) (now : Time)
  /-- `UPDATE orders SET state=?, updated_ts=?`. -/
  | setState (id : Nat) (state : OrderState) (now : Time)
  /-- `UPDATE orders SET filled_qty=?, filled_amt=filled_amt+?, state=?, updated_ts=?`. -/
  | updateFill (id : Nat) (filled amt : Int) (state : OrderState) (now : Time)
  | insertFill (fill : Fill)
  | insertNotice (notice : NoticeFill)
  /-- `INSERT OR IGNORE INTO totals_baseline`. -/
  | insertTotalsBaseline (key : Key) (totals : Totals)
  | insertHolding (tradeDate symbol : String) (qty : Int)
  | insertHoldingsTaken (tradeDate : String) (now : Time)
  | insertDayClose (row : DayClose)
  | insertEvent (event : Event)
  deriving DecidableEq

/-- What an `UPDATE orders … WHERE id=?` does to one row. -/
def Stmt.onRow (s : Stmt) (r : Order) : Order :=
  match s with
  | .markOrder id state odno message now =>
    if r.id = id then
      { r with state := state, odno := odno <|> r.odno, message := message <|> r.message, updatedTs := now }
    else r
  | .setState id state now => if r.id = id then { r with state := state, updatedTs := now } else r
  | .updateFill id filled amt state now =>
    if r.id = id then { r with filledQty := filled, filledAmt := r.filledAmt + amt, state := state, updatedTs := now }
    else r
  | _ => r

/-- One statement. An insert that would break a `UNIQUE` or `PRIMARY KEY` fails as a statement and
writes nothing; every operation checks for the row first, under the ledger's lock. -/
def Ledger.exec (l : Ledger) : Stmt → Ledger
  | .insertOrder cid date sym side qty price est now =>
    if l.orders.any (·.clientOrderId == cid) then l
    else { l with
      orders := l.orders ++ [⟨l.orderSeq + 1, cid, date, sym, side, qty, price, est, .pendingSubmit, none, none,
        0, 0, now, now⟩]
      orderSeq := l.orderSeq + 1 }
  | .insertFill f => { l with fills := l.fills ++ [f] }
  | .insertNotice n =>
    if l.noticeFills.any (·.key == n.key) then l else { l with noticeFills := l.noticeFills ++ [n] }
  | .insertTotalsBaseline k t =>
    if l.totalsBaseline.any (·.1 == k) then l else { l with totalsBaseline := l.totalsBaseline ++ [(k, t)] }
  | .insertHolding date sym qty => { l with holdingsBaseline := l.holdingsBaseline ++ [(date, sym, qty)] }
  | .insertHoldingsTaken date now =>
    { l with holdingsBaselineTaken := l.holdingsBaselineTaken ++ [(date, now)] }
  | .insertDayClose row =>
    if l.dayClose.any (·.tradeDate == row.tradeDate) then l else { l with dayClose := l.dayClose ++ [row] }
  | .insertEvent e => { l with events := l.events ++ [e] }
  | s => { l with orders := l.orders.map s.onRow }

/-- The statements of one operation, in order. -/
def Ledger.execAll (l : Ledger) (ss : List Stmt) : Ledger := runScript Ledger.exec l ss

end OrderLedger

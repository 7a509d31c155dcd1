import MarketFeed.Lib.Run
import MarketFeed.Ledger.Fills
import MarketFeed.Ledger.OneOpen
/-!
# The ledger against the broker's book (kis_notice.py:1-9, :70-83, ledger.py:234-335)

Two sources move `filled_qty`: a notice adds one execution to the order it names, a reconcile adds
to the open order whatever the day totals have more than the ledger. `Venue` is the ledger beside
the broker: the orders in its book (the desk's and others'), and its executions in the order they
happened. A notice of any execution may be delivered at any time, any number of times and under any
spelling of its order number; day totals are those of any earlier moment (`take n`).

`Exec.absorbed` records that a reconcile booked totals which contain the execution. A notice of it
that comes later and still finds room is then counted a second time; no key of `notice_fills`
stands against it. `timely` excludes that delivery, and totals whose unbooked part belongs to
someone else; under it no execution is counted twice.
-/

namespace OrderLedger

open Script Lts Total

/-- An order in the broker's book; `owner` is the client order id whose request it came from, `none`
an order placed elsewhere. -/
structure BrokerOrder where
  key : Key
  odno : String
  qty : Int
  owner : Option String
  deriving DecidableEq

structure Exec where
  order : BrokerOrder
  qty : Int
  price : Int
  time : String
  absorbed : Bool
  deriving DecidableEq

/-- `Notice.key` (kis_notice.py:83). -/
def noticeKey (odno time : String) (qty price : Int) : String :=
  s!"{String.ofList (stripZeros odno)}|{time}|{qty}|{price}"

def Exec.noticeKey (e : Exec) : String := OrderLedger.noticeKey e.order.odno e.time e.qty e.price

/-- The execution is in totals that were booked. -/
def Exec.absorb (k : Key) (e : Exec) : Exec := if e.order.key = k then { e with absorbed := true } else e

def absorbFirst (k : Key) (n : Nat) (es : List Exec) : List Exec := (es.take n).map (Exec.absorb k) ++ es.drop n

structure Venue where
  ledger : Ledger
  book : List BrokerOrder
  execs : List Exec
  deriving DecidableEq

def Venue.init : Venue := ⟨.empty, [], []⟩

/-- What the broker has executed for a client order. -/
def Venue.executedFor (st : Venue) (cid : String) : Int := total (·.order.owner == some cid) (·.qty) st.execs

/-- What the broker has executed for a key. -/
def Venue.executedIn (st : Venue) (k : Key) : Int := total (·.order.key == k) (·.qty) st.execs

/-- Day totals of a key after the first `n` executions. Cancellations move the ordered quantity, so
it is not tied to the book; no quantity below depends on it or on the amount. -/
def Venue.dayTotals (st : Venue) (k : Key) (n : Nat) (ordQty ccldAmt : Int) : Totals :=
  ⟨ordQty, total (·.order.key == k) (·.qty) (st.execs.take n), ccldAmt⟩

/-- The part of those totals that belongs to other orders than `cid`. -/
def Venue.ccldOthers (st : Venue) (k : Key) (n : Nat) (cid : String) : Int :=
  total (fun e => e.order.key == k && !(e.order.owner == some cid)) (·.qty) (st.execs.take n)

inductive VenueAct
  /-- The broker takes an order into its book. -/
  | accept (order : BrokerOrder)
  | execute (order : BrokerOrder) (qty price : Int) (time : String)
  /-- `set_totals_baseline`, before the desk's first order of the key. -/
  | baseline (key : Key) (n : Nat) (ordQty ccldAmt : Int)
  /-- `new_order`, under the desk's rule of one open order per key. -/
  | record (now : Time) (clientOrderId : String) (key : Key) (qty price estPrice : Int)
  /-- `mark` with the outcome of the order request. -/
  | mark (now : Time) (id : Nat) (state : OrderState) (odno message : Option String)
  | recoverPending (now : Time)
  | closeDay (now : Time) (tradeDate : String) (openBreaks : Nat)
  /-- A notice of execution `i` is delivered and filed under `tradeDate`. -/
  | notice (now : Time) (i : Nat) (tradeDate odno : String)
  | reconcile (now : Time) (key : Key) (n : Nat) (ordQty ccldAmt : Int)
  deriving DecidableEq

/-- The outcomes the desk marks (order_desk.py:308-320): ACCEPTED with the broker's order number for
this client order, REJECTED or UNKNOWN without one. -/
def Venue.outcome (st : Venue) (cid : String) (state : OrderState) (odno : Option String) : Bool :=
  match odno with
  | some x => state == .accepted && st.book.any fun b => b.owner == some cid && b.odno == x
  | none => state == .rejected || state == .unknown

/-- Would `_apply_totals` book the executed delta (ledger.py:275-288)? -/
def Ledger.attributes (l : Ledger) (now : Time) (k : Key) (broker : Totals) : Bool :=
  match l.baseline k with
  | none => false
  | some base =>
    match resolve now k (broker.ordQty - base.ordQty) broker.ordQty (l.rowsOf k) with
    | .error _ => false
    | .ok r =>
      let delta := broker.ccldQty - base.ccldQty - sumFilled r.live
      decide (0 < delta ∧ delta ≤ roomOf (openLiveOf r.live))

/-- Would `apply_notice` attach the notice (ledger.py:315-324)? -/
def Ledger.noticeLands (l : Ledger) (date odno : String) (qty : Int) (key : String) : Bool :=
  !l.noticeFills.any (·.key == key) &&
    match l.byOdno date odno with
    | some o => o.takesNotice qty
    | none => false

def Venue.withLedger (st : Venue) (l : Ledger) : Venue := { st with ledger := l }

def venueStep (st : Venue) : VenueAct → Option Venue
  | .accept bo =>
    if (∀ b ∈ st.book, b.key.tradeDate = bo.key.tradeDate → stripZeros b.odno ≠ stripZeros bo.odno) ∧
        ∀ cid ∈ bo.owner, ∃ r ∈ st.ledger.orders, r.clientOrderId = cid ∧ r.key = bo.key
    then some { st with book := st.book ++ [bo] } else none
  | .execute bo qty price time =>
    if bo ∈ st.book ∧ 0 < qty then some { st with execs := st.execs ++ [⟨bo, qty, price, time, false⟩] } else none
  | .baseline k n ordQty ccldAmt =>
    if st.ledger.rowsOf k = [] then
      some (st.withLedger (st.ledger.call (.setTotalsBaseline k (st.dayTotals k n ordQty ccldAmt))))
    else none
  | .record now cid k qty price est =>
    if st.ledger.openOrder k = none then some (st.withLedger (st.ledger.call (.newOrder now cid k qty price est)))
    else none
  | .mark now id state odno message =>
    if ∃ r ∈ st.ledger.orders, r.id = id ∧ r.state = .pendingSubmit ∧ st.outcome r.clientOrderId state odno = true then
      some (st.withLedger (st.ledger.call (.mark now id state odno message)))
    else none
  | .recoverPending now => some (st.withLedger (st.ledger.call (.recoverPending now)))
  | .closeDay now date openBreaks => some (st.withLedger (st.ledger.call (.closeDay now date openBreaks)))
  | .notice now i date odno =>
    match st.execs[i]? with
    | none => none
    | some e =>
      if stripZeros odno = stripZeros e.order.odno then
        some (st.withLedger (st.ledger.call
          (.applyNotice now date odno e.qty e.price (noticeKey odno e.time e.qty e.price))))
      else none
  | .reconcile now k n ordQty ccldAmt =>
    let broker := st.dayTotals k n ordQty ccldAmt
    some { st with
      ledger := st.ledger.call (.applyTotals now k broker)
      execs := if st.ledger.attributes now k broker then absorbFirst k n st.execs else st.execs }

/-- A notice that would be attached is of an execution no booked totals contain, filed under its
own trade date; totals that would be booked hold, beyond the baseline and what the key's other
orders have booked, executions of the open order only. -/
def timely (st : Venue) : VenueAct → Prop
  | .notice _ i date odno => ∀ e ∈ st.execs[i]?,
    st.ledger.noticeLands date odno e.qty (noticeKey odno e.time e.qty e.price) = true →
      e.absorbed = false ∧ date = e.order.key.tradeDate
  | .reconcile now k n ordQty ccldAmt => st.ledger.attributes now k (st.dayTotals k n ordQty ccldAmt) = true →
    ∀ t ∈ st.ledger.openOrder k, ∀ base ∈ st.ledger.baseline k,
      st.ccldOthers k n t.clientOrderId ≤
        base.ccldQty + total (fun o => !(o.id == t.id)) (·.filledQty) (liveOf (st.ledger.rowsOf k))
  | _ => True

instance (st : Venue) (a : VenueAct) : Decidable (timely st a) := by
  cases a <;> unfold timely <;> infer_instance

end OrderLedger

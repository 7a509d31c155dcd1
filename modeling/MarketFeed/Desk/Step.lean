import MarketFeed.Lib.Run
import MarketFeed.Desk.Client
/-!
# The order desk as a transition system (order_desk.py:132-150, :201-217, :268-392)

The desk is one process on one event loop: between two `await`s a coroutine runs alone, so a step is
the segment of one coroutine from one `await` to the next, and any suspended coroutine may take the
next step. `submit` holds `_submit_lock` from its first check to its end; the submits before it wait.
The `reconcile_loop` is the other coroutine; an execution notice is handled in one segment.

What survives the process is the ledger file, and at the broker the requests that were sent. A step
may die after any number of its statements (`DeskLabel.crash`), the process may die while everything
is suspended (`die`), and `boot` starts a new one with `recover_pending`.

| here | there |
| --- | --- |
| `Stage` | the `await` at which the submit holding the lock is suspended: the price, the day totals, inside `client.order` before and after the HTTP request goes out |
| `Recon` | the `await` of `reconcile_once` |
| `Act.leave`, `Act.abandon` | an exception, a cancellation or an early return at an `await`, before anything more is written |
| `Sent` | one HTTP order request, with the broker's verdict on it; the reply may never arrive |
| `Sent.recorded`, `Sent.dayClosed`, `Created.dayClosed` | what the ledger said at the moment of the request or of the `INSERT` |
-/

namespace OrderDesk

open OrderLedger Lts

/-- A submit past the format checks (order_desk.py:269-279). -/
structure Request where
  clientOrderId : String
  symbol : String
  side : Side
  qty : Int
  price : Int
  deriving DecidableEq

def Request.key (q : Request) (day : String) : Key := ⟨day, q.symbol, q.side⟩

/-- `order_max_krw`, `order_daily_max_krw`. -/
structure Limits where
  orderMaxKrw : Int
  orderDailyMaxKrw : Int

inductive Stage
  | pricing (day : String)
  | baselining (day : String) (unit : Int)
  | ordering (day : String) (id : Nat) (retried : Bool)
  | sending (day : String) (id : Nat) (retried : Bool) (j : Nat)
  deriving DecidableEq

structure Holder where
  req : Request
  stage : Stage
  deriving DecidableEq

inductive Recon
  | idle
  | holdings (day : String)
  | totals (day : String) (keys : List (String × Side)) (found : List Break)
  | balance (day : String) (found : List Break)
  deriving DecidableEq

/-- The memory of the process. -/
structure Proc where
  waiting : List Request
  holder : Option Holder
  recon : Recon
  deriving DecidableEq

def Proc.fresh : Proc := ⟨[], none, .idle⟩

inductive Verdict
  | underway
  | accepted (odno : String)
  | rejected
  | throttled
  deriving DecidableEq

structure Sent where
  clientOrderId : String
  verdict : Verdict
  recorded : Bool
  dayClosed : Bool
  deriving DecidableEq

structure Created where
  tradeDate : String
  dayClosed : Bool
  deriving DecidableEq

structure Desk where
  ledger : Ledger
  proc : Option Proc
  sent : List Sent
  created : List Created
  deriving DecidableEq

def Desk.init : Desk := ⟨.empty, none, [], []⟩

/-! ## The segments of `submit` -/

/-- `new_order`, on to `client.order` (order_desk.py:307-309). -/
def Request.place (q : Request) (l : Ledger) (now : Time) (day : String) (unit : Int) : List Stmt × Option Stage :=
  (l.newOrderStmts now q.clientOrderId (q.key day) q.qty q.price unit,
    some (.ordering day (l.newOrderId q.clientOrderId) false))

/-- With the price at hand: the limits and the baseline (order_desk.py:291-301). -/
def Request.priced (q : Request) (lim : Limits) (l : Ledger) (now : Time) (day : String) (unit : Int) :
    List Stmt × Option Stage :=
  let notional := unit * q.qty
  if lim.orderMaxKrw < notional then ([], none)
  else if lim.orderDailyMaxKrw < l.notionalToday day + notional then ([], none)
  else match l.baseline (q.key day) with
    | some _ => q.place l now day unit
    | none => ([], some (.baselining day unit))

/-- With the lock: the checks (order_desk.py:281-289). -/
def Request.enter (q : Request) (lim : Limits) (l : Ledger) (now : Time) (day : String) : List Stmt × Option Stage :=
  if (l.byClientId q.clientOrderId).isSome then ([], none)
  else if (l.dayCloseOf day).isSome then ([], none)
  else if (l.openOrder (q.key day)).isSome then ([], none)
  else if q.price ≠ 0 then q.priced lim l now day q.price
  else ([], some (.pricing day))

/-- With the day totals at hand (order_desk.py:302-307). -/
def Request.totalled (q : Request) (l : Ledger) (now : Time) (day : String) (unit : Int) (totals : Totals) :
    List Stmt × Option Stage :=
  (setTotalsBaselineStmts (q.key day) totals ++ (q.place l now day unit).1, (q.place l now day unit).2)

/-! ## Steps -/

inductive Act
  | arrive (q : Request)
  | enter (i : Nat) (day : String) (now : Time)
  | priced (unit : Int) (now : Time)
  | totalled (totals : Totals) (now : Time)
  | send
  /-- `_call_once` returns or raises. -/
  | answer (result : Py Fields) (now : Time)
  | leave
  | abandon (i : Nat)
  | startReconcile (day : String)
  | gotHoldings (holdings : List (String × Int)) (now : Time)
  | gotTotals (totals : Totals) (now : Time)
  /-- `closing`: the date `_maybe_close` closes, after `DAY_CLOSE_AT`. -/
  | gotBalance (holdings : List (String × Int)) (now : Time) (closing : Option String)
  | reconcileFailed
  | notice (now : Time) (tradeDate odno : String) (qty price : Int) (key : String)

/-- A throttling reply is given to throttled requests only. -/
def genuine (v : Verdict) : Py Fields → Bool
  | .error (.rejected code _) => !throttled code || v == .throttled
  | _ => true

/-- The next key of `reconcile_once`, or the balance (order_desk.py:337-342). -/
def Recon.next (day : String) (keys : List (String × Side)) (found : List Break) : Recon :=
  match keys with
  | [] => .balance day found
  | _ :: _ => .totals day keys found

def Proc.withStage (p : Proc) (q : Request) (stage : Option Stage) : Proc :=
  { p with holder := stage.map (⟨q, ·⟩) }

variable (lim : Limits) (db : Db)

/-- A segment: the statements it issues, the memory and the requests it leaves. -/
def act (d : Desk) (p : Proc) : Act → Option (List Stmt × Proc × List Sent)
  | .arrive q => some ([], { p with waiting := p.waiting ++ [q] }, d.sent)
  | .enter i day now =>
    match p.holder, p.waiting[i]? with
    | none, some q =>
      let seg := q.enter lim d.ledger now day
      some (seg.1, { p with waiting := p.waiting.eraseIdx i }.withStage q seg.2, d.sent)
    | _, _ => none
  | .priced unit now =>
    match p.holder with
    | some ⟨q, .pricing day⟩ =>
      let seg := q.priced lim d.ledger now day unit
      some (seg.1, p.withStage q seg.2, d.sent)
    | _ => none
  | .totalled totals now =>
    match p.holder with
    | some ⟨q, .baselining day unit⟩ =>
      let seg := q.totalled d.ledger now day unit totals
      some (seg.1, p.withStage q seg.2, d.sent)
    | _ => none
  | .send =>
    match p.holder with
    | some ⟨q, .ordering day id retried⟩ =>
      some ([], p.withStage q (some (.sending day id retried d.sent.length)),
        d.sent ++ [⟨q.clientOrderId, .underway, (d.ledger.byClientId q.clientOrderId).isSome,
          (d.ledger.dayCloseOf day).isSome⟩])
    | _ => none
  | .answer result now =>
    match p.holder with
    | some ⟨q, .sending day id retried j⟩ =>
      match d.sent[j]? with
      | some s =>
        if genuine s.verdict result then
          if repeats retried result then some ([], p.withStage q (some (.ordering day id true)), d.sent)
          else some (finish db now id (result.bind readOrder), p.withStage q none, d.sent)
        else none
      | none => none
    | _ => none
  | .leave =>
    match p.holder with
    | some _ => some ([], { p with holder := none }, d.sent)
    | none => none
  | .abandon i => some ([], { p with waiting := p.waiting.eraseIdx i }, d.sent)
  | .startReconcile day =>
    match p.recon with
    | .idle =>
      if d.ledger.hasHoldingsBaseline day then
        some ([], { p with recon := .next day (d.ledger.keysToWatch day) [] }, d.sent)
      else some ([], { p with recon := .holdings day }, d.sent)
    | _ => none
  | .gotHoldings holdings now =>
    match p.recon with
    | .holdings day =>
      some (d.ledger.setHoldingsBaselineStmts now day holdings,
        { p with recon := .next day (d.ledger.keysToWatch day) [] }, d.sent)
    | _ => none
  | .gotTotals totals now =>
    match p.recon with
    | .totals day (k :: keys) found =>
      some (d.ledger.applyTotalsStmts now ⟨day, k.1, k.2⟩ totals,
        { p with recon := .next day keys (found ++ d.ledger.applyTotalsBreaks now ⟨day, k.1, k.2⟩ totals) }, d.sent)
    | _ => none
  | .gotBalance holdings now closing =>
    match p.recon with
    | .balance day found =>
      let breaks := found ++ d.ledger.reconcileHoldings now day holdings
      match closing with
      | none => some ([], { p with recon := .idle }, d.sent)
      | some date => some ((d.ledger.closeDay now date breaks.length).1, { p with recon := .idle }, d.sent)
    | _ => none
  | .reconcileFailed => some ([], { p with recon := .idle }, d.sent)
  | .notice now date odno qty price key => some ((d.ledger.applyNotice now date odno qty price key).1, p, d.sent)

inductive Label
  | run (a : Act)
  /-- The process dies in the segment, `k` of its statements committed. -/
  | crash (a : Act) (k : Nat)
  | die
  /-- A new process: `recover_pending`, of which `k` statements commit where it dies in it. -/
  | boot (now : Time) (dies : Option Nat)
  /-- The broker decides on request `j`. -/
  | verdict (j : Nat) (v : Verdict)

/-- The rows a script inserts, with what `day_close` says of their day. -/
def createdBy (l : Ledger) (ss : List Stmt) : List Created :=
  ss.filterMap fun
    | .insertOrder _ date _ _ _ _ _ _ => some ⟨date, (l.dayCloseOf date).isSome⟩
    | _ => none

/-- The statements commit, and the desk goes on with this memory. -/
def Desk.after (d : Desk) (ss : List Stmt) (p : Option Proc) (sent : List Sent) : Desk :=
  ⟨d.ledger.execAll ss, p, sent, d.created ++ createdBy d.ledger ss⟩

def step (d : Desk) : Label → Option Desk
  | .run a => d.proc.bind fun p => (act lim db d p a).map fun (ss, p', sent) => d.after ss (some p') sent
  | .crash a k => d.proc.bind fun p => (act lim db d p a).map fun (ss, _, _) => d.after (ss.take k) none d.sent
  | .die => d.proc.map fun _ => d.after [] none d.sent
  | .boot now dies =>
    match d.proc with
    | some _ => none
    | none =>
      match dies with
      | none => some (d.after (d.ledger.recoverPendingStmts now) (some .fresh) d.sent)
      | some k => some (d.after ((d.ledger.recoverPendingStmts now).take k) none d.sent)
  | .verdict j v =>
    match d.sent[j]? with
    | some s => if s.verdict = .underway then some { d with sent := d.sent.set j { s with verdict := v } } else none
    | none => none

end OrderDesk

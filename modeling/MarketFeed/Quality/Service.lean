import MarketFeed.Lib.Txn
import MarketFeed.Protocol.Models
import MarketFeed.Storage.Sqlite
import Mathlib.Logic.Function.Basic
/-!
# The quality service (services/quality.py:63-123, :174-181, storage/db.py:340-345, :526-537)

`_flush` takes the whole list of pending rows and awaits `SQLiteStorage._many` on a worker thread; what that
raises is logged. Frames come in meanwhile. A stop cancels the task that awaits, not the thread: `_flush`
runs once more, on a second thread where the first has not ended, and then the storage is closed.

| here | there |
| --- | --- |
| `Monitor` | `QualityMonitor`, any: what it makes of a record, `none` where it raises |
| `Job` | one `_many`: the rows of its `executemany` still to come, after its `BEGIN` or before |
| `Worker.left` | the thread whose `_flush` the stop has cancelled |
| `World.conn` | `self.conn`, on the rows of `quality_events` |
| `Act.fail` | an exception out of `executemany` or `commit()`, with what SQLite has made of the transaction |
| `World.produced` | not in the source: the rows of all events the monitor has returned |

`sqlite3` opens a transaction at the start of an `executemany` only. Two threads share the connection row by
row, so the `commit()` of one is that of the other's rows too, and its later rows are committed one by one. Metrics,
the log and `health()` are left out.
-/

namespace Quality

open Txn
open Storage (CommitState)

def MSG_TRADE : UInt8 := 2

def MSG_BOOK : UInt8 := 3

structure QualityEvent where
  tsNs : UInt64
  check : String
  severity : String
  venue : String
  symbol : String
  detail : String
  value : UInt64
  deriving DecidableEq

structure Row where
  ts : ℕ
  checkName : String
  severity : String
  venue : String
  symbol : String
  detail : String
  value : UInt64
  deriving DecidableEq

def QualityEvent.row (ev : QualityEvent) : Row :=
  ⟨ev.tsNs.toNat / 1000, ev.check, ev.severity, ev.venue, ev.symbol, ev.detail, ev.value⟩

structure Monitor (μ : Type) where
  onTrade : μ → String → String → UInt64 → UInt64 → Option (List QualityEvent) × μ
  onQuote : μ → String → String → UInt64 → UInt64 → UInt64 → Option (List QualityEvent) × μ

structure Job where
  rows : List Row
  begun : Bool
  deriving DecidableEq

inductive Worker | awaited | left
  deriving DecidableEq

def Worker.other : Worker → Worker
  | .awaited => .left
  | .left => .awaited

/-- `last`: after the flush of the shutdown. -/
inductive Phase | running | stopping | last | closed
  deriving DecidableEq

structure World (μ : Type) where
  monitor : μ
  pending : List Row
  jobs : Worker → Option Job
  conn : Conn (List Row)
  phase : Phase
  produced : List Row

/-- The service has started on a table. -/
def World.start {μ : Type} (m : μ) (old : List Row) : World μ := ⟨m, [], fun _ => none, idle old, .running, []⟩

/-- The rows that a write has not executed yet. -/
def remaining (j : Option Job) : List Row := j.elim [] Job.rows

section

variable {μ : Type} (mon : Monitor μ)

/-- What the monitor makes of a frame. -/
def Monitor.check (m : μ) (f : Mdfp.Frame) : Option (List QualityEvent) × μ :=
  if f.msgType = MSG_TRADE ∧ Mdfp.Trade.SIZE ≤ f.payload.length then
    match Mdfp.Trade.unpack f.payload with
    | some t => mon.onTrade m t.venue t.symbol t.price t.tsEventNs
    | none => (none, m)
  else if f.msgType = MSG_BOOK ∧ Mdfp.BookTop.SIZE ≤ f.payload.length then
    match Mdfp.BookTop.unpack f.payload with
    | some b => mon.onQuote m b.venue b.symbol b.bid b.ask b.tsEventNs
    | none => (none, m)
  else (some [], m)

/-- `_ingest`, with `_on_event` of each event. -/
def World.ingest (w : World μ) (f : Mdfp.Frame) : World μ :=
  let r := mon.check w.monitor f
  let rows := (r.1.getD []).map QualityEvent.row
  { w with monitor := r.2, pending := w.pending ++ rows, produced := w.produced ++ rows }

/-- `_flush`, up to the `await`. -/
def World.flush (w : World μ) : World μ :=
  if w.pending = [] then w
  else { w with pending := [], jobs := Function.update w.jobs .awaited (some ⟨w.pending, false⟩) }

/-- The `BEGIN` of an `executemany`, where no transaction is open. -/
def beginOn (c : Conn (List Row)) : Conn (List Row) := ⟨c.committed, some c.view⟩

/-- One row: into the open transaction, or committed by itself. -/
def insertOn (c : Conn (List Row)) (r : Row) : Conn (List Row) :=
  match c.work with
  | some d => ⟨c.committed, some (d ++ [r])⟩
  | none => idle (c.committed ++ [r])

/-- Where an exception leaves the transaction. -/
def failOn (c : Conn (List Row)) : CommitState → Conn (List Row)
  | .stillOpen => c
  | .rolledBack => idle c.committed
  | .committed => idle c.view

inductive Act
  | ingest (f : Mdfp.Frame)
  | flush
  | begin (k : Worker)
  | insert (k : Worker)
  | commit (k : Worker)
  | fail (k : Worker) (state : CommitState)
  | stop
  | close (fault : Option CommitState)

def World.step (w : World μ) : Act → Option (World μ)
  | .ingest f => if w.phase = .running then some (w.ingest mon f) else none
  | .flush =>
    match w.phase, w.jobs .awaited with
    | .running, none => some w.flush
    | .stopping, none => some { w.flush with phase := .last }
    | _, _ => none
  | .begin k =>
    match w.jobs k with
    | some ⟨rows, false⟩ =>
      some { w with conn := beginOn w.conn, jobs := Function.update w.jobs k (some ⟨rows, true⟩) }
    | _ => none
  | .insert k =>
    match w.jobs k with
    | some ⟨r :: rows, true⟩ =>
      some { w with conn := insertOn w.conn r, jobs := Function.update w.jobs k (some ⟨rows, true⟩) }
    | _ => none
  | .commit k =>
    match w.jobs k with
    | some ⟨[], true⟩ => some { w with conn := idle w.conn.view, jobs := Function.update w.jobs k none }
    | _ => none
  | .fail k state =>
    match w.jobs k with
    | some j =>
      -- a transaction that is committed although `commit()` raises is one whose rows are all in
      if state = .committed ∧ j.rows ≠ [] then none
      else some { w with conn := failOn w.conn state, jobs := Function.update w.jobs k none }
    | none => none
  | .stop =>
    match w.phase with
    | .running =>
      some { w with phase := .stopping, jobs := fun k => match k with | .awaited => none | .left => w.jobs .awaited }
    | _ => none
  | .close fault =>
    match w.phase, w.jobs .awaited, fault with
    | .last, none, none => some { w with phase := .closed, conn := idle w.conn.view, jobs := fun _ => none }
    | .last, none, some state => some { w with phase := .closed, conn := failOn w.conn state }
    | _, _, _ => none

end

end Quality

import Mathlib.Logic.Function.Basic
import MarketFeed.Lib.Run
import MarketFeed.Storage.Sqlite
import MarketFeed.Writer.Clock
import MarketFeed.Writer.Messages
/-!
# The writer as a transition system (writer.py:159-259, :510-558)

Two kinds of threads share the writer's memory: the event loop, on which `_ingest` and the shutdown
run, and the worker threads of `_flush_sync`, one at a time under `_db_lock`. A step is one access to
what they share. `_ingest` reads the reference of a buffer and appends to that list later; a flush
takes the three lists, scans the bars, copies, parks the batch and writes it. An exception can end a
flush at any point (`Label.fail`), also right after the write took effect.

| here | there |
| --- | --- |
| `State.lists`, `State.refs` | the list objects, and which of them `self._trades`, `_books`, `_signals` name |
| `Flush.swap held` | `held` of the three lists are in the flush's locals (`writer.py:218-220`) |
| `Flush.read`, `.copy`, `.made` | the loop over `done`, `make_storage_batch` (`writer.py:223-232`) |
| `Flush.write b done`, `.stored`, `.pop` | `write_batch`, then the retry slot, then the bars (`:233-242`); a retry has no `done` (`:211-214`) |
| `Ingest.update t attached` | before `bar.update(t)`; `attached`: the bar it looked up is still in `self._bars` |
| `Phase` | the shutdown: the last flush, `upsert_bars` of what is left (`writer.py:536-555`) |
| `accepted`, `ingested` | the rows appended to a buffer, the trades added to a bar, so far |
-/

namespace Writer

open Storage Keyed Clock Double

variable {F : Type}

structure Cfg where
  barIntervalS : Nat
  writerPendingMaxRows : Nat
  clockWindowS : ℚ

/-- The defaults. -/
def minuteCfg : Cfg := ⟨60, 100000, 300⟩

inductive Ingest (F : Type)
  | append (row : Row F) (ref : Nat) (trade : Option (Trade F))
  | lookup (t : Trade F)
  | update (t : Trade F) (attached : Bool)
  deriving DecidableEq

inductive Flush (F : Type)
  | swap (held : List Nat)
  | read (held : List Nat) (done todo : List BarKey) (rows : List (BarRow F))
  | copy (uncopied : List Nat) (copied : List (Row F)) (done : List BarKey) (rows : List (BarRow F))
  | made (b : StorageBatch F) (done : List BarKey)
  | write (b : StorageBatch F) (done : List BarKey)
  | stored (b : StorageBatch F) (done : List BarKey)
  | pop (todo : List BarKey)
  deriving DecidableEq

inductive Phase (F : Type)
  | running
  | stopping
  | lastFlush
  | flushed
  | saving (rows : List (BarRow F))
  | stopped (saved : Bool)
  deriving DecidableEq

structure State (F : Type) where
  clock : ClockMonitor
  lastBookAt : List (String × ℚ)
  lists : List (List (Row F))
  refs : Kind → Nat
  bars : List (Bar F)
  retry : Option (StorageBatch F)
  db : Tables F
  ingest : Option (Ingest F)
  flush : Option (Flush F)
  phase : Phase F
  accepted : List (Row F)
  ingested : List (Trade F)

def kinds : List Kind := [.trades, .books, .signals]

/-- A writer just started: three empty buffers. -/
def State.init : State F where
  clock := []
  lastBookAt := []
  lists := [[], [], []]
  refs := fun | .trades => 0 | .books => 1 | .signals => 2
  bars := []
  retry := none
  db := .empty
  ingest := none
  flush := none
  phase := .running
  accepted := []
  ingested := []

def State.list (w : State F) (ref : Nat) : List (Row F) := w.lists.getD ref []

/-- `_pending_row_count`. -/
def State.pendingRowCount (w : State F) : Nat :=
  (match w.retry with | some b => b.rowsWritten + b.barsWritten | none => 0) + (w.list (w.refs .trades)).length +
    (w.list (w.refs .books)).length + (w.list (w.refs .signals)).length

/-- `self._retry_batch or self._trades or self._books or self._signals or self._bars`. -/
def State.hasPending (w : State F) : Bool :=
  w.retry.isSome || kinds.any (fun k => !(w.list (w.refs k)).isEmpty) || !w.bars.isEmpty

def Phase.afterFlush : Phase F → Phase F
  | .lastFlush => .flushed
  | p => p

/-- The end of a flush, also by an exception. -/
def State.endFlush (w : State F) : State F := { w with flush := none, phase := w.phase.afterFlush }

inductive Label (F : Type)
  | arrive (f : Frame F) (now : ℚ)
  | append
  | lookup
  | update
  | lock
  | swap
  | scan (nowNs : Nat)
  | read
  | copy
  | make (uuid digest : String)
  | park
  | write (committedAt : String)
  | clear
  | pop
  | unlock
  | fail
  | stop
  | lockLast
  | skipLast
  | snapshot
  | save
  | saveFails

section

variable [CommRing F] [Div F] [LinearOrder F]

/-- The batch of the copied lists and the bar rows. -/
def makeStorageBatch (uuid digest : String) (copied : List (Row F)) (rows : List (BarRow F)) : StorageBatch F where
  batchId := "batch:" ++ uuid
  digest := digest
  trades := copied.filterMap fun | .trade r => some r | _ => none
  books := copied.filterMap fun | .book r => some r | _ => none
  signals := copied.filterMap fun | .signal r => some r | _ => none
  bars := rows

/-- `_ingest`, up to the append (writer.py:174-199). -/
def State.arrive (cfg : Cfg) (w : State F) (f : Frame F) (now : ℚ) : State F :=
  if cfg.writerPendingMaxRows ≤ w.pendingRowCount then w
  else match f.payload with
    | .trade t =>
      let r := w.clock.observe cfg.clockWindowS t.venue (rawUs t.tsRecvNs.toNat t.tsEventNs.toNat) now
      { w with clock := r.1, ingest := some (.append (.trade (t.row ⌊r.2⌋ f.seq)) (w.refs .trades) (some t)) }
    | .book b =>
      let key := b.venue ++ ":" ++ b.symbol
      if binary64 (now - ((w.lastBookAt.lookup key).getD 0)) < 1 then w
      else
        { w with
          lastBookAt := (key, now) :: w.lastBookAt.filter (·.1 ≠ key)
          ingest := some (.append (.book b.row) (w.refs .books) none) }
    | .signal s => { w with ingest := some (.append (.signal s.row) (w.refs .signals) none) }

/-- The bar of `k` leaves the dict: an update under way goes to an object that is not in it any more. -/
def Ingest.detach (cfg : Cfg) (k : BarKey) : Ingest F → Ingest F
  | .update t attached => .update t (attached && decide (t.barKey cfg.barIntervalS ≠ k))
  | i => i

/-- A thread that has the lock goes on with the retry batch, or takes the buffers. -/
def State.lockFlush (w : State F) : State F :=
  { w with flush := some (match w.retry with | some b => .write b [] | none => .swap []) }

def step (cfg : Cfg) (w : State F) : Label F → Option (State F)
  | .arrive f now => if w.ingest = none ∧ w.phase = .running then some (w.arrive cfg f now) else none
  | .append =>
    match w.ingest with
    | some (.append row ref t) =>
      some { w with lists := w.lists.modify ref (· ++ [row]), accepted := w.accepted ++ [row], ingest := t.map .lookup }
    | _ => none
  | .lookup =>
    match w.ingest with
    | some (.lookup t) =>
      let k := t.barKey cfg.barIntervalS
      some { w with
        bars := if (Keyed.lookup Bar.key k w.bars).isSome then w.bars else w.bars ++ [Bar.new k]
        ingest := some (.update t true) }
    | _ => none
  | .update =>
    match w.ingest with
    | some (.update t attached) =>
      some { w with
        bars := if attached then w.bars.map fun b => if b.key = t.barKey cfg.barIntervalS then b.update t
          else b else w.bars
        ingested := w.ingested ++ [t]
        ingest := none }
    | _ => none
  | .lock => if w.flush = none then some w.lockFlush else none
  | .swap =>
    match w.flush with
    | some (.swap held) =>
      match kinds[held.length]? with
      | some k =>
        some { w with
          flush := some (.swap (held ++ [w.refs k]))
          refs := Function.update w.refs k w.lists.length
          lists := w.lists ++ [[]] }
      | none => none
    | _ => none
  | .scan nowNs =>
    match w.flush with
    | some (.swap held) =>
      if held.length = kinds.length then
        let done := (w.bars.map (·.key)).filter fun k => k.2.2 < bucketOf cfg.barIntervalS nowNs
        some { w with flush := some (.read held done done []) }
      else none
    | _ => none
  | .read =>
    match w.flush with
    | some (.read held done [] rows) => some { w with flush := some (.copy held [] done rows) }
    | some (.read held done (k :: todo) rows) =>
      (Keyed.lookup Bar.key k w.bars).map fun b => { w with flush := some (.read held done todo (rows ++ [b.row])) }
    | _ => none
  | .copy =>
    match w.flush with
    | some (.copy (ref :: refs) copied done rows) =>
      some { w with flush := some (.copy refs (copied ++ w.list ref) done rows) }
    | _ => none
  | .make uuid digest =>
    match w.flush with
    | some (.copy [] copied done rows) =>
      let b := makeStorageBatch uuid digest copied rows
      -- `uuid4` gives an id that no receipt has
      if w.db.receipts.any b.matches then none else some { w with flush := some (.made b done) }
    | _ => none
  | .park =>
    match w.flush with
    | some (.made b done) => some { w with retry := some b, flush := some (.write b done) }
    | _ => none
  | .write committedAt =>
    match w.flush with
    | some (.write b done) => some { w with db := w.db.write b committedAt, flush := some (.stored b done) }
    | _ => none
  | .clear =>
    match w.flush with
    | some (.stored _ done) => some { w with retry := none, flush := some (.pop done) }
    | _ => none
  | .pop =>
    match w.flush with
    | some (.pop (k :: todo)) =>
      some { w with
        bars := Keyed.erase Bar.key k w.bars
        ingest := w.ingest.map (·.detach cfg k)
        flush := some (.pop todo) }
    | _ => none
  | .unlock => if w.flush = some (.pop []) then some w.endFlush else none
  | .fail => if w.flush = none then none else some w.endFlush
  | .stop => if w.phase = .running ∧ w.ingest = none then some { w with phase := .stopping } else none
  | .lockLast => if w.phase = .stopping ∧ w.flush = none then some { w.lockFlush with phase := .lastFlush } else none
  | .skipLast => if w.phase = .stopping ∧ w.hasPending = false then some { w with phase := .flushed } else none
  | .snapshot => if w.phase = .flushed then some { w with phase := .saving (w.bars.map (·.row)) } else none
  | .save =>
    match w.phase with
    | .saving rows =>
      if w.flush = none then
        some { w with
          db := { w.db with bars := rows.foldl (upsert BarRow.key BarRow.merge) w.db.bars }
          phase := .stopped true }
      else none
    | _ => none
  | .saveFails =>
    match w.phase with
    | .saving _ => some { w with phase := .stopped false }
    | _ => none

end

end Writer

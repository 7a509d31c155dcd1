import MarketFeed.Lib.Txn
import MarketFeed.Storage.Rows
/-!
# `SQLiteStorage.write_batch` (storage/db.py:393-460)

One attempt to write a batch runs through `SELECT` of the receipts, `BEGIN`, the statements of the
`executemany` calls row by row, and `COMMIT`. What goes wrong is the attempt's `Fault`; an integer
outside SQLite's 64 bits raises `OverflowError` by itself. Exceptions are of two kinds: `sqlite3.Error`,
which the `except` clause catches, and any other.

| here | there |
| --- | --- |
| `Conn` | `self.conn`: `work` is the open transaction, which the connection's own `SELECT` sees |
| `like` | `LIKE`: `%`, `_`, and ASCII case ignored |
| `Fault.row n e ended` | an exception after `n` rows, `ended` where SQLite has rolled back by itself |
| `Fault.commit e state` | an exception out of `commit()`; `committed` is the lost acknowledgement |
-/

namespace Storage

open Txn Keyed

variable {F : Type} [Max F] [Min F] [Add F]

/-- `sqlite3.Error` and its subclasses, or any other exception. -/
inductive Exc | sqlite | other
  deriving DecidableEq

inductive Stmt (F : Type)
  | receipt (r : ReceiptRow)
  | trade (r : TradeRow F)
  | latest (r : LatestRow F)
  | book (r : BookRow F)
  | signal (r : SignalRow F)
  | bar (r : BarRow F)

def int64 (n : Int) : Bool := decide (-9223372036854775808 ≤ n ∧ n ≤ 9223372036854775807)

/-- The integers a statement binds. -/
def Stmt.ints : Stmt F → List Int
  | .receipt r => [r.rowCount]
  | .trade r => [r.ts, r.side, r.recvTs, r.latencyUs, r.seq]
  | .latest r => [r.ts, r.side, r.latencyUs]
  | .book r => [r.ts]
  | .signal r => [r.ts, r.action]
  | .bar r => [r.bucket, r.tickCount]

/-- Else `OverflowError: Python int too large to convert to SQLite INTEGER`. -/
def Stmt.bindable (s : Stmt F) : Bool := s.ints.all int64

/-- One row of an `executemany`; a second receipt of one id is an `IntegrityError`. -/
def exec (t : Tables F) (s : Stmt F) : Except Exc (Tables F) :=
  if s.bindable then
    match s with
    | .receipt r =>
      if t.receipts.any (·.receiptId == r.receiptId) then .error .sqlite
      else .ok { t with receipts := t.receipts ++ [r] }
    | .trade r => .ok { t with trades := t.trades ++ [r] }
    | .latest r => .ok { t with latest := upsert LatestRow.key LatestRow.merge t.latest r }
    | .book r => .ok { t with books := t.books ++ [r] }
    | .signal r => .ok { t with signals := t.signals ++ [r] }
    | .bar r => .ok { t with bars := upsert BarRow.key BarRow.merge t.bars r }
  else .error .other

/-- The statements between `BEGIN` and `COMMIT`. -/
def StorageBatch.script (b : StorageBatch F) (committedAt : String) : List (Stmt F) :=
  (b.receipts committedAt).map .receipt ++ (b.trades.map .trade ++ ((latestRows b.trades).map .latest ++
    (b.books.map .book ++ (b.signals.map .signal ++ b.bars.map .bar))))

/-! ## The receipts -/

def like : List Char → List Char → Bool
  | [], t => t.isEmpty
  | x :: p, t =>
    if x = '%' then t.tails.any (like p)
    else match t with
      | [] => false
      | c :: t => (x == '_' || x.toLower == c.toLower) && like p t

/-- `WHERE receipt_id LIKE f"{batch.batch_id}:%"`. -/
def StorageBatch.matches (b : StorageBatch F) (r : ReceiptRow) : Bool :=
  like (b.batchId ++ ":%").toList r.receiptId.toList

/-- `found[name]`: the last row of a table name wins. -/
def foundRow (rows : List ReceiptRow) (name : String) : Option ReceiptRow := rows.reverse.find? (·.tableName == name)

/-- `_batch_already_committed`; the error is `StorageUnavailableError`. -/
def batchAlreadyCommitted (t : Tables F) (b : StorageBatch F) : Except Exc Bool :=
  if b.expected = [] then .ok false
  else
    let rows := t.receipts.filter b.matches
    if rows = [] then .ok false
    else if rows.all (fun r => b.expected.any (·.1 == r.tableName)) &&
        b.expected.all (fun e => (foundRow rows e.1).any fun r => r.batchHash == b.digest && r.rowCount == e.2) then
      .ok true
    else .error .other

/-- `write_batch` as a whole, atomic: nothing where the receipts of the batch are there. -/
def Tables.write (t : Tables F) (b : StorageBatch F) (committedAt : String) : Tables F :=
  if t.receipts.any b.matches then t else t.store b committedAt

/-! ## An attempt -/

/-- Where a failing `commit()` leaves the transaction. -/
inductive CommitState | stillOpen | rolledBack | committed
  deriving DecidableEq

inductive Fault
  | select (e : Exc)
  | begin (e : Exc) (opened : Bool)
  | row (n : Nat) (e : Exc) (ended : Bool)
  | commit (e : Exc) (state : CommitState)
  deriving DecidableEq

/-- `rollback`: what `self.conn.rollback()` raises, if it fails. -/
structure Attempt where
  committedAt : String
  fault : Option Fault
  rollback : Option Exc
  deriving DecidableEq

structure BatchWriteReceipt where
  batchId : String
  digest : String
  rowsWritten : Nat
  barsWritten : Nat
  deriving DecidableEq

def StorageBatch.receipt (b : StorageBatch F) : BatchWriteReceipt := ⟨b.batchId, b.digest, b.rowsWritten, b.barsWritten⟩

abbrev Result (F : Type) := Conn (Tables F) × Except Exc BatchWriteReceipt

/-- `except sqlite3.Error: self.conn.rollback(); raise`. -/
def Attempt.handle (a : Attempt) (c : Conn (Tables F)) (e : Exc) : Result F :=
  match e, a.rollback with
  | .other, _ => (c, .error .other)
  | .sqlite, none => (c.rollback, .error .sqlite)
  | .sqlite, some e' => (c, .error e')

/-- The statements up to the fault; with the exception, whether SQLite has ended the transaction. -/
def Attempt.body (a : Attempt) (ss : List (Stmt F)) (t : Tables F) : Tables F × Option (Exc × Bool) :=
  match a.fault with
  | some (.row n e ended) =>
    match runTo exec (ss.take n) t with
    | (w, some e') => (w, some (e', false))
    | (w, none) => (w, if n ≤ ss.length then some (e, ended) else none)
  | _ =>
    match runTo exec ss t with
    | (w, some e') => (w, some (e', false))
    | (w, none) => (w, none)

/-- `COMMIT`. -/
def Attempt.commit (a : Attempt) (d w : Tables F) (b : StorageBatch F) : Result F :=
  match a.fault with
  | some (.commit e .stillOpen) => a.handle ⟨d, some w⟩ e
  | some (.commit e .rolledBack) => a.handle (idle d) e
  | some (.commit e .committed) => a.handle (idle w) e
  | _ => (idle w, .ok b.receipt)

/-- From `BEGIN` on. -/
def Attempt.transaction (a : Attempt) (c : Conn (Tables F)) (b : StorageBatch F) : Result F :=
  match c.begin with
  | none => (c, .error .sqlite)
  | some c1 =>
    match a.fault with
    | some (.begin e opened) => (if opened then c1 else c, .error e)
    | _ =>
      match a.body (b.script a.committedAt) c1.view with
      | (w, some (e, ended)) => a.handle (if ended then idle c.committed else ⟨c.committed, some w⟩) e
      | (w, none) => a.commit c.committed w b

def writeBatch (c : Conn (Tables F)) (b : StorageBatch F) (a : Attempt) : Result F :=
  if b.isEmpty then (c, .ok ⟨b.batchId, b.digest, 0, 0⟩)
  else match a.fault with
    | some (.select e) => (c, .error e)
    | _ =>
      match batchAlreadyCommitted c.view b with
      | .error e => (c, .error e)
      | .ok true => (c, .ok b.receipt)
      | .ok false => a.transaction c b

end Storage

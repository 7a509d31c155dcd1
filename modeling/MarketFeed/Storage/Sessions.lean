import MarketFeed.Lib.Rowlock
import MarketFeed.Storage.Postgres
import MarketFeed.Storage.Sqlite
/-!
# `PostgresStorage.write_batch` on several connections (storage/db.py:612-624, :768-813, :815-895)

Any number of connections write batches to one database, and a batch may be tried on several of them. The
server runs at READ COMMITTED: a statement sees what is committed at that moment and what its own transaction
has written, and waits where another open transaction has inserted or updated the row of its key. A step is one
statement of one connection; what goes wrong is a step of its own, so a run is any interleaving of attempts that
succeed, fail or break off.

| here | there |
| --- | --- |
| `Phase.select` | the `SELECT` of `_batch_already_committed`, outside `with self.conn` |
| `Phase.claim` | `_claim_receipts`: `taken` are the rows that came back, `claimed` of them |
| `Phase.write` | the rows of `execute_batch`: `done` and those still to come |
| `Act.commit s acked` | `COMMIT`; the acknowledgement may be lost with the connection |
| `Act.rollback` | an exception inside `with self.conn`: a row refused, a deadlock, a timeout |
| `Act.crash` | the connection is lost, or the `SELECT` outside `with` has failed: every later attempt on it raises |
| `World.log` | not in the source: the batches whose transactions have been committed |

A client that has given up on its connection is not told from one that waits: the server goes on with what it has
received, up to a commit without acknowledgement or the rollback of `crash`.
-/

namespace Storage.Postgres

open Rowlock Keyed

variable {S F : Type}

/-- The two `StorageUnavailableError`s. -/
inductive Unavailable | partially | conflicting
  deriving DecidableEq

def Unavailable.message : Unavailable → String
  | .partially => "partial ingest batch receipt requires operator reconciliation"
  | .conflicting => "conflicting ingest batch receipt requires operator reconciliation"

def receiptColumns : List Column :=
  [⟨"receipt_id", .text, true⟩, ⟨"service", .text, true⟩, ⟨"table_name", .text, true⟩, ⟨"batch_hash", .text, true⟩,
    ⟨"row_count", .bigint, true⟩]

def receiptCells (r : ReceiptRow) : List (Cell F) :=
  [.text r.receiptId, .text r.service, .text r.tableName, .text r.batchHash, .int r.rowCount]

/-- The rows of the `execute_batch` calls, in their order. -/
def dataScript (b : StorageBatch F) : List (Stmt F) :=
  b.trades.map .trade ++ ((latestRows b.trades).map .latest ++
    (b.books.map .book ++ (b.signals.map .signal ++ b.bars.map .bar)))

/-! ## The receipts of a batch -/

def receiptId (b : StorageBatch F) (name : String) : String := b.batchId ++ ":" ++ name

/-- `WHERE receipt_id = ANY(…)`. -/
def foundReceipts (receipts : String → Option ReceiptRow) (b : StorageBatch F) : List ReceiptRow :=
  b.expected.filterMap fun e => receipts (receiptId b e.1)

/-- The rows found against those expected. -/
def reconcile (rows : List ReceiptRow) (b : StorageBatch F) : Except Unavailable Unit :=
  if rows.all (fun r => b.expected.any (·.1 == r.tableName)) &&
      b.expected.all (fun e => rows.any (·.tableName == e.1)) then
    if b.expected.all fun e => (foundRow rows e.1).any fun r => r.batchHash == b.digest && r.rowCount == e.2 then .ok ()
    else .error .conflicting
  else .error .partially

def batchAlreadyCommitted (receipts : String → Option ReceiptRow) (b : StorageBatch F) : Except Unavailable Bool :=
  if b.expected = [] then .ok false
  else
    let rows := foundReceipts receipts b
    if rows = [] then .ok false else (reconcile rows b).map fun _ => true

/-! ## The server -/

structure Server (S F : Type) where
  trades : Heap S (TradeRow F)
  latest : Table S (String × String) (LatestRow F)
  books : Heap S (BookRow F)
  signals : Heap S (SignalRow F)
  bars : Table S (String × String × Int) (BarRow F)
  receipts : Table S String ReceiptRow

def Server.start (t : Tables F) : Server S F where
  trades := .start t.trades
  latest := .start fun k => lookup LatestRow.key k t.latest
  books := .start t.books
  signals := .start t.signals
  bars := .start fun k => lookup BarRow.key k t.bars
  receipts := .start fun k => lookup ReceiptRow.receiptId k t.receipts

inductive Phase (F : Type)
  | idle
  | dead
  | select (b : StorageBatch F) (committedAt : String)
  | claim (b : StorageBatch F) (committedAt : String) (taken rest : List ReceiptRow)
  | write (b : StorageBatch F) (committedAt : String) (done rest : List (Stmt F))

section

variable [DecidableEq S]

def Server.abort (d : Server S F) (s : S) : Server S F :=
  ⟨d.trades.abort s, d.latest.abort s, d.books.abort s, d.signals.abort s, d.bars.abort s, d.receipts.abort s⟩

def Server.commit (d : Server S F) (s : S) : Server S F :=
  ⟨d.trades.commit s, d.latest.commit s, d.books.commit s, d.signals.commit s, d.bars.commit s, d.receipts.commit s⟩

/-- One row; `none` while the row of its key is another session's, or where the columns refuse it. The receipts are
`claim`ed. -/
def Server.exec [Max F] [Min F] [Add F] (d : Server S F) (s : S) : Stmt F → Option (Server S F)
  | .receipt _ => none
  | .trade r => if fits tradesColumns r.cells then some { d with trades := d.trades.insert s r } else none
  | .latest r =>
    if fits latestColumns r.cells then (d.latest.upsert s LatestRow.key LatestRow.merge r).map fun t =>
      { d with latest := t }
    else none
  | .book r => if fits bookColumns r.cells then some { d with books := d.books.insert s r } else none
  | .signal r => if fits signalsColumns r.cells then some { d with signals := d.signals.insert s r } else none
  | .bar r =>
    -- the sum of the counts has to fit its column too
    if fits barsColumns r.cells && (put BarRow.merge (d.bars.view s r.key) r).all
        (fun m => fits barsColumns m.cells) then
      (d.bars.upsert s BarRow.key BarRow.merge r).map fun t => { d with bars := t }
    else none

/-! ## The connections -/

structure World (S F : Type) where
  db : Server S F
  phase : S → Phase F
  log : List (StorageBatch F × String)
  returned : List BatchWriteReceipt
  raised : List Unavailable

def World.start (t : Tables F) : World S F := ⟨.start t, fun _ => .idle, [], [], []⟩

inductive Act (S F : Type)
  | call (s : S) (b : StorageBatch F) (committedAt : String)
  | select (s : S)
  | claim (s : S)
  | settle (s : S)
  | write (s : S)
  | commit (s : S) (acked : Bool)
  | rollback (s : S)
  | crash (s : S)

namespace World

section

variable (w : World S F) (s : S)

def goto (p : Phase F) : World S F := { w with phase := Function.update w.phase s p }

/-- `write_batch` returns. -/
def answer (r : BatchWriteReceipt) : World S F := { w.goto s .idle with returned := w.returned ++ [r] }

/-- `write_batch` raises a `StorageUnavailableError`. -/
def refuse (e : Unavailable) : World S F := { w.goto s .idle with raised := w.raised ++ [e] }

def abort : World S F := { w with db := w.db.abort s }

/-- After the last receipt of `_claim_receipts`. -/
def settle (b : StorageBatch F) (committedAt : String) (taken : List ReceiptRow) : World S F :=
  if taken.length = (b.receipts committedAt).length then w.goto s (.write b committedAt [] (dataScript b))
  else if taken ≠ [] then (w.abort s).refuse s .partially
  else match reconcile (foundReceipts (w.db.receipts.view s) b) b with
    | .ok () => { w with db := w.db.commit s }.answer s b.receipt
    | .error e => (w.abort s).refuse s e

/-- Where a phase is within `with self.conn`. -/
def inTransaction : Phase F → Bool
  | .claim .. | .write .. => true
  | _ => false

end

def step [Max F] [Min F] [Add F] (w : World S F) : Act S F → Option (World S F)
  | .call s b committedAt =>
    match w.phase s with
    | .idle => some (if b.isEmpty then w.answer s ⟨b.batchId, b.digest, 0, 0⟩ else w.goto s (.select b committedAt))
    | _ => none
  | .select s =>
    match w.phase s with
    | .select b committedAt =>
      match batchAlreadyCommitted (w.db.receipts.view s) b with
      | .ok true => some (w.answer s b.receipt)
      | .ok false => some (w.goto s (.claim b committedAt [] (b.receipts committedAt)))
      | .error e => some (w.refuse s e)
    | _ => none
  | .claim s =>
    match w.phase s with
    | .claim b committedAt taken (r :: rest) =>
      if fits receiptColumns (receiptCells (F := F) r) then
        (w.db.receipts.claim s ReceiptRow.receiptId r).map fun (t, inserted) =>
          { w with db := { w.db with receipts := t } }.goto s
            (.claim b committedAt (if inserted then taken ++ [r] else taken) rest)
      else none
    | _ => none
  | .settle s =>
    match w.phase s with
    | .claim b committedAt taken [] => some (w.settle s b committedAt taken)
    | _ => none
  | .write s =>
    match w.phase s with
    | .write b committedAt done (x :: rest) =>
      (w.db.exec s x).map fun d => { w with db := d }.goto s (.write b committedAt (done ++ [x]) rest)
    | _ => none
  | .commit s acked =>
    match w.phase s with
    | .write b committedAt _ [] =>
      let w' := { w with db := w.db.commit s, log := w.log ++ [(b, committedAt)] }
      some (if acked then w'.answer s b.receipt else w'.goto s .dead)
    | _ => none
  | .rollback s => if inTransaction (w.phase s) then some ((w.abort s).goto s .idle) else none
  | .crash s => some ((w.abort s).goto s .dead)

end World

end

end Storage.Postgres

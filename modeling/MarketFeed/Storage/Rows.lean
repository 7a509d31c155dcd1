import Mathlib.Tactic.Common
import MarketFeed.Lib.Upsert
/-!
# Batches and the tables they go to (storage/db.py:93-122, :183-204, :365-391; schema_sqlite.sql)

`F` stands for the `REAL` columns. The tables are lists of rows in insertion order, those with a
primary key are read and written through it (`Lib/Upsert.lean`).

| here | there |
| --- | --- |
| `TradeRow`, `BookRow`, `SignalRow`, `BarRow`, `LatestRow`, `ReceiptRow` | the tuples `write_batch` binds, in column order |
| `StorageBatch.tableCounts` | `table_counts` |
| `latestRows` | `_latest_rows`: the dict `newest`, in insertion order |
| `BarRow.merge`, `LatestRow.merge` | the `DO UPDATE` of `upsert_bars` and `_LATEST_UPSERT` |
-/

namespace Storage

open Keyed

variable {F : Type}

structure TradeRow (F : Type) where
  ts : Int
  venue : String
  symbol : String
  price : F
  qty : F
  side : Int
  recvTs : Int
  latencyUs : Int
  seq : Int
  deriving DecidableEq

structure BookRow (F : Type) where
  ts : Int
  venue : String
  symbol : String
  bid : F
  bidQty : F
  ask : F
  askQty : F
  spreadBp : F
  deriving DecidableEq

structure SignalRow (F : Type) where
  ts : Int
  venue : String
  symbol : String
  strategy : String
  action : Int
  strength : F
  refPrice : F
  deriving DecidableEq

structure BarRow (F : Type) where
  bucket : Int
  venue : String
  symbol : String
  openPrice : F
  high : F
  low : F
  close : F
  volume : F
  notional : F
  vwap : F
  tickCount : Int
  deriving DecidableEq

structure LatestRow (F : Type) where
  venue : String
  symbol : String
  ts : Int
  price : F
  qty : F
  side : Int
  latencyUs : Int
  deriving DecidableEq

structure ReceiptRow where
  receiptId : String
  service : String
  tableName : String
  batchHash : String
  rowCount : Nat
  committedAt : String
  deriving DecidableEq

structure StorageBatch (F : Type) where
  batchId : String
  digest : String
  trades : List (TradeRow F)
  books : List (BookRow F)
  signals : List (SignalRow F)
  bars : List (BarRow F)
  deriving DecidableEq

/-- `not (batch.trades or batch.books or batch.signals or batch.bars)`. -/
def StorageBatch.isEmpty (b : StorageBatch F) : Bool :=
  b.trades.isEmpty && b.books.isEmpty && b.signals.isEmpty && b.bars.isEmpty

def StorageBatch.rowsWritten (b : StorageBatch F) : Nat := b.trades.length + b.books.length + b.signals.length

def StorageBatch.barsWritten (b : StorageBatch F) : Nat := b.bars.length

def StorageBatch.tableCounts (b : StorageBatch F) : List (String × Nat) :=
  [("trades", b.trades.length), ("book_top", b.books.length), ("signals", b.signals.length), ("bars_1m", b.bars.length)]

/-- `{name: count for name, count in batch.table_counts if count}`. -/
def StorageBatch.expected (b : StorageBatch F) : List (String × Nat) := b.tableCounts.filter (·.2 != 0)

structure Tables (F : Type) where
  trades : List (TradeRow F)
  latest : List (LatestRow F)
  books : List (BookRow F)
  signals : List (SignalRow F)
  bars : List (BarRow F)
  receipts : List ReceiptRow
  deriving DecidableEq

def Tables.empty : Tables F := ⟨[], [], [], [], [], []⟩

def TradeRow.key (r : TradeRow F) : String × String := (r.venue, r.symbol)

def LatestRow.key (r : LatestRow F) : String × String := (r.venue, r.symbol)

/-- `PRIMARY KEY (venue, symbol, bucket)`. -/
def BarRow.key (r : BarRow F) : String × String × Int := (r.venue, r.symbol, r.bucket)

/-- `WHERE excluded.ts >= latest.ts`. -/
def LatestRow.merge (o r : LatestRow F) : LatestRow F := if o.ts ≤ r.ts then r else o

/-- The additive upsert of a bar. -/
def BarRow.merge [Max F] [Min F] [Add F] (o r : BarRow F) : BarRow F :=
  { o with
    high := max o.high r.high
    low := min o.low r.low
    close := r.close
    volume := o.volume + r.volume
    notional := o.notional + r.notional
    vwap := r.vwap
    tickCount := o.tickCount + r.tickCount }

def TradeRow.newer (o r : TradeRow F) : TradeRow F := if o.ts < r.ts then r else o

def TradeRow.latest (r : TradeRow F) : LatestRow F := ⟨r.venue, r.symbol, r.ts, r.price, r.qty, r.side, r.latencyUs⟩

def latestRows (trades : List (TradeRow F)) : List (LatestRow F) :=
  (trades.foldl (upsert TradeRow.key TradeRow.newer) []).map TradeRow.latest

/-- `_write_receipts`. -/
def StorageBatch.receipts (b : StorageBatch F) (committedAt : String) : List ReceiptRow :=
  b.expected.map fun (name, count) => ⟨b.batchId ++ ":" ++ name, "writer", name, b.digest, count, committedAt⟩

/-- The tables with every row of the batch stored once. -/
def Tables.store [Max F] [Min F] [Add F] (t : Tables F) (b : StorageBatch F) (committedAt : String) : Tables F where
  trades := t.trades ++ b.trades
  latest := (latestRows b.trades).foldl (upsert LatestRow.key LatestRow.merge) t.latest
  books := t.books ++ b.books
  signals := t.signals ++ b.signals
  bars := b.bars.foldl (upsert BarRow.key BarRow.merge) t.bars
  receipts := t.receipts ++ b.receipts committedAt

/-! ## The batch's own receipts -/

theorem expected_names_nodup (b : StorageBatch F) : (b.expected.map (·.1)).Nodup := by
  have hall : (b.tableCounts.map (·.1)).Nodup := by
    show (["trades", "book_top", "signals", "bars_1m"] : List String).Nodup
    decide
  exact hall.sublist (List.filter_sublist.map _)

theorem expected_eq_nil {b : StorageBatch F} (h : b.isEmpty = true) : b.expected = [] := by
  obtain ⟨id, digest, trades, books, signals, bars⟩ := b
  simp only [StorageBatch.isEmpty, Bool.and_eq_true, List.isEmpty_iff] at h
  obtain ⟨⟨⟨rfl, rfl⟩, rfl⟩, rfl⟩ := h
  rfl

theorem expected_ne_nil {b : StorageBatch F} (h : b.isEmpty = false) : b.expected ≠ [] := by
  intro hnil
  have hzero : ∀ p ∈ b.tableCounts, p.2 = 0 := by
    intro p hp
    have := List.filter_eq_nil_iff.1 hnil p hp
    simpa using this
  simp only [StorageBatch.tableCounts, List.mem_cons, List.not_mem_nil, or_false, forall_eq_or_imp, forall_eq,
    List.length_eq_zero_iff] at hzero
  obtain ⟨h1, h2, h3, h4⟩ := hzero
  simp [StorageBatch.isEmpty, h1, h2, h3, h4] at h

theorem receipt_id_ne {id a b : String} (h : a ≠ b) : id ++ ":" ++ a ≠ id ++ ":" ++ b := by
  intro he
  apply h
  have := congrArg String.toList he
  simp only [String.toList_append, List.append_assoc, List.append_cancel_left_eq] at this
  exact String.toList_injective this

theorem store_empty [Max F] [Min F] [Add F] (t : Tables F) {b : StorageBatch F} (h : b.isEmpty = true) (at_ : String) :
    t.store b at_ = t := by
  have hr : b.receipts at_ = [] := by rw [StorageBatch.receipts, expected_eq_nil h]; rfl
  obtain ⟨id, digest, trades, books, signals, bars⟩ := b
  simp only [StorageBatch.isEmpty, Bool.and_eq_true, List.isEmpty_iff] at h
  obtain ⟨⟨⟨rfl, rfl⟩, rfl⟩, rfl⟩ := h
  simp [Tables.store, hr, latestRows]

end Storage

import Mathlib.Tactic.Common
import MarketFeed.Storage.Rows
/-!
# The columns of the PostgreSQL tables (storage/schema.sql:35-96, :126-135; storage/db.py:762-785)

What a column accepts of the tuple `PostgresStorage.write_batch` binds. The time columns are converted by
`_us_to_utc`, so they hold what a `datetime` holds; a text must not contain NUL.

| here | there |
| --- | --- |
| `tradesColumns`, `bookColumns`, `barsColumns`, `signalsColumns`, `latestColumns` | the `CREATE TABLE` statements |
| `TradeRow.cells` … | the tuples after `_ts_row` |
| `fits` | the server and the driver take the tuple |
-/

namespace Storage

open Keyed

variable {F : Type}

inductive PgType | timestamptz | text | doublePrecision | smallint | integer | bigint
  deriving DecidableEq

structure Column where
  name : String
  type : PgType
  notNull : Bool
  deriving DecidableEq

inductive Cell (F : Type)
  | null
  | timestamp (us : Int)
  | text (s : String)
  | real (x : F)
  | int (n : Int)
  deriving DecidableEq

def nulFree (s : String) : Bool := !s.toList.contains (Char.ofNat 0)

/-- From year 1 to year 9999. -/
def inDatetime (us : Int) : Bool := decide (-62135596800000000 ≤ us ∧ us < 253402300800000000)

/-- A signed integer of that many bits. -/
def inBits (bits : Nat) (n : Int) : Bool := decide (-2 ^ (bits - 1) ≤ n ∧ n < 2 ^ (bits - 1))

def PgType.accepts : PgType → Cell F → Bool
  | .timestamptz, .timestamp us => inDatetime us
  | .text, .text s => nulFree s
  | .doublePrecision, .real _ => true
  | .smallint, .int n => inBits 16 n
  | .integer, .int n => inBits 32 n
  | .bigint, .int n => inBits 64 n
  | _, _ => false

def Column.accepts (c : Column) : Cell F → Bool
  | .null => !c.notNull
  | v => c.type.accepts v

section Accepts

variable (name : String) (notNull : Bool)

@[simp] theorem Column.accepts_timestamp (us : Int) :
    Column.accepts (F := F) ⟨name, .timestamptz, notNull⟩ (.timestamp us) = inDatetime us :=
  rfl

@[simp] theorem Column.accepts_text (s : String) :
    Column.accepts (F := F) ⟨name, .text, notNull⟩ (.text s) = nulFree s :=
  rfl

@[simp] theorem Column.accepts_real (x : F) : Column.accepts ⟨name, .doublePrecision, notNull⟩ (.real x) = true :=
  rfl

@[simp] theorem Column.accepts_smallint (n : Int) :
    Column.accepts (F := F) ⟨name, .smallint, notNull⟩ (.int n) = inBits 16 n :=
  rfl

@[simp] theorem Column.accepts_integer (n : Int) :
    Column.accepts (F := F) ⟨name, .integer, notNull⟩ (.int n) = inBits 32 n :=
  rfl

@[simp] theorem Column.accepts_bigint (n : Int) :
    Column.accepts (F := F) ⟨name, .bigint, notNull⟩ (.int n) = inBits 64 n :=
  rfl

end Accepts

def fits (columns : List Column) (row : List (Cell F)) : Bool :=
  decide (columns.length = row.length) && (columns.zip row).all fun p => p.1.accepts p.2

/-! ## The tables -/

def tradesColumns : List Column :=
  [⟨"ts", .timestamptz, true⟩, ⟨"venue", .text, true⟩, ⟨"symbol", .text, true⟩, ⟨"price", .doublePrecision, true⟩,
    ⟨"qty", .doublePrecision, true⟩, ⟨"side", .smallint, true⟩, ⟨"recv_ts", .timestamptz, true⟩,
    ⟨"latency_us", .integer, false⟩, ⟨"seq", .bigint, false⟩]

def bookColumns : List Column :=
  [⟨"ts", .timestamptz, true⟩, ⟨"venue", .text, true⟩, ⟨"symbol", .text, true⟩, ⟨"bid", .doublePrecision, false⟩,
    ⟨"bid_qty", .doublePrecision, false⟩, ⟨"ask", .doublePrecision, false⟩, ⟨"ask_qty", .doublePrecision, false⟩,
    ⟨"spread_bp", .doublePrecision, false⟩]

def barsColumns : List Column :=
  [⟨"bucket", .timestamptz, true⟩, ⟨"venue", .text, true⟩, ⟨"symbol", .text, true⟩, ⟨"open", .doublePrecision, true⟩,
    ⟨"high", .doublePrecision, true⟩, ⟨"low", .doublePrecision, true⟩, ⟨"close", .doublePrecision, true⟩,
    ⟨"volume", .doublePrecision, true⟩, ⟨"notional", .doublePrecision, true⟩, ⟨"vwap", .doublePrecision, false⟩,
    ⟨"tick_count", .integer, true⟩]

def signalsColumns : List Column :=
  [⟨"ts", .timestamptz, true⟩, ⟨"venue", .text, true⟩, ⟨"symbol", .text, true⟩, ⟨"strategy", .text, true⟩,
    ⟨"action", .smallint, true⟩, ⟨"strength", .doublePrecision, false⟩, ⟨"ref_price", .doublePrecision, false⟩]

def latestColumns : List Column :=
  [⟨"venue", .text, true⟩, ⟨"symbol", .text, true⟩, ⟨"ts", .timestamptz, true⟩, ⟨"price", .doublePrecision, true⟩,
    ⟨"qty", .doublePrecision, true⟩, ⟨"side", .smallint, true⟩, ⟨"latency_us", .bigint, false⟩]

def TradeRow.cells (r : TradeRow F) : List (Cell F) :=
  [.timestamp r.ts, .text r.venue, .text r.symbol, .real r.price, .real r.qty, .int r.side, .timestamp r.recvTs,
    .int r.latencyUs, .int r.seq]

def BookRow.cells (r : BookRow F) : List (Cell F) :=
  [.timestamp r.ts, .text r.venue, .text r.symbol, .real r.bid, .real r.bidQty, .real r.ask, .real r.askQty,
    .real r.spreadBp]

def BarRow.cells (r : BarRow F) : List (Cell F) :=
  [.timestamp r.bucket, .text r.venue, .text r.symbol, .real r.openPrice, .real r.high, .real r.low, .real r.close,
    .real r.volume, .real r.notional, .real r.vwap, .int r.tickCount]

def SignalRow.cells (r : SignalRow F) : List (Cell F) :=
  [.timestamp r.ts, .text r.venue, .text r.symbol, .text r.strategy, .int r.action, .real r.strength, .real r.refPrice]

def LatestRow.cells (r : LatestRow F) : List (Cell F) :=
  [.text r.venue, .text r.symbol, .timestamp r.ts, .real r.price, .real r.qty, .int r.side, .int r.latencyUs]

/-- Every tuple that `write_batch` binds for the batch. -/
def StorageBatch.fits (b : StorageBatch F) : Bool :=
  b.trades.all (fun r => Storage.fits tradesColumns r.cells) &&
    (latestRows b.trades).all (fun r => Storage.fits latestColumns r.cells) &&
    b.books.all (fun r => Storage.fits bookColumns r.cells) &&
      b.signals.all (fun r => Storage.fits signalsColumns r.cells) &&
    b.bars.all fun r => Storage.fits barsColumns r.cells

/-! ## Row by row -/

theorem fits_trade (r : TradeRow F) :
    fits tradesColumns r.cells = true ↔
      inDatetime r.ts = true ∧ nulFree r.venue = true ∧ nulFree r.symbol = true ∧ inBits 16 r.side = true ∧
        inDatetime r.recvTs = true ∧ inBits 32 r.latencyUs = true ∧ inBits 64 r.seq = true := by
  simp [fits, tradesColumns, TradeRow.cells]

theorem fits_book (r : BookRow F) :
    fits bookColumns r.cells = true ↔ inDatetime r.ts = true ∧ nulFree r.venue = true ∧ nulFree r.symbol = true := by
  simp [fits, bookColumns, BookRow.cells]

theorem fits_bar (r : BarRow F) :
    fits barsColumns r.cells = true ↔
      inDatetime r.bucket = true ∧ nulFree r.venue = true ∧ nulFree r.symbol = true ∧ inBits 32 r.tickCount = true := by
  simp [fits, barsColumns, BarRow.cells]

theorem fits_signal (r : SignalRow F) :
    fits signalsColumns r.cells = true ↔
      inDatetime r.ts = true ∧ nulFree r.venue = true ∧ nulFree r.symbol = true ∧ nulFree r.strategy = true ∧
        inBits 16 r.action = true := by
  simp [fits, signalsColumns, SignalRow.cells]

theorem fits_latest (r : LatestRow F) :
    fits latestColumns r.cells = true ↔
      nulFree r.venue = true ∧ nulFree r.symbol = true ∧ inDatetime r.ts = true ∧ inBits 16 r.side = true ∧
        inBits 64 r.latencyUs = true := by
  simp [fits, latestColumns, LatestRow.cells]

theorem inBits_iff (bits : Nat) (n : Int) : inBits bits n = true ↔ -2 ^ (bits - 1) ≤ n ∧ n < 2 ^ (bits - 1) :=
  decide_eq_true_iff

theorem inBits_mono {m n : Nat} (hmn : m ≤ n) {x : Int} (h : inBits m x = true) : inBits n x = true := by
  rw [inBits_iff] at h ⊢
  have hpow : (2 : Int) ^ (m - 1) ≤ 2 ^ (n - 1) := by
    exact_mod_cast Nat.pow_le_pow_right (n := 2) (by decide) (Nat.sub_le_sub_right hmn 1)
  omega

/-- The latest rows are rows of the batch, and their columns are no narrower. -/
theorem latestRows_fit {trades : List (TradeRow F)} (h : ∀ r ∈ trades, fits tradesColumns r.cells = true) :
    ∀ l ∈ latestRows trades, fits latestColumns l.cells = true := by
  have hmem : ∀ (rs ns : List (TradeRow F)) (x : TradeRow F), x ∈ rs.foldl (upsert TradeRow.key TradeRow.newer) ns →
      x ∈ ns ∨ x ∈ rs := by
    intro rs
    induction rs with
    | nil => exact fun ns x hx => .inl hx
    | cons r rs ih =>
      intro ns x hx
      rcases ih _ x hx with hx | hx
      · rcases mem_upsert hx with hx | rfl | ⟨o, ho, rfl⟩
        · exact .inl hx
        · exact .inr List.mem_cons_self
        · unfold TradeRow.newer
          split
          · exact .inr List.mem_cons_self
          · exact .inl ho
      · exact .inr (List.mem_cons_of_mem r hx)
  intro l hl
  obtain ⟨r, hr, rfl⟩ := List.mem_map.1 hl
  have hr : r ∈ trades := (hmem trades [] r hr).resolve_left List.not_mem_nil
  obtain ⟨hts, hv, hs, hside, _, hlat, _⟩ := (fits_trade r).1 (h r hr)
  exact (fits_latest _).2 ⟨hv, hs, hts, hside, inBits_mono (by decide) hlat⟩

theorem fits_batch {b : StorageBatch F} (ht : ∀ r ∈ b.trades, fits tradesColumns r.cells = true)
    (hb : ∀ r ∈ b.books, fits bookColumns r.cells = true) (hs : ∀ r ∈ b.signals, fits signalsColumns r.cells = true)
    (hbars : ∀ r ∈ b.bars, fits barsColumns r.cells = true) : b.fits = true := by
  simp only [StorageBatch.fits, Bool.and_eq_true, List.all_eq_true]
  exact ⟨⟨⟨⟨ht, latestRows_fit ht⟩, hb⟩, hs⟩, hbars⟩

end Storage

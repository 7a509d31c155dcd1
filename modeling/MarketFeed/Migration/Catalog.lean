import Mathlib.Data.Sum.Order
import Mathlib.Data.String.Basic
import MarketFeed.Lib.Keyset
import MarketFeed.Lib.OrderBy
import MarketFeed.Lib.Binary64
/-!
# Tables, rows and their two encodings (catalog.py:89-221, time.py:11-35, sqlite_source.py:51-139,
postgres_target.py:88-164)

| here | there |
| --- | --- |
| `R` | the values of REAL and DOUBLE PRECISION columns, in their order |
| `SqlValue`, `SqlRow` | a value and a row as SQLite stores them and as both digests write them |
| `PgValue`, `PgRow` | a value and a row of the target; `time` is an instant in microseconds |
| `Source` | an SQLite file: rows under their rowids, each column a value of its declared type or NULL |
| `Env.isoInstant` | `datetime.fromisoformat` on the stripped text with `Z` written as an offset; none where there is no timezone |
| `epochUsToDatetime`, `datetimeToEpochUs` | the functions of `time.py`; `timestamp()` divides in binary64 |

A function that may raise is `none` there.
-/

namespace Migration

inductive SqliteType | integer | real | text
  deriving DecidableEq

structure ColumnMapping where
  name : String
  sqliteType : SqliteType
  nullable : Bool
  timeEncoding : Bool
  deriving DecidableEq

structure TableCatalog where
  name : String
  columns : List ColumnMapping
  primaryKey : List String
  verificationOrder : List String
  deriving DecidableEq

/-- `_col`. -/
def col (name : String) (sqliteType : SqliteType) : ColumnMapping := ⟨name, sqliteType, false, false⟩

def ColumnMapping.orNull (c : ColumnMapping) : ColumnMapping := { c with nullable := true }

def ColumnMapping.time (c : ColumnMapping) : ColumnMapping := { c with timeEncoding := true }

def instruments : TableCatalog where
  name := "instruments"
  columns := [col "venue" .text, col "symbol" .text, (col "base" .text).orNull, (col "quote" .text).orNull,
    col "active" .integer, (col "first_seen" .text).orNull.time, (col "last_seen" .text).orNull.time]
  primaryKey := ["venue", "symbol"]
  verificationOrder := ["venue", "symbol"]

def trades : TableCatalog where
  name := "trades"
  columns := [(col "ts" .integer).time, col "venue" .text, col "symbol" .text, col "price" .real, col "qty" .real,
    col "side" .integer, (col "recv_ts" .integer).time, (col "latency_us" .integer).orNull, (col "seq" .integer).orNull]
  primaryKey := []
  verificationOrder := ["venue", "symbol", "ts", "seq"]

def bookTop : TableCatalog where
  name := "book_top"
  columns := [(col "ts" .integer).time, col "venue" .text, col "symbol" .text, (col "bid" .real).orNull,
    (col "bid_qty" .real).orNull, (col "ask" .real).orNull, (col "ask_qty" .real).orNull,
      (col "spread_bp" .real).orNull]
  primaryKey := []
  verificationOrder := ["venue", "symbol", "ts"]

def bars1m : TableCatalog where
  name := "bars_1m"
  columns := [(col "bucket" .integer).time, col "venue" .text, col "symbol" .text, col "open" .real, col "high" .real,
    col "low" .real, col "close" .real, col "volume" .real, col "notional" .real, (col "vwap" .real).orNull,
    col "tick_count" .integer]
  primaryKey := ["venue", "symbol", "bucket"]
  verificationOrder := ["venue", "symbol", "bucket"]

def signals : TableCatalog where
  name := "signals"
  columns := [(col "ts" .integer).time, col "venue" .text, col "symbol" .text, col "strategy" .text,
    col "action" .integer,
    (col "strength" .real).orNull, (col "ref_price" .real).orNull]
  primaryKey := []
  verificationOrder := ["venue", "symbol", "strategy", "ts"]

def feedStats : TableCatalog where
  name := "feed_stats"
  columns := [(col "ts" .integer).time, col "service" .text, (col "venue" .text).orNull, (col "ticks" .integer).orNull,
    (col "latency_p50_us" .integer).orNull, (col "latency_p99_us" .integer).orNull, (col "gaps" .integer).orNull,
    (col "drops" .integer).orNull, (col "subscribers" .integer).orNull]
  primaryKey := []
  verificationOrder := ["service", "venue", "ts"]

def latest : TableCatalog where
  name := "latest"
  columns := [col "venue" .text, col "symbol" .text, (col "ts" .integer).time, col "price" .real, col "qty" .real,
    col "side" .integer, (col "latency_us" .integer).orNull]
  primaryKey := ["venue", "symbol"]
  verificationOrder := ["venue", "symbol"]

def qualityEvents : TableCatalog where
  name := "quality_events"
  columns := [(col "ts" .integer).time, col "check_name" .text, col "severity" .text, (col "venue" .text).orNull,
    (col "symbol" .text).orNull, (col "detail" .text).orNull, (col "value" .real).orNull]
  primaryKey := []
  verificationOrder := ["check_name", "severity", "venue", "symbol", "ts"]

def CATALOG : List TableCatalog :=
  [instruments, trades, bookTop, bars1m, signals, feedStats, latest, qualityEvents]

theorem catalog_names_nodup : (CATALOG.map TableCatalog.name).Nodup := by decide

def TableCatalog.columnNames (t : TableCatalog) : List String := t.columns.map (·.name)

/-- `_order_columns`: the verification order, then every other column. -/
def TableCatalog.orderColumns (t : TableCatalog) : List String :=
  t.verificationOrder ++ t.columnNames.filter fun c => decide (c ∉ t.verificationOrder)

/-! ## Values -/

variable {R : Type}

inductive SqlValue (R : Type)
  | null
  | int (n : ℤ)
  | real (x : R)
  | text (s : String)
  deriving DecidableEq

inductive PgValue (R : Type)
  | null
  | int (n : ℤ)
  | real (x : R)
  | text (s : String)
  | bool (b : Bool)
  | time (us : ℤ)
  deriving DecidableEq

abbrev SqlRow (R : Type) := List (SqlValue R)

abbrev PgRow (R : Type) := List (PgValue R)

/-- NULL where the column may be, else a value of the declared type. -/
def ColumnMapping.fits (c : ColumnMapping) : SqlValue R → Bool
  | .null => c.nullable
  | .int _ => c.sqliteType == .integer
  | .real _ => c.sqliteType == .real
  | .text _ => c.sqliteType == .text

def TableCatalog.Typed (t : TableCatalog) (row : SqlRow R) : Prop :=
  List.Forall₂ (fun c v => c.fits v = true) t.columns row

structure Source (R : Type) where
  table : String → List (ℤ × SqlRow R)
  ascending : ∀ name, Keyset.Ascending (table name)
  typed : ∀ t ∈ CATALOG, ∀ r ∈ table t.name, t.Typed r.2

/-- The value of a column of a row. -/
def TableCatalog.at (t : TableCatalog) (c : String) {β : Type} (row : List β) : Option β := row[t.columnNames.idxOf c]?

/-! ## Times -/

structure TableDigest (H : Type) where
  name : String
  rowCount : ℕ
  nullCounts : List (String × ℕ)
  minTimes : List (String × Option ℤ)
  maxTimes : List (String × Option ℤ)
  contentHash : H
  deriving DecidableEq

/-- The library functions the migration calls: `isoInstant`, and SHA-256 over JSON texts. -/
structure Env (R H F : Type) where
  isoInstant : String → Option ℤ
  /-- Over the JSON lines of the rows (`_digest_rows`). -/
  contentHash : List (SqlRow R) → H
  /-- `chunk_content_hash`. -/
  chunkContentHash : List (ℤ × SqlRow R) → H
  /-- `_fingerprint`. -/
  fingerprint : List (TableDigest H) → F

/-- `epoch_us_to_datetime`: years 1 to 9999. -/
def epochUsToDatetime (value : ℤ) : Option ℤ :=
  if -62135596800 ≤ value / 1000000 ∧ value / 1000000 ≤ 253402300799 then some value else none

/-- `datetime_to_epoch_us`: `timestamp()` of the instant, and its microsecond. -/
def datetimeToEpochUs (value : ℤ) : ℤ := Double.pyInt (Double.binary64 ((value : ℚ) / 1000000)) * 1000000 +
    value % 1000000

variable {H F : Type}

/-- `parse_aware_text`. -/
def Env.parseAwareText (env : Env R H F) (value : String) : Option ℤ := (env.isoInstant value).map datetimeToEpochUs

/-! ## The two encodings -/

/-- One turn of the loop of `_normalize_sqlite_row`. -/
def Env.normalizeSqlite (env : Env R H F) (t : TableCatalog) (c : ColumnMapping) : SqlValue R → Option (SqlValue R)
  | .null => some .null
  | raw =>
    if c.timeEncoding && t.name == "instruments" then
      match raw with
      | .text s => (env.parseAwareText s).map .int
      | _ => none
    else if t.name == "instruments" && c.name == "active" then
      match raw with
      | .int active => if active = 0 ∨ active = 1 then some (.int active) else none
      | _ => none
    else some raw

def Env.normalizeSqliteRow (env : Env R H F) (t : TableCatalog) (row : SqlRow R) : Option (SqlRow R) :=
  (t.columns.zip row).mapM fun (c, v) => env.normalizeSqlite t c v

/-- One turn of the loop of `_postgres_row`. -/
def postgresValue (t : TableCatalog) (c : ColumnMapping) : SqlValue R → Option (PgValue R)
  | .null => some .null
  | .int n =>
    if t.name == "instruments" && c.name == "active" then some (.bool (n == 1))
    else if c.timeEncoding then (epochUsToDatetime n).map .time
    else some (.int n)
  | .real x => if c.timeEncoding then none else some (.real x)
  | .text s => if c.timeEncoding then none else some (.text s)

def postgresRow (t : TableCatalog) (row : SqlRow R) : Option (PgRow R) := (t.columns.zip row).mapM fun (c, v) =>
  postgresValue t c v

/-- One turn of the loop of `_normalize_postgres_row`. -/
def normalizePostgres (c : ColumnMapping) : PgValue R → Option (SqlValue R)
  | .null => some .null
  | .time us => if c.timeEncoding then some (.int (datetimeToEpochUs us)) else none
  | .bool b => if c.timeEncoding then none else some (.int (if b then 1 else 0))
  | .int n => if c.timeEncoding then none else some (.int n)
  | .real x => if c.timeEncoding then none else some (.real x)
  | .text s => if c.timeEncoding then none else some (.text s)

def normalizePostgresRow (t : TableCatalog) (row : PgRow R) : Option (SqlRow R) :=
  (t.columns.zip row).mapM fun (c, v) => normalizePostgres c v

end Migration

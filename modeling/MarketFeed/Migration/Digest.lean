import Mathlib.Data.Int.ConditionallyCompleteOrder
import Mathlib.Data.Prod.Lex
import MarketFeed.Migration.Catalog
/-!
# The canonical digests (sqlite_source.py:38-48, :93-194, postgres_target.py:58-62, :88-193)

Each database lists a table in its own `ORDER BY` over the same columns, normalises the rows and hashes
them in that order. SQLite sorts NULLs first and breaks ties by rowid, PostgreSQL sorts NULLs last; text
is compared code point by code point, instants by time, `false` before `true`.
-/

namespace Migration

variable {R H F : Type}

/-! ## The order of the rows -/

/-- What a column is compared by, NULL apart. -/
abbrev Key (R : Type) := ℤ ⊕ₗ (R ⊕ₗ String)

def SqlValue.key : SqlValue R → Option (Key R)
  | .null => none
  | .int n => some (Sum.inlₗ n)
  | .real x => some (Sum.inrₗ (Sum.inlₗ x))
  | .text s => some (Sum.inrₗ (Sum.inrₗ s))

def PgValue.key : PgValue R → Option (Key R)
  | .null => none
  | .int n => some (Sum.inlₗ n)
  | .real x => some (Sum.inrₗ (Sum.inlₗ x))
  | .text s => some (Sum.inrₗ (Sum.inrₗ s))
  | .bool b => some (Sum.inlₗ (if b then 1 else 0))
  | .time us => some (Sum.inlₗ us)

/-- The columns of the `ORDER BY` of a row. -/
def TableCatalog.orderKey (t : TableCatalog) (row : SqlRow R) : List (Option (Key R)) :=
  t.orderColumns.map fun c => (t.at c row).bind SqlValue.key

def TableCatalog.pgOrderKey (t : TableCatalog) (row : PgRow R) : List (Option (Key R)) :=
  t.orderColumns.map fun c => (t.at c row).bind PgValue.key

section Orders

variable [LinearOrder R]

open OrderBy

/-- `ORDER BY {_order_columns(table)}, rowid` in SQLite. -/
def sqliteOrder (t : TableCatalog) (rows : List (ℤ × SqlRow R)) : List (ℤ × SqlRow R) :=
  rows.insertionSort fun a b => toLex (nullsFirst (t.orderKey a.2), a.1) ≤ toLex (nullsFirst (t.orderKey b.2), b.1)

/-- `ORDER BY {_order_columns(table)}` in PostgreSQL; every column is listed, so ties are equal rows. -/
def pgOrder (t : TableCatalog) (rows : List (PgRow R)) : List (PgRow R) :=
  rows.insertionSort fun a b => nullsLast (t.pgOrderKey a) ≤ nullsLast (t.pgOrderKey b)

/-! ## Digests -/

/-- The values of a time column. -/
def TableCatalog.times (t : TableCatalog) (c : String) (rows : List (SqlRow R)) : List ℤ :=
  rows.filterMap fun row => match (t.at c row : Option (SqlValue R)) with
    | some (.int n) => some n
    | _ => none

/-- `_digest_rows`, of the normalised rows. -/
def Env.digestRows (env : Env R H F) (t : TableCatalog) (rows : List (SqlRow R)) : TableDigest H where
  name := t.name
  rowCount := rows.length
  nullCounts := (t.columns.filter (·.nullable)).map fun c =>
    (c.name, rows.countP fun row => t.at c.name row = some .null)
  minTimes := (t.columns.filter (·.timeEncoding)).map fun c => (c.name, (t.times c.name rows).min?)
  maxTimes := (t.columns.filter (·.timeEncoding)).map fun c => (c.name, (t.times c.name rows).max?)
  contentHash := env.contentHash rows

structure StorageDigest (H F : Type) where
  fingerprint : F
  tables : List (TableDigest H)
  deriving DecidableEq

/-- `digest.table(name).row_count`. -/
def StorageDigest.rowCount (d : StorageDigest H F) (name : String) : ℕ :=
  ((d.tables.find? fun t => t.name == name).map (·.rowCount)).getD 0

def KNOWN_VENUES : List String := ["UPBIT", "BINANCE", "KIS", "KRX", "KRX-IDX", "RATE"]

/-- `_preflight_values`. -/
def preflightValues (src : Source R) : Bool :=
  CATALOG.all fun t => (src.table t.name).all fun r => decide (0 < r.1) &&
    match t.at "venue" r.2 with
    | some (.text v) => KNOWN_VENUES.contains v
    | _ => true

/-- `_sqlite_table_digest`. -/
def Env.sqliteTableDigest (env : Env R H F) (t : TableCatalog) (rows : List (ℤ × SqlRow R)) : Option (TableDigest H) :=
  ((sqliteOrder t rows).mapM fun r => env.normalizeSqliteRow t r.2).map (env.digestRows t)

/-- `canonical_sqlite_digest`. -/
def Env.canonicalSqliteDigest (env : Env R H F) (src : Source R) : Option (StorageDigest H F) :=
  if preflightValues src then
    (CATALOG.mapM fun t => env.sqliteTableDigest t (src.table t.name)).map fun ts => ⟨env.fingerprint ts, ts⟩
  else none

/-- `_postgres_table_digest`. -/
def Env.postgresTableDigest (env : Env R H F) (t : TableCatalog) (rows : List (PgRow R)) : Option (TableDigest H) :=
  ((pgOrder t rows).mapM (normalizePostgresRow t)).map (env.digestRows t)

/-- `canonical_postgres_digest_from_connection`. -/
def Env.canonicalPostgresDigest (env : Env R H F) (target : String → List (PgRow R)) : Option (StorageDigest H F) :=
  (CATALOG.mapM fun t => env.postgresTableDigest t (target t.name)).map fun ts => ⟨env.fingerprint ts, ts⟩

end Orders

/-! ## Inserting -/

/-- The primary key of a row. -/
def TableCatalog.pk (t : TableCatalog) (row : PgRow R) : List (Option (PgValue R)) :=
  t.primaryKey.map fun c => t.at c row

/-- One `INSERT`: refused where the table has a primary key and it is taken. -/
def insertRow [DecidableEq R] (t : TableCatalog) (table : List (PgRow R)) (row : PgRow R) : Option (List (PgRow R)) :=
  if t.primaryKey ≠ [] ∧ ∃ r ∈ table, t.pk r = t.pk row then none else some (table ++ [row])

/-- `insert_chunk` (postgres_target.py:88-99). -/
def insertChunk [DecidableEq R] (t : TableCatalog) (table : List (PgRow R)) (rows : List (SqlRow R)) :
    Option (List (PgRow R)) :=
  (rows.mapM (postgresRow t)).bind fun converted => converted.foldlM (insertRow t) table

end Migration

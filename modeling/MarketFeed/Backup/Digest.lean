import MarketFeed.Lib.FlatJson
import MarketFeed.Lib.Utf8
import MarketFeed.Migration.Digest
import MarketFeed.Retention.Canonical
/-!
# A backup and its restore drill (backup.py:79-130, :302-382, :383-448, :480-537, :566-583)

The digest of a table hashes its rows as JSON lines, in the order of a statement that sorts by every column.
`create_backup` writes the row counts and the hashes of one snapshot to the manifest, `restore_drill` compares
them with those of the database it restored into.

| here | there |
| --- | --- |
| `Contents` | the rows of a table, each column NULL or a value of its PostgreSQL type; an instant as psycopg2 can return it |
| `Database` | the application tables, none where `to_regclass` finds no table |
| `Env.reals`, `Env.truth` | `float.__repr__` (and `NaN`, `Infinity`), `bool` of a float |
| `Hashing` | the variables of the loop of `_stream_table_digest`; `hashed` is what the hasher has been given |
| the argument `dump` | what `pg_dump` writes of the snapshot |
| the argument `restored` | the database `pg_restore` leaves, or the error that comes before that |
-/

namespace Backup

open Migration (TableCatalog ColumnMapping PgValue PgRow TableDigest StorageDigest CATALOG datetimeToEpochUs pgOrder)
open FlatJson (Value RealText)
open Retention.Canonical (fetchAll)

variable {R H F : Type}

def APP_TABLES : List String :=
  ["instruments", "trades", "book_top", "bars_1m", "signals", "feed_stats", "latest", "quality_events"]

theorem appTables_eq : APP_TABLES = CATALOG.map (·.name) := rfl

def FETCH_CHUNK : ℕ := 50000

/-! ## Tables -/

/-- NULL, or a value of the PostgreSQL type; the years of an instant are 1 to 9999. -/
def stores (c : ColumnMapping) : PgValue R → Bool
  | .null => true
  | .time us => c.timeEncoding && decide (-62135596800000000 ≤ us ∧ us < 253402300800000000)
  | .bool _ => !c.timeEncoding && c.name == "active"
  | .int _ => !c.timeEncoding && c.name != "active" && c.sqliteType == .integer
  | .real _ => !c.timeEncoding && c.name != "active" && c.sqliteType == .real
  | .text _ => !c.timeEncoding && c.name != "active" && c.sqliteType == .text

structure Contents (R : Type) (t : TableCatalog) where
  rows : List (PgRow R)
  typed : ∀ row ∈ rows, List.Forall₂ (fun c v => stores c v = true) t.columns row

abbrev Database (R : Type) := (t : TableCatalog) → Option (Contents R t)

/-! ## The digest -/

structure Env (R H F : Type) where
  reals : RealText R
  truth : R → Bool
  sha256 : List UInt8 → H
  collisionFree : Function.Injective sha256
  fingerprint : List (TableDigest H) → F

variable (env : Env R H F)

/-- A value that is no datetime. -/
def normalizeScalar (c : ColumnMapping) (truth : Bool) (value : Value R) : Except String (Value R) :=
  if c.timeEncoding then .error "PostgreSQL timestamp column is not a datetime"
  else if c.name == "active" then .ok (.int (if truth then 1 else 0))
  else .ok value

/-- One turn of the loop of `_normalize_postgres_row`. -/
def Env.normalizePostgres (c : ColumnMapping) : PgValue R → Except String (Value R)
  | .null => .ok .null
  | .time us =>
    if c.timeEncoding then .ok (.int (datetimeToEpochUs us))
    else if c.name == "active" then .ok (.int 1)
    else .error "PostgreSQL datetime value appeared in a non-time column"
  | .bool b => normalizeScalar c b (.bool b)
  | .int n => normalizeScalar c (n != 0) (.int n)
  | .real x => normalizeScalar c (env.truth x) (.real x)
  | .text s => normalizeScalar c (s != "") (.text s)

def Env.normalizePostgresRow (t : TableCatalog) (row : PgRow R) : Except String (List (Value R)) :=
  (t.columns.zip row).mapM fun x => env.normalizePostgres x.1 x.2

structure Hashing where
  hashed : List UInt8
  rowCount : ℕ
  nullCounts : List (String × ℕ)
  minTimes : List (String × Option ℤ)
  maxTimes : List (String × Option ℤ)

def Hashing.start (t : TableCatalog) : Hashing where
  hashed := []
  rowCount := 0
  nullCounts := (t.columns.filter (·.nullable)).map fun c => (c.name, 0)
  minTimes := (t.columns.filter (·.timeEncoding)).map fun c => (c.name, none)
  maxTimes := (t.columns.filter (·.timeEncoding)).map fun c => (c.name, none)

/-- `entries[name] = f(entries[name])`, where there is a `name`. -/
def updateAt {β : Type} (name : String) (f : β → β) (entries : List (String × β)) : List (String × β) :=
  entries.map fun e => if e.1 = name then (e.1, f e.2) else e

/-- One turn of the loop over the columns of a normalised row. -/
def Hashing.column (s : Hashing) (c : ColumnMapping) : Value R → Hashing
  | .null => if c.nullable then { s with nullCounts := updateAt c.name (· + 1) s.nullCounts } else s
  | .int n => { s with
      minTimes := updateAt c.name (fun current => some (current.elim n (min · n))) s.minTimes
      maxTimes := updateAt c.name (fun current => some (current.elim n (max · n))) s.maxTimes }
  | _ => s

/-- One turn of the loop over the rows. -/
def Env.hashRow (t : TableCatalog) (s : Hashing) (row : PgRow R) : Except String Hashing := do
  let normalized ← env.normalizePostgresRow t row
  let given := { s with
    hashed := s.hashed ++ Utf8.encode (env.reals.array normalized) ++ Utf8.encode ['\n']
    rowCount := s.rowCount + 1 }
  return (t.columns.zip normalized).foldl (fun s x => s.column x.1 x.2) given

variable [LinearOrder R]

/-- `_stream_table_digest`. -/
def Env.streamTableDigest (t : TableCatalog) : Option (Contents R t) → Except String (TableDigest H)
  | none => .error s!"required application table is missing: {t.name}"
  | some table => do
    let s ← (fetchAll FETCH_CHUNK (pgOrder t table.rows)).foldlM (fun s chunk => chunk.foldlM (env.hashRow t) s)
      (Hashing.start t)
    return ⟨t.name, s.rowCount, s.nullCounts, s.minTimes, s.maxTimes, env.sha256 s.hashed⟩

/-- `_snapshot_digest`. -/
def Env.snapshotDigest (db : Database R) : Except String (StorageDigest H F) := do
  let tables ← CATALOG.mapM fun t => env.streamTableDigest t (db t)
  return ⟨env.fingerprint tables, tables⟩

/-! ## Manifest and drill -/

/-- Of the manifest what the drill reads. -/
structure Manifest (H : Type) where
  artifactSha256 : H
  tableCounts : List (String × ℕ)
  tableDigests : List (String × H)

def counts (digest : StorageDigest H F) : List (String × ℕ) := digest.tables.map fun td => (td.name, td.rowCount)

def digests (digest : StorageDigest H F) : List (String × H) := digest.tables.map fun td => (td.name, td.contentHash)

/-- `create_backup`, as far as the manifest. -/
def Env.createBackup (src : Database R) (dump : List UInt8) : Except String (Manifest H) := do
  let digest ← env.snapshotDigest src
  return ⟨env.sha256 dump, counts digest, digests digest⟩

variable [DecidableEq H]

/-- The loop of `_reconcile_restored`. -/
def checkTables (counts : List (String × ℕ)) (digests : List (String × H)) (manifest : Manifest H) : List String →
    Except String Unit
  | [] => .ok ()
  | table :: rest =>
    if counts.lookup table ≠ manifest.tableCounts.lookup table then
      .error s!"restored {table} count does not match manifest"
    else if digests.lookup table ≠ manifest.tableDigests.lookup table then
      .error s!"restored {table} digest does not match manifest"
    else checkTables counts digests manifest rest

/-- `_reconcile_restored`. -/
def Env.reconcileRestored (db : Database R) (manifest : Manifest H) : Except String (List (String × ℕ)) := do
  let digest ← env.snapshotDigest db
  checkTables (counts digest) (digests digest) manifest APP_TABLES
  return counts digest

structure RestoreDrillResult where
  status : String
  database : String
  tables : List (String × ℕ)
  cleanup : String

/-- `restore_drill`. -/
def Env.restoreDrill (artifact : List UInt8) (manifest : Manifest H) (database : String)
    (restored : Except String (Database R))
    (cleanupError : Option String) : Except String RestoreDrillResult :=
  if env.sha256 artifact ≠ manifest.artifactSha256 then .error "restore artifact digest does not match trusted manifest"
  else do
    let db ← restored
    let tables ← env.reconcileRestored db manifest
    match cleanupError with
    | some e => .error s!"restore cleanup failed: {e}"
    | none => return ⟨"restored", database, tables, "dropped"⟩

end Backup

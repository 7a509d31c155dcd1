import MarketFeed.Lib.Csv
import MarketFeed.Migration.Digest
import MarketFeed.Retention.Backlog
/-!
# The canonical stream of a day (archive.py:78-86, :256-313, :332-333, :346-357, retention.py:275-320, db.py:494-509,
:892-921)

`export_day` writes the rows of a day to a CSV and hashes what it writes, `_source_day_proof` hashes the rows of
a day in a loop of its own. Both go through one statement, ordered by every column it selects, in chunks.

| here | there |
| --- | --- |
| `Storage.table` | a table's rows in the order in which they lie there |
| `Storage.streams`, `asDict` | is there a `stream`; are the rows of `query` dicts or tuples |
| an order on the values | how the database compares the values of a column; two that tie are the same value |
| `FloatRepr` | `repr` of a float, the shortest text that reads back as it |
| `excel` | `csv.writer(buf, lineterminator="\n")`; a lone carriage return is quoted, as in CPython 3.12 and 3.11.10 (not yet in 3.11.2) |
| `Sink` | `buf`, `rows`, and what the hash and the gzip file have been given |
| the argument `sha` | `hexdigest` of SHA-256, after any number of `update` the one of all the data |
-/

namespace Retention.Canonical

open Migration (SqlValue SqlRow TableCatalog)

variable {R : Type}

/-! ## Tables -/

/-- `ARCHIVE_TABLES`. -/
def ARCHIVE_TABLES : Table → List String
  | .trades => ["ts", "venue", "symbol", "price", "qty", "side", "recv_ts", "latency_us", "seq"]
  | .bookTop => ["ts", "venue", "symbol", "bid", "bid_qty", "ask", "ask_qty", "spread_bp"]

def FETCH_CHUNK : ℕ := 50000

/-- The columns with their types. -/
def schema : Table → TableCatalog
  | .trades => Migration.trades
  | .bookTop => Migration.bookTop

theorem archiveTables_eq (t : Table) : ARCHIVE_TABLES t = (schema t).columnNames := by
  cases t <;> rfl

theorem archiveTables_nodup (t : Table) : (ARCHIVE_TABLES t).Nodup := by
  cases t <;> decide

structure Stored (R : Type) where
  ts : ℤ
  rest : SqlRow R
  deriving DecidableEq

/-- The row as it is selected. -/
def Stored.cells (r : Stored R) : SqlRow R := .int r.ts :: r.rest

theorem cells_injective : Function.Injective (Stored.cells : Stored R → SqlRow R) := by
  intro a b h
  obtain ⟨hts, hrest⟩ := List.cons.inj h
  cases a
  cases b
  cases hts
  cases hrest
  rfl

structure Storage (R : Type) where
  table : Table → List (Stored R)
  streams : Bool
  asDict : Bool
  width : ∀ t, ∀ r ∈ table t, r.cells.length = (ARCHIVE_TABLES t).length

/-- The rows of a day. -/
def Storage.day (st : Storage R) (t : Table) (d : ℤ) : List (Stored R) :=
  (st.table t).filter fun r => decide (dayStartUs d ≤ r.ts ∧ r.ts < dayStartUs d + dayUs)

/-! ## The statement and its rows -/

section Select

variable [LinearOrder (SqlValue R)]

/-- `SELECT … WHERE ts >= lo AND ts < hi ORDER BY …`, over the columns of `ARCHIVE_TABLES`. -/
def Storage.select (st : Storage R) (t : Table) (d : ℤ) : List (SqlRow R) :=
  ((st.day t d).map Stored.cells).insertionSort (· ≤ ·)

inductive Fetched (R : Type)
  | tuple (values : SqlRow R)
  | dict (items : List (String × SqlValue R))

def Storage.query (st : Storage R) (t : Table) (d : ℤ) : List (Fetched R) :=
  (st.select t d).map fun cells => if st.asDict then .dict ((ARCHIVE_TABLES t).zip cells) else .tuple cells

/-- `fetchmany(chunk)` until it is empty. -/
def fetchAll {α : Type} (chunk : ℕ) (rows : List α) : List (List α) :=
  if _h : rows.take chunk = [] then [] else rows.take chunk :: fetchAll chunk (rows.drop chunk)
termination_by rows.length
decreasing_by
  have hne : chunk ≠ 0 ∧ rows ≠ [] := by simpa using _h
  have := List.length_pos_iff.2 hne.2
  rw [List.length_drop]
  omega

/-- `rows[i:i + chunk] for i in range(0, len(rows), chunk)`. -/
def slices {α : Type} (chunk : ℕ) (rows : List α) : List (List α) :=
  (List.range ((rows.length + chunk - 1) / chunk)).map fun k => (rows.drop (k * chunk)).take chunk

/-- `_iter_rows`. -/
def Storage.iterRows (st : Storage R) (t : Table) (d : ℤ) : List (List (SqlRow R)) :=
  if st.streams then fetchAll FETCH_CHUNK (st.select t d)
  else (slices FETCH_CHUNK (st.query t d)).map fun chunk => chunk.map fun
    | .dict items => items.map (·.2)
    | .tuple values => values

/-- The `iterator` of `_source_day_proof`. -/
def Storage.iterator (st : Storage R) (t : Table) (d : ℤ) : List (List (Fetched R)) :=
  if st.streams then (fetchAll FETCH_CHUNK (st.select t d)).map fun chunk => chunk.map .tuple
  else slices FETCH_CHUNK (st.query t d)

/-- `tuple(row.get(col) for col in cols)`, of a dict. -/
def Fetched.values (cols : List String) : Fetched R → SqlRow R
  | .dict items => cols.map fun col => (items.lookup col).getD .null
  | .tuple values => values

end Select

/-! ## Text and bytes -/

/-- `repr` of a float. -/
structure FloatRepr (R : Type) where
  repr : R → String
  injective : Function.Injective repr
  ne_empty : ∀ x, repr x ≠ ""

/-- What a `csv.writer` makes of a value. -/
def FloatRepr.cell (fr : FloatRepr R) : SqlValue R → List Char
  | .null => []
  | .int n => n.repr.toList
  | .real x => (fr.repr x).toList
  | .text s => s.toList

def excel : Csv.Dialect Char where
  delimiter := ','
  quote := '\x22'
  terminator := '\n'
  special c := c == ',' || c == '\x22' || c == '\n' || c == '\r'
  special_delimiter := by decide
  special_quote := by decide
  special_terminator := by decide
  delimiter_ne_quote := by decide
  terminator_ne_quote := by decide
  delimiter_ne_terminator := by decide

/-- `writerow(cols)`. -/
def header (t : Table) : List Char := excel.row ((ARCHIVE_TABLES t).map String.toList)

/-- `writerows(chunk)`. -/
def FloatRepr.writerows (fr : FloatRepr R) (rows : List (SqlRow R)) : List Char :=
  excel.rows (rows.map fun row => row.map fr.cell)

/-- `encode()`. -/
def encode (s : List Char) : ByteArray := (String.ofList s).toUTF8

/-! ## The two loops -/

structure Sink where
  buf : List Char
  rows : ℕ
  hashed : ByteArray
  written : ByteArray

/-- One turn of the loop of `export_day`. -/
def FloatRepr.exportChunk (fr : FloatRepr R) (s : Sink) (chunk : List (SqlRow R)) : Sink :=
  let data := encode (s.buf ++ fr.writerows chunk)
  { buf := [], rows := s.rows + chunk.length, hashed := s.hashed ++ data, written := s.written ++ data }

/-- One turn of the loop of `_source_day_proof`. -/
def FloatRepr.proofChunk (fr : FloatRepr R) (t : Table) (s : Sink) (chunk : List (Fetched R)) : Sink :=
  let values := chunk.map (Fetched.values (ARCHIVE_TABLES t))
  let data := encode (s.buf ++ fr.writerows values)
  { s with buf := [], rows := s.rows + values.length, hashed := s.hashed ++ data }

variable [LinearOrder (SqlValue R)]

/-- `export_day`, once there is no export yet: what it has written and hashed. -/
def FloatRepr.exportSink (fr : FloatRepr R) (st : Storage R) (t : Table) (d : ℤ) : Sink :=
  let s := (st.iterRows t d).foldl fr.exportChunk ⟨header t, 0, ByteArray.empty, ByteArray.empty⟩
  let tail := encode s.buf
  { s with hashed := s.hashed ++ tail, written := s.written ++ tail }

/-- `source_rows` and `source_content_sha256` of the manifest. -/
def FloatRepr.exportDay (fr : FloatRepr R) (sha : ByteArray → String) (st : Storage R) (t : Table) (d : ℤ) : DayProof :=
  ⟨(fr.exportSink st t d).rows, sha (fr.exportSink st t d).hashed⟩

def FloatRepr.proofSink (fr : FloatRepr R) (st : Storage R) (t : Table) (d : ℤ) : Sink :=
  let s := (st.iterator t d).foldl (fr.proofChunk t) ⟨header t, 0, ByteArray.empty, ByteArray.empty⟩
  { s with hashed := s.hashed ++ encode s.buf }

/-- `_source_day_proof`. -/
def FloatRepr.sourceDayProof (fr : FloatRepr R) (sha : ByteArray → String) (st : Storage R) (t : Table) (d : ℤ) :
    DayProof :=
  ⟨(fr.proofSink st t d).rows, sha (fr.proofSink st t d).hashed⟩

end Retention.Canonical

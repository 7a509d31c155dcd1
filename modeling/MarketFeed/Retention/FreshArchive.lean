import MarketFeed.Lib.FileLines
import MarketFeed.Lib.FlatJson
import MarketFeed.Retention.SameProof
import MarketFeed.Retention.VerifyCache
/-!
# A fresh archive (archive.py:289-343, :398-426)

`export_day` counts the rows it writes, `_verify_file_uncached` the lines of the decompressed text less the header. A
text with a line break in it is written between quotes and read back by a CSV reader, but it takes more than one line:
a fresh archive verifies exactly when no text of the day holds a `\n` or a `\r` (`fresh_verifies_iff`).

| here | there |
| --- | --- |
| `GzipFile` | `gzip` over a file |
| `lastLine` | `for i, _line in enumerate(fh): rows = i` |
| `Host.manifest` | the dict of the `Manifest`, in the order of its items |
| `GzipFile.records` | `csv.DictReader` over the file opened as the verifier opens it, with no limit on the length of a field |
-/

namespace Retention.Fresh

open Migration (SqlValue SqlRow)
open Canonical
open FileLines (isBreak fileLines)
open VerifyCache (Bytes)

variable {R : Type}

inductive ReadError
  /-- `OSError`, `EOFError`, `gzip.BadGzipFile`. -/
  | caught
  /-- `zlib.error`. -/
  | raised

structure GzipFile where
  compress : ByteArray → Bytes
  decompress : Bytes → Except ReadError ByteArray
  decompress_compress : ∀ data, decompress (compress data) = .ok data

/-- `rows` after the loop over the lines. -/
def lastLine (lines : List (List Char)) : ℕ := lines.zipIdx.foldl (fun _ line => line.2) 0

def GzipFile.verifierLine (gz : GzipFile) (b : Bytes) : VerifyCache.Gzip :=
  match gz.decompress b with
  | .error .caught => .caught
  | .error .raised => .raised
  | .ok data =>
    match String.fromUTF8? data with
    | none => .raised
    | some s => .lastLine (lastLine (fileLines s.toList))

/-- The records behind the header. -/
def GzipFile.records (gz : GzipFile) (b : Bytes) : Option (List (List (List Char))) := do
  let data ← (gz.decompress b).toOption
  let s ← String.fromUTF8? data
  return (excel.read s.toList).drop 1

structure Host extends VerifyCache.Env where
  gz : GzipFile
  isoformat : ℤ → String
  lastLine_eq : ∀ b, lastLine b = gz.verifierLine b
  str_str : ∀ s, str (.str s) = s
  int_int : ∀ n, int (.int n) = some n

/-- The shortest text of a float is on one line. -/
structure LineRepr (R : Type) extends FloatRepr R where
  plain : ∀ x, ∀ c ∈ (repr x).toList, isBreak c = false

/-! ## What `export_day` leaves behind -/

section Export

variable [LinearOrder (SqlValue R)] (x : Host) (fr : LineRepr R) (st : Storage R) (t : Table) (d : ℤ)

def Host.artifact : Bytes := x.gz.compress (fr.exportSink st t d).written

def Host.manifest : Fields :=
  let rows := (fr.exportSink st t d).rows
  let lo := dayStartUs d
  let hi := lo + dayUs
  [("table", .str t.name), ("day", .str (x.isoformat d)), ("columns", .list ((ARCHIVE_TABLES t).map .str)),
    ("rows", .int rows),
    ("ts_from_us", .int lo), ("ts_to_us", .int hi), ("source_table", .str t.name), ("source_day", .str (x.isoformat d)),
    ("source_from_us", .int lo), ("source_to_us", .int hi), ("source_rows", .int rows),
    ("source_content_sha256", .str (x.sha256 (fr.exportSink st t d).hashed.data.toList)),
    ("bytes", .int (x.artifact fr st t d).length), ("sha256", .str (x.sha256 (x.artifact fr st t d))),
    ("format", .str "csv.gz (헤더 1줄 포함, UTF-8, ts 오름차순)")]

/-- What `man.get` answers. -/
def Host.man : VerifyCache.Manifest := fun key => (x.manifest fr st t d).lookup key

end Export

/-- The value is on one line. -/
def oneLine : SqlValue R → Bool
  | .text s => s.toList.all fun c => !isBreak c
  | _ => true

/-! ## Lines -/

theorem zipIdx_last {α : Type} (l : List α) (n k : ℕ) : (l.zipIdx n).foldl (fun _ a => a.2) k = if l = [] then
    k else n + l.length - 1 := by
  induction l generalizing n k with
  | nil => rfl
  | cons a l ih =>
    rw [List.zipIdx_cons, List.foldl_cons, ih, if_neg (List.cons_ne_nil a l), List.length_cons]
    split
    · rename_i h
      rw [h]
      rfl
    · omega

theorem lastLine_eq_sub (lines : List (List Char)) : lastLine lines = lines.length - 1 := by
  rw [lastLine, zipIdx_last]
  split
  · rename_i h
    rw [h]
    rfl
  · omega

theorem special_of_isBreak {c : Char} (h : isBreak c = true) : excel.special c = true := by
  have hc : c = '\n' ∨ c = '\r' := by simpa [isBreak] using h
  rcases hc with rfl | rfl <;> rfl

/-- A break within a field has the closing quote behind it. -/
theorem row_break {row : List (List Char)} {f : List Char} {b : Char} (hf : f ∈ row) (hb : b ∈ f)
    (h : isBreak b = true) :
    ∃ u v, excel.row row = u ++ b :: v ∧ excel.quote ∈ v := by
  obtain ⟨u, force, v, hrow⟩ := Csv.row_of_mem excel hf
  have hany : f.any excel.special = true := List.any_eq_true.2 ⟨b, hb, special_of_isBreak h⟩
  obtain ⟨s, s', hs⟩ := List.append_of_mem (Csv.subset_escape excel f hb)
  refine ⟨u ++ excel.quote :: s, s' ++ excel.quote :: v, ?_, by simp⟩
  rw [hrow, Csv.Dialect.field, hany, Bool.or_true, if_pos rfl, Csv.Dialect.quoted, hs]
  simp

/-- **A row is on one line exactly when all its fields are.** -/
theorem row_lines (row : List (List Char)) :
    1 ≤ (fileLines (excel.row row)).length ∧
      ((fileLines (excel.row row)).length = 1 ↔ ∀ f ∈ row, ∀ c ∈ f, isBreak c = false) := by
  have hne := FileLines.fileLines_ne_nil (Csv.row_ne_nil excel row)
  refine ⟨List.length_pos_iff.2 hne, fun h f hf b hb => ?_, fun h => ?_⟩
  · by_contra hbreak
    have hbreak : isBreak b = true := by simpa using hbreak
    obtain ⟨u, v, hrow, hquote⟩ := row_break hf hb hbreak
    rw [hrow] at h
    have := FileLines.break_of_one_line h _ (FileLines.mem_dropWhile hbreak hquote)
    cases this
  · obtain ⟨body, hrow, hbody⟩ := Csv.row_body excel row
    have hplain : ∀ c ∈ body, isBreak c = false := by
      intro c hc
      rcases hbody c hc with rfl | rfl | ⟨f, hf, hcf⟩
      · rfl
      · rfl
      · exact h f hf c hcf
    rw [hrow]
    exact congrArg List.length (FileLines.fileLines_plain hplain)

theorem fileLines_rows_cons (row : List (List Char)) (rows : List (List (List Char))) :
    fileLines (excel.rows (row :: rows)) = fileLines (excel.row row) ++ fileLines (excel.rows rows) := by
  obtain ⟨body, hrow, -⟩ := Csv.row_body excel row
  have hcons : excel.rows (row :: rows) = body ++ '\n' :: excel.rows rows := by
    rw [Csv.Dialect.rows, List.flatMap_cons, hrow, List.append_assoc]
    rfl
  rw [hcons, hrow]
  exact FileLines.fileLines_append body _

/-- **There are at least as many lines as rows, and more when a field holds a break.** -/
theorem rows_lines (rows : List (List (List Char))) :
    rows.length ≤ (fileLines (excel.rows rows)).length ∧
      ((fileLines (excel.rows rows)).length = rows.length ↔ ∀ row ∈ rows, ∀ f ∈ row, ∀ c ∈ f, isBreak c = false) := by
  induction rows with
  | nil => exact ⟨Nat.zero_le _, by simp [Csv.Dialect.rows, fileLines]⟩
  | cons row rows ih =>
    obtain ⟨hpos, hrow⟩ := row_lines row
    rw [fileLines_rows_cons, List.length_append, List.length_cons, List.forall_mem_cons, ← hrow, ← ih.2]
    have := ih.1
    constructor <;> omega

/-! ## The stream of a day -/

/-- The fields that are written, the header first. -/
def rowsOf (fr : FloatRepr R) (t : Table) (rows : List (SqlRow R)) : List (List (List Char)) :=
  (ARCHIVE_TABLES t).map String.toList :: rows.map fun row => row.map fr.cell

theorem stream_eq (fr : FloatRepr R) (t : Table) (rows : List (SqlRow R)) :
    fr.stream t rows = excel.rows (rowsOf fr t rows) := rfl

theorem header_plain (t : Table) : ∀ f ∈ (ARCHIVE_TABLES t).map String.toList, ∀ c ∈ f, isBreak c = false := by
  have hall : ((ARCHIVE_TABLES t).all fun col => col.toList.all fun c => !isBreak c) = true := by
    cases t <;> rfl
  simpa using hall

theorem int_plain {n : ℤ} {c : Char} (h : c ∈ n.repr.toList) : isBreak c = false := by
  rcases FlatJson.int_chars h with rfl | hdigit
  · rfl
  · have hlf : c ≠ '\n' := fun h => by simp [h] at hdigit
    have hcr : c ≠ '\r' := fun h => by simp [h] at hdigit
    simp [isBreak, hlf, hcr]

theorem cell_plain (fr : LineRepr R) (v : SqlValue R) : (∀ c ∈ fr.cell v, isBreak c = false) ↔ oneLine v = true := by
  cases v with
  | null => simp [FloatRepr.cell, oneLine]
  | int n => exact iff_of_true (fun c hc => int_plain hc) rfl
  | real x => exact iff_of_true (fr.plain x) rfl
  | text s => simp [FloatRepr.cell, oneLine]

section Verify

variable [LinearOrder (SqlValue R)] (x : Host) (fr : LineRepr R) (st : Storage R) (t : Table) (d : ℤ)

theorem fromUTF8_encode (s : List Char) : String.fromUTF8? (encode s) = some (String.ofList s) := by
  have hvalid : (encode s).IsValidUTF8 := (String.ofList s).isValidUTF8
  rw [String.fromUTF8?, dif_pos hvalid]
  rfl

/-- The text that is read from the artifact. -/
theorem artifact_text : ∃ data, x.gz.decompress (x.artifact fr st t d) = .ok data ∧
    String.fromUTF8? data = some (String.ofList (fr.stream t (st.select t d))) := by
  refine ⟨_, x.gz.decompress_compress _, ?_⟩
  rw [exportSink_written, (exportSink_eq fr.toFloatRepr st t d).2, fromUTF8_encode]

/-- **A reader gets back the fields of every row.** -/
theorem records_artifact : x.gz.records (x.artifact fr st t d) =
    some ((st.select t d).map fun row => row.map fr.cell) := by
  have hne : ∀ row ∈ rowsOf fr.toFloatRepr t (st.select t d), row ≠ [] := by
    intro row hrow
    rcases List.mem_cons.1 hrow with rfl | hrow
    · cases t <;> simp [ARCHIVE_TABLES]
    · obtain ⟨cells, hcells, rfl⟩ := List.mem_map.1 hrow
      have hlen := select_width st t d hcells
      intro he
      rw [List.map_eq_nil_iff.1 he] at hlen
      cases t <;> cases hlen
  obtain ⟨data, hdata, hs⟩ := artifact_text x fr st t d
  simp only [GzipFile.records, hdata, hs, Except.toOption, Option.bind_eq_bind, Option.bind_some, Option.pure_def,
    String.toList_ofList, stream_eq,
    Csv.read_rows excel hne]
  rfl

/-- What the verifier answers turns on the count alone. -/
theorem verify_eq (mtimeNs : ℤ) : x.verifyUncached (some ⟨x.artifact fr st t d, mtimeNs, true⟩) (x.man fr st t d) =
    .answer (decide (lastLine (fileLines (fr.stream t (st.select t d))) = (st.day t d).length)) := by
  obtain ⟨data, hdata, hs⟩ := artifact_text x fr st t d
  have hline : x.toEnv.lastLine (x.artifact fr st t d) =
      .lastLine (lastLine (fileLines (fr.stream t (st.select t d)))) := by
    simp only [x.lastLine_eq, GzipFile.verifierLine, hdata, hs, String.toList_ofList]
  have hbytes : x.man fr st t d "bytes" = some (.int (x.artifact fr st t d).length) := rfl
  have hsha : x.man fr st t d "sha256" = some (.str (x.sha256 (x.artifact fr st t d))) := rfl
  have hrows : x.man fr st t d "rows" = some (.int (st.day t d).length) := by
    rw [← (exportSink_eq fr.toFloatRepr st t d).1]
    rfl
  simp [VerifyCache.Env.verifyUncached, VerifyCache.Env.manSha, VerifyCache.Env.manRows, hbytes, hsha, hrows, hline,
    Value.eqInt,
    x.str_str, x.int_int]

theorem day_lines : lastLine (fileLines (fr.stream t (st.select t d))) = (st.day t d).length ↔
    ∀ r ∈ st.day t d, ∀ v ∈ r.cells, oneLine v = true := by
  have hselect : (∀ row ∈ st.select t d, ∀ v ∈ row, oneLine v = true) ↔
      ∀ r ∈ st.day t d, ∀ v ∈ r.cells, oneLine v = true := by
    simp [(select_perm st t d).mem_iff]
  obtain ⟨hle, hiff⟩ := rows_lines (rowsOf fr.toFloatRepr t (st.select t d))
  have hlen : (rowsOf fr.toFloatRepr t (st.select t d)).length = (st.day t d).length + 1 := by
    simp [rowsOf, select_length]
  have hplain : (∀ row ∈ rowsOf fr.toFloatRepr t (st.select t d), ∀ f ∈ row, ∀ c ∈ f, isBreak c = false) ↔
      ∀ row ∈ st.select t d, ∀ v ∈ row, oneLine v = true := by
    have hcells : (∀ row ∈ (st.select t d).map fun row => row.map fr.cell, ∀ f ∈ row, ∀ c ∈ f, isBreak c = false) ↔
        ∀ row ∈ st.select t d, ∀ v ∈ row, oneLine v = true := by
      simp only [List.forall_mem_map, cell_plain fr]
    rw [rowsOf, List.forall_mem_cons, hcells]
    exact and_iff_right (header_plain t)
  rw [lastLine_eq_sub, stream_eq, ← hselect, ← hplain, ← hiff, hlen]
  omega

/-- **A fresh archive verifies, and is read back in full, exactly when no text of the day holds a line break.** -/
theorem fresh_verifies_iff (mtimeNs : ℤ) :
    (x.verifyUncached (some ⟨x.artifact fr st t d, mtimeNs, true⟩) (x.man fr st t d) = .answer true ∧
      ∃ records, x.gz.records (x.artifact fr st t d) = some records ∧
      x.man fr st t d "rows" = some (.int records.length)) ↔
    ∀ r ∈ st.day t d, ∀ v ∈ r.cells, oneLine v = true := by
  have hread : ∃ records, x.gz.records (x.artifact fr st t d) = some records ∧
      x.man fr st t d "rows" = some (.int records.length) := by
    refine ⟨_, records_artifact x fr st t d, ?_⟩
    rw [List.length_map, select_length, ← (exportSink_eq fr.toFloatRepr st t d).1]
    rfl
  rw [and_iff_left hread, verify_eq, ← day_lines fr st t d]
  simp

end Verify

section Sqlite

attribute [local instance] sqliteOrder

def wholeLines : LineRepr ℤ where
  toFloatRepr := wholes
  plain := by
    intro x c hc
    have hmem : c ∈ x.repr.toList ∨ c ∈ ".0".toList := by
      rw [← List.mem_append, ← String.toList_append]
      exact hc
    rcases hmem with hmem | hmem
    · exact int_plain hmem
    · have hzero : ∀ c ∈ ".0".toList, isBreak c = false := by simp [isBreak]
      exact hzero c hmem

/-- `gzip` that leaves the data as it is. -/
def level0 : GzipFile where
  compress data := data.data.toList
  decompress b := .ok ⟨b.toArray⟩
  decompress_compress _ := rfl

def sampleHost : Host where
  sha256 b := toString b.length
  lastLine := level0.verifierLine
  str v := v.asStr.getD ""
  int v := match v with
    | .int n => some n
    | _ => none
  settled _ _ := false
  gz := level0
  isoformat _ := "1970-01-01"
  lastLine_eq _ := rfl
  str_str _ := rfl
  int_int _ := rfl

/-- A trade whose symbol is on two lines. -/
def brokenSymbol : Storage ℤ where
  table
    | .trades => [⟨1, [.text "UPBIT", .text "A\nB", .real 5, .real 1, .int 1, .int 1, .null, .null]⟩]
    | .bookTop => []
  streams := true
  asDict := false
  width := by
    intro t
    cases t <;> decide

/-- One row is written, and two lines are counted behind the header. -/
theorem symbol_on_two_lines : sampleHost.man wholeLines brokenSymbol .trades 0 "rows" = some (.int 1) ∧
    sampleHost.verifyUncached (some ⟨sampleHost.artifact wholeLines brokenSymbol .trades 0, 0, true⟩)
      (sampleHost.man wholeLines brokenSymbol .trades 0) = .answer false := by
  have hrows := (exportSink_eq wholes brokenSymbol .trades 0).1
  have hday : ¬ ∀ r ∈ brokenSymbol.day .trades 0, ∀ v ∈ r.cells, oneLine v = true := by decide
  refine ⟨congrArg (fun n : ℕ => some (Value.int n)) hrows, ?_⟩
  rw [verify_eq, decide_eq_false ((day_lines wholeLines brokenSymbol .trades 0).not.2 hday)]

end Sqlite

end Retention.Fresh

import Mathlib.Data.List.Sort
import Mathlib.Data.List.Dedup
import MarketFeed.Lib.Run
import MarketFeed.Lib.Upsert
import MarketFeed.Retention.Backlog
import MarketFeed.Retention.Receipts
/-!
# The archive of the raw tables (archive.py:204-343, :360-433, :500-636, :694-792, writer.py:283-349)

`_archive_once` exports every settled day without a receipt, table by table, and has it fetched back from the
remote; an exception fails the one day. What `export_day` does to the directory is a list of writes (`plan`),
so that a crash is a place in the list: a file that is opened to be written, or copied, is torn first.

| here | there |
| --- | --- |
| `Segment` | the files of one day of one table in `out_dir`: artifact, manifest, and their versions by content digest |
| `Artifact` | what `verify_file` reads of a `.csv.gz`: its digest and size, and how many lines it has; the cache aside |
| `Archiver.isDate` | the days `datetime.date` has |
| `Outcome` | what happens to one day: the export breaks off, a transfer fails, or this is fetched back |
| `Label.lose` | a file of the archive is deleted by somebody else |
| `settledBefore` | the whole seconds of `now - lag_s` |
| `unreadable` | does the query for the oldest and newest row of a table fail |
-/

namespace Retention.Archive

open Keyed (lookup upsert erase)

structure Artifact where
  sha : String
  bytes : Nat
  lines : Nat
  deriving DecidableEq

/-- The fields of a manifest that are read. -/
structure Manifest where
  rows : Nat
  sourceTable : String
  sourceDay : String
  sourceFromUs : Int
  sourceToUs : Int
  sourceRows : Nat
  sourceContentSha256 : String
  bytes : Nat
  sha256 : String
  deriving DecidableEq

inductive Path
  | file
  | manifest
  | version (sha : String)
  | versionManifest (sha : String)
  deriving DecidableEq

inductive Content
  | torn
  | artifact (a : Artifact)
  | manifest (m : Manifest)
  deriving DecidableEq

abbrev Segment := List (Path × Content)

/-- `hashlib`, `gzip` and `datetime.date`, as far as the code relies on them. -/
structure Archiver where
  env : Env
  artifact : Table → Multiset Row → Artifact
  manifestSha : Manifest → String
  isDate : Int → Bool
  isoformat : Int → String
  fromisoformat : String → Option Int
  digest_hex : ∀ t rows, isSha256 (env.digest t rows) = true
  artifact_hex : ∀ t rows, isSha256 (artifact t rows).sha = true
  manifest_hex : ∀ m, isSha256 (manifestSha m) = true
  iso : ∀ d, isDate d = true → fromisoformat (isoformat d) = some d
  iso_length : ∀ d, isDate d = true → (isoformat d).toList.length = 10
  iso_chars : ∀ d, isDate d = true → '/' ∉ (isoformat d).toList

/-! ## Files -/

def Segment.get (seg : Segment) (p : Path) : Option Content := (lookup Prod.fst p seg).map (·.2)

def Segment.put (seg : Segment) (w : Path × Content) : Segment := upsert Prod.fst (fun _ w => w) seg w

def Segment.writes (seg : Segment) (ws : List (Path × Content)) : Segment := ws.foldl Segment.put seg

/-- `read_manifest`. -/
def Segment.readManifest (seg : Segment) : Option Manifest :=
  match seg.get .manifest with
  | some (.manifest m) => some m
  | _ => none

def verifyArtifact (a : Artifact) (m : Manifest) : Bool := a.bytes == m.bytes && a.sha == m.sha256 && a.lines == m.rows

/-- `verify_file`. -/
def verifyFile (c : Option Content) (m : Manifest) : Bool :=
  match c with
  | some (.artifact a) => verifyArtifact a m
  | _ => false

/-- The versions that verify, in the order of their names (archive.py:210-223). -/
def Segment.candidates (seg : Segment) : List (String × Manifest) :=
  (seg.filterMap fun (p, c) =>
    match p, c with
    | .versionManifest sha, .manifest m => if verifyFile (seg.get (.version sha)) m then some (sha, m) else none
    | _, _ => none).insertionSort fun a b => a.1 ≤ b.1

/-- `max(candidates, key=lambda item: item[0])`: the first of those with the most rows. -/
def Segment.restorable (seg : Segment) : Option (String × Manifest) :=
  seg.candidates.foldl (fun best c => if (best.map (·.2.rows)).any (c.2.rows ≤ ·) then best else some c) none

/-! ## `export_day` -/

/-- A copy, or a file that is opened and written: torn, then whole. -/
def written (p : Path) (c : Content) : List (Path × Content) := [(p, .torn), (p, c)]

/-- `_preserve_versioned_archive`. -/
def Segment.preserve (seg : Segment) (m : Manifest) (file : Content) : List (Path × Content) :=
  (if (seg.get (.version m.sourceContentSha256)).isSome then [] else written (.version m.sourceContentSha256) file) ++
  (if (seg.get (.versionManifest m.sourceContentSha256)).isSome then []
    else written (.versionManifest m.sourceContentSha256) (.manifest m))

section

variable (x : Archiver)

def dayRows (s : Store) (t : Table) (d : Int) : List Row := (s t).filter (onDay d)

/-- The manifest of a day as the table holds it (archive.py:321-336). -/
def Archiver.manifestOf (s : Store) (t : Table) (d : Int) : Manifest :=
  let proof := x.env.dayProof s t d
  let a := x.artifact t (dayRows s t d)
  ⟨proof.rows, t.name, x.isoformat d, dayStartUs d, dayStartUs d + dayUs, proof.rows, proof.sha, a.bytes, a.sha⟩

/-- The writes of `export_day` where the day's files do not verify (archive.py:268-343): a version is restored, or
the day exported. The copies that are restored verify as the version did. -/
def Archiver.restoreOrExport (s : Store) (t : Table) (d : Int) (seg : Segment) : List (Path × Content) :=
  match seg.restorable with
  | some (sha, m) => written .file ((seg.get (.version sha)).getD .torn) ++ written .manifest (.manifest m)
  | none =>
    let file := Content.artifact (x.artifact t (dayRows s t d))
    let m := x.manifestOf s t d
    (.file, file) :: written .manifest (.manifest m) ++ seg.preserve m file

/-- The writes of `export_day` (archive.py:246-343). -/
def Archiver.plan (s : Store) (t : Table) (d : Int) (seg : Segment) : List (Path × Content) :=
  match seg.readManifest with
  | some existing =>
    if verifyFile (seg.get .file) existing then seg.preserve existing ((seg.get .file).getD .torn)
    else x.restoreOrExport s t d seg
  | none => x.restoreOrExport s t d seg

/-! ## `archive_day_remote` -/

/-- `object_id_for_manifest`. -/
def Manifest.objectId (m : Manifest) : String :=
  "archive/" ++ m.sourceTable ++ "/" ++ m.sourceDay ++ "/" ++ m.sourceContentSha256 ++ ".csv.gz"

/-- The file `_write_receipt` puts a receipt in. -/
def receiptName (objectId : String) : String :=
  String.ofList ((objectId.toList.map fun c => if c = '/' then '_' else c) ++ ".json".toList)

inductive Outcome
  /-- `export_day` raises after this many of its writes. -/
  | cut (writes : Nat)
  /-- A transfer fails, or the receipt cannot be written. -/
  | failed
  /-- What the fetch brings back: artifact, manifest, and the digest of the manifest file. -/
  | fetched (a : Artifact) (m : Option Manifest) (sha : String) (verifiedAt transport : String)

/-- `verify_remote_roundtrip` over the files as they are after the export (archive.py:520-595). -/
def Archiver.roundtrip (seg : Segment) (t : Table) (d : Int) : Outcome → Option RemoteArtifactReceipt
  | .fetched a fetchedMan sha verifiedAt transport => do
    let man ← seg.readManifest
    guard (verifyFile (seg.get .file) man)
    guard (sha = x.manifestSha man)
    let fetched ← fetchedMan
    guard (verifyArtifact a fetched)
    guard (fetched.sha256 = man.sha256 ∧ fetched.rows = man.rows ∧ fetched.bytes = man.bytes)
    return {
      schemaVersion := 1, objectId := man.objectId
      artifact := t.name ++ "-" ++ x.isoformat d ++ ".csv.gz", manifest := t.name ++ "-" ++ x.isoformat d ++
        ".csv.gz.json"
      table := some t.name, day := some (x.isoformat d)
      localSha256 := man.sha256, localBytes := man.bytes, localRows := man.rows
      remoteFetchSha256 := fetched.sha256, remoteFetchBytes := fetched.bytes, remoteFetchRows := fetched.rows
      manifestSha256 := x.manifestSha man, remoteManifestSha256 := sha
      sourceTable := some man.sourceTable, sourceDay := some man.sourceDay
      sourceFromUs := some man.sourceFromUs, sourceToUs := some man.sourceToUs
      sourceRows := some man.sourceRows, sourceContentSha256 := some man.sourceContentSha256
      verifiedAt := verifiedAt, transport := transport, status := "verified" }
  | .cut _ | .failed => none

def writeReceipt (dir : List File) (r : RemoteArtifactReceipt) : List File :=
  upsert File.name (fun _ f => f) dir ⟨receiptName r.objectId, some (.dict r.toJson)⟩

/-- The files of the day after one try, and its receipt if it succeeds. -/
def Archiver.archiveDayRemote (s : Store) (t : Table) (d : Int) (seg : Segment) (o : Outcome) :
    Segment × Option RemoteArtifactReceipt :=
  match o with
  | .cut n => (seg.writes ((x.plan s t d seg).take n), none)
  | _ =>
    let seg' := seg.writes (x.plan s t d seg)
    (seg', x.roundtrip seg' t d o)

/-! ## `pending_days` -/

/-- One file, as `remote_receipt_days` reads it. -/
def receiptDay (fromisoformat : String → Option Int) (data : Value) (t : Table) : Option Int := do
  let d ← data.asDict
  guard ((d.get "schema_version").eqInt 1)
  guard ((d.get "status").eqStr "verified" ∧ (d.get "table").eqStr t.name)
  let dayValue ← (d.get "day").asStr
  let localSha ← (d.get "local_sha256").sha256
  let remoteSha ← (d.get "remote_fetch_sha256").sha256
  let manifestSha ← (d.get "manifest_sha256").sha256
  let remoteManifestSha ← (d.get "remote_manifest_sha256").sha256
  let _ ← (d.get "source_content_sha256").sha256
  guard (localSha = remoteSha)
  guard (manifestSha = remoteManifestSha)
  guard ((d.get "source_table").eqStr t.name ∧ (d.get "source_day").eqStr dayValue)
  fromisoformat dayValue

def remoteReceiptDays (fromisoformat : String → Option Int) (dir : List File) (t : Table) : List Int :=
  (dir.filter File.isJson).filterMap fun f => f.data.bind fun data => receiptDay fromisoformat data t

/-- The days from `first` to `last`. -/
def days (first last : Int) : List Int := (List.range (last + 1 - first).toNat).map fun i : Nat => first + i

/-- `pending_days` with a receipt directory; `none` where a day is out of the calendar's range, which raises. -/
def Archiver.pendingDays (s : Store) (dir : List File) (t : Table) (settledBefore : Int) (unreadable : Bool) :
    Option (List Int) :=
  if unreadable then some []
  else
    match ((s t).map (·.ts)).min?, ((s t).map (·.ts)).max? with
    | some lo, some hi =>
      if lo = 0 then some []
      else if (days (dayOf lo) (dayOf hi + 1)).all x.isDate then
        some ((days (dayOf lo) (dayOf hi)).filter fun d =>
          decide ((d + 1) * 86400 ≤ settledBefore) && !(remoteReceiptDays x.fromisoformat dir t).contains d)
      else none
    | _, _ => some []

/-! ## `_archive_once` -/

/-- The days still to do, and `failed`. -/
structure Pass where
  todo : List (Table × Int)
  failed : List (Table × Int)

structure State where
  store : Store
  segments : Table → Int → Segment
  dir : List File
  pass : Option Pass
  /-- What the last run reported as failed, if it came to its end. -/
  result : Option (List (Table × Int))

def State.init (s : Store) : State := ⟨s, fun _ _ => [], [], none, none⟩

inductive Label
  | insert (t : Table) (rows : List Row)
  | start (settledBefore : Int) (unreadable : Table → Bool)
  | archive (o : Outcome)
  | crash
  | lose (t : Table) (d : Int) (p : Path)

/-- `for day in sorted(..)` and within it `for table in ARCHIVE_TABLES` (writer.py:304-307). -/
def todoOf (pend : Table → List Int) : List (Table × Int) :=
  ((pruneTables.flatMap pend).dedup.insertionSort (· ≤ ·)).flatMap fun d =>
    (pruneTables.filter fun t => (pend t).contains d).map fun t => (t, d)

/-- On to the next day, or the end of the run. -/
def State.go (s : State) (p : Pass) : State :=
  match p.todo with
  | [] => { s with pass := none, result := some p.failed }
  | _ :: _ => { s with pass := some p }

def step (s : State) : Label → Option State
  | .insert t rows => some { s with store := Function.update s.store t (s.store t ++ rows) }
  | .start settledBefore unreadable =>
    match s.pass with
    | some _ => none
    | none =>
      match x.pendingDays s.store s.dir .trades settledBefore (unreadable .trades),
        x.pendingDays s.store s.dir .bookTop settledBefore (unreadable .bookTop) with
      | some trades, some bookTop =>
        some (State.go { s with result := none } ⟨todoOf fun | .trades => trades | .bookTop => bookTop, []⟩)
      | _, _ => some { s with result := none }
  | .archive o =>
    match s.pass with
    | some ⟨(t, d) :: todo, failed⟩ =>
      let (seg, receipt) := x.archiveDayRemote s.store t d (s.segments t d) o
      let s' := { s with segments := Function.update s.segments t (Function.update (s.segments t) d seg) }
      match receipt with
      | some r => some (State.go { s' with dir := writeReceipt s.dir r } ⟨todo, failed⟩)
      | none => some (s'.go ⟨todo, failed ++ [(t, d)]⟩)
    | _ => none
  | .crash => some { s with pass := none, result := none }
  | .lose t d p =>
    some { s with segments := Function.update s.segments t (Function.update (s.segments t) d (erase Prod.fst p (s.segments t d))) }

end

end Retention.Archive

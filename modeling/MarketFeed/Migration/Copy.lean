import MarketFeed.Lib.Run
import MarketFeed.Migration.Digest
/-!
# `run_migration`, statement by statement (engine.py:26-63, :102-226, :248-255)

An attempt holds a connection to the target. What its statements write is in `work` until a commit
makes it the committed `target`; a crash loses the connection, and so does an exception. The source
does not change, so its digest `d` is the same in every attempt.

| here | there |
| --- | --- |
| `Target.checkpoint (run, table)` | `migration_checkpoints`; only `run_migration` writes it, under the names of `CATALOG` |
| `Target.run` | `migration_runs`: the fingerprint, and is the state `COMPLETED` |
| `Target.ready` | the tables exist (`init_target_schema`) |
| `Pc` | the SQL statement that comes next, with the locals of `run_migration` and `_migrate_table` |
| `Label.crash` | the process stops before, or PostgreSQL refuses, the next statement |
-/

namespace Migration

variable {R H F : Type}

structure Checkpoint (H : Type) where
  firstRowid : ℤ
  lastRowid : ℤ
  chunkRowCount : ℕ
  rowCount : ℕ
  chunkHash : H
  deriving DecidableEq

structure RunRow (F : Type) where
  sourceFingerprint : F
  completed : Bool
  deriving DecidableEq

structure Target (R H F : Type) where
  ready : Bool
  rows : String → List (PgRow R)
  checkpoint : String × String → Option (Checkpoint H)
  run : String → Option (RunRow F)

def Target.empty (ready : Bool) : Target R H F := ⟨ready, fun _ => [], fun _ => none, fun _ => none⟩

/-- `_checkpoint_rowid`. -/
def Target.position (g : Target R H F) (run : String) (t : TableCatalog) : ℤ :=
  ((g.checkpoint (run, t.name)).map (·.lastRowid)).getD 0

/-- `_checkpoint_count`. -/
def Target.count (g : Target R H F) (run : String) (t : TableCatalog) : ℕ :=
  ((g.checkpoint (run, t.name)).map (·.rowCount)).getD 0

inductive Pc (R H : Type)
  | initSchema
  | lock
  | assertEmpty
  | readCheckpoints
  | validate (todo : List (TableCatalog × Checkpoint H))
  | ensureRun
  | commitRun
  | tables (todo : List TableCatalog)
  | readChunk (t : TableCatalog) (rest : List TableCatalog) (afterRowid : ℤ)
  | readCount (t : TableCatalog) (rest : List TableCatalog) (chunk : List (ℤ × SqlRow R))
  | insert (t : TableCatalog) (rest : List TableCatalog) (chunk : List (ℤ × SqlRow R)) (rowCount : ℕ)
      (todo : List (PgRow R))
  | upsert (t : TableCatalog) (rest : List TableCatalog) (chunk : List (ℤ × SqlRow R)) (rowCount : ℕ)
  | commitChunk (t : TableCatalog) (rest : List TableCatalog) (rowCount : ℕ)
  | verify
  | complete
  | commitComplete
  | done

structure Attempt (R H F : Type) where
  chunkSize : ℤ
  initTarget : Bool
  work : Target R H F
  pc : Pc R H

structure State (R H F : Type) where
  target : Target R H F
  attempt : Option (Attempt R H F)

/-! ## Reading the source -/

def Env.normalizeRows (env : Env R H F) (t : TableCatalog) (rows : List (ℤ × SqlRow R)) :
    Option (List (ℤ × SqlRow R)) :=
  rows.mapM fun r => (env.normalizeSqliteRow t r.2).map fun n => (r.1, n)

/-- `read_sqlite_chunk`. -/
def Env.readSqliteChunk (env : Env R H F) (src : Source R) (t : TableCatalog) (afterRowid limit : ℤ) :
    Option (List (ℤ × SqlRow R)) :=
  env.normalizeRows t (Keyset.chunk afterRowid limit (src.table t.name))

/-- `read_sqlite_rowid_range`. -/
def Env.readSqliteRowidRange (env : Env R H F) (src : Source R) (t : TableCatalog) (first last : ℤ) :
    Option (List (ℤ × SqlRow R)) :=
  env.normalizeRows t (Keyset.between first last (src.table t.name))

/-- The checks of one turn of `_validate_checkpoints`. -/
def Env.checkpointValid [DecidableEq H] (env : Env R H F) (src : Source R) (g : Target R H F) (t : TableCatalog)
    (cp : Checkpoint H) : Bool :=
  match env.readSqliteRowidRange src t cp.firstRowid cp.lastRowid with
  | none => false
  | some chunk => decide (chunk.length = cp.chunkRowCount) && decide (cp.chunkHash = env.chunkContentHash chunk) &&
      decide ((g.rows t.name).length = cp.rowCount)

/-- The checkpoint of a chunk, as `_migrate_table` writes it. -/
def Env.chunkCheckpoint (env : Env R H F) (chunk : List (ℤ × SqlRow R)) (rowCount : ℕ) : Checkpoint H where
  firstRowid := (chunk.head?.map Prod.fst).getD 0
  lastRowid := (chunk.getLast?.map Prod.fst).getD 0
  chunkRowCount := chunk.length
  rowCount := rowCount
  chunkHash := env.chunkContentHash chunk

/-! ## The statements -/

section Step

variable [LinearOrder R] [DecidableEq H] [DecidableEq F]
variable (env : Env R H F) (src : Source R) (run : String) (d : StorageDigest H F)

/-- The next statement: the committed target after it, and the attempt, none after an exception. -/
def Attempt.next (target : Target R H F) (a : Attempt R H F) : Target R H F × Option (Attempt R H F) :=
  match a.pc with
  | .initSchema =>
    let target' : Target R H F := if a.initTarget then { target with ready := true } else target
    (target', some { a with work := target', pc := .lock })
  | .lock => (target, some { a with pc := .assertEmpty })
  | .assertEmpty =>
    -- without the tables the check returns and the next statement fails
    if a.work.ready then
      match a.work.run run with
      | some r => (target, if r.sourceFingerprint = d.fingerprint then some { a with pc := .readCheckpoints } else none)
      | none => (target, if CATALOG.any fun t => !(a.work.rows t.name).isEmpty then
          none else some { a with pc := .readCheckpoints })
    else (target, none)
  | .readCheckpoints =>
    (target, some { a with pc := .validate (CATALOG.filterMap fun t => (a.work.checkpoint (run, t.name)).map fun cp => (t, cp)) })
  | .validate [] => (target, some { a with pc := .ensureRun })
  | .validate ((t, cp) :: todo) =>
    (target, if env.checkpointValid src a.work t cp then some { a with pc := .validate todo } else none)
  | .ensureRun =>
    let row := (a.work.run run).getD ⟨d.fingerprint, false⟩
    (target, some { a with work := { a.work with run := Function.update a.work.run run (some row) }, pc := .commitRun })
  | .commitRun => (a.work, some { a with pc := .tables CATALOG })
  | .tables [] => (target, some { a with pc := .verify })
  | .tables (t :: rest) => (target, some { a with pc := .readChunk t rest (a.work.position run t) })
  | .readChunk t rest afterRowid =>
    (target, match env.readSqliteChunk src t afterRowid a.chunkSize with
      | none => none
      | some [] => some { a with pc := .tables rest }
      | some (r :: chunk) => some { a with pc := .readCount t rest (r :: chunk) })
  | .readCount t rest chunk =>
    (target, ((chunk.map Prod.snd).mapM (postgresRow t)).map fun converted =>
      { a with pc := .insert t rest chunk (a.work.count run t + chunk.length) converted })
  | .insert t rest chunk rowCount [] => (target, some { a with pc := .upsert t rest chunk rowCount })
  | .insert t rest chunk rowCount (p :: todo) =>
    (target, (insertRow t (a.work.rows t.name) p).map fun table =>
      { a with work := { a.work with rows := Function.update a.work.rows t.name table }, pc := .insert t rest chunk rowCount todo })
  | .upsert t rest chunk rowCount =>
    let cp := env.chunkCheckpoint chunk rowCount
    let work := { a.work with checkpoint := Function.update a.work.checkpoint (run, t.name) (some cp) }
    (target, some { a with work := work, pc := .commitChunk t rest rowCount })
  | .commitChunk t rest rowCount =>
    (a.work, if d.rowCount t.name < rowCount then none else some { a with pc := .tables (t :: rest) })
  | .verify =>
    (target, match env.canonicalSqliteDigest src, env.canonicalPostgresDigest target.rows with
      | some d', some p => if d'.fingerprint = d.fingerprint ∧ d.fingerprint = p.fingerprint then some { a with pc := .complete } else none
      | _, _ => none)
  | .complete =>
    let row := (a.work.run run).map fun r => { r with completed := true }
    (target, some { a with work := { a.work with run := Function.update a.work.run run row }, pc := .commitComplete })
  | .commitComplete => (a.work, some { a with pc := .done })
  | .done => (target, some a)

inductive Label
  | start (chunkSize : ℤ) (initTarget : Bool)
  | sql
  | crash
  deriving DecidableEq

def step (s : State R H F) : Label → Option (State R H F)
  | .start chunkSize initTarget =>
    match s.attempt with
    | some _ => none
    | none => some ⟨s.target, some ⟨chunkSize, initTarget, s.target, .initSchema⟩⟩
  | .sql =>
    match s.attempt with
    | none => none
    | some a => some ⟨(a.next env src run d s.target).1, (a.next env src run d s.target).2⟩
  | .crash => some ⟨s.target, none⟩

end Step

/-- `run_migration` has returned its receipt. -/
def Attempt.reported (a : Attempt R H F) : Bool :=
  match a.pc with
  | .done => true
  | _ => false

end Migration

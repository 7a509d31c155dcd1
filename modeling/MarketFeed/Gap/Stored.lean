import Mathlib.Logic.Function.Basic
import MarketFeed.Gap.Record
/-!
# Gaps and their evidence in the database (gap_repository.py:58-239, :270-383, cli.py:395-443)

A gap is closed as recovered on a chain of rows: the receipt names a migration run and a coverage, and names the
gap it was recorded for. The chain is checked when a receipt is recorded and again when it is used.

| here | there |
| --- | --- |
| `Db` | `data_gaps`, `gap_recovery_receipts`, `authoritative_gap_coverages`, `migration_runs`, each under its primary key |
| `Hashes` | `_scope_hash`, `_hash_json` of a coverage, `_receipt_hash`: SHA-256 of the JSON of what they are given |
| `upper` | `str.upper`, which a stored venue is read through |
| `seeds` | the incident files that `cmd_gap` opens the repository with |
| `get`, `save`, `insertSeed` | `StorageGapRepository` |
| `close`, `verifyRecovery` | the two branches of `cmd_gap` |
| `.migration` | what the migration tool writes in its own table |

A time column is the text of a UTC instant and here the instant. The checks of PostgreSQL's row counts are not
made with SQLite. What raises changes nothing.
-/

namespace Gap.Stored

inductive Status | verified | failed
  deriving DecidableEq

inductive MigrationState | running | completed | failed
  deriving DecidableEq

variable {D : Type}

structure GapRow (D : Type) where
  state : GapState
  startedAt : Int
  endedAt : Option Int
  recoveredAt : Option Int
  requiredScopeHash : D
  requiredScope : GapScope
  backfillReceiptId : Option String
  deriving DecidableEq

/-- The `payload` of a coverage. -/
structure CoveragePayload (D : Type) where
  coverageId : String
  coveredStart : Int
  coveredEnd : Int
  scopeHash : D
  sourceFingerprint : String
  tableCounts : List (String × ℕ)
  producer : String
  verifiedAt : Int
  deriving DecidableEq

structure CoverageRow (D : Type) extends CoveragePayload D where
  scope : GapScope
  evidenceHash : D
  status : Status
  deriving DecidableEq

/-- The `payload` of a receipt. -/
structure ReceiptPayload (D : Type) where
  receiptId : String
  coveredStart : Int
  coveredEnd : Int
  scopeHash : D
  actualReconciliationId : String
  authoritativeCoverageId : String
  missingIntervals : Int
  missingRows : Int
  verifiedAt : Int
  deriving DecidableEq

structure ReceiptRow (D : Type) extends ReceiptPayload D where
  gapId : String
  scope : GapScope
  evidenceHash : D
  status : Status
  deriving DecidableEq

structure MigrationRow where
  sourceFingerprint : String
  state : MigrationState
  deriving DecidableEq

structure Db (D : Type) where
  gaps : String → Option (GapRow D)
  receipts : String → Option (ReceiptRow D)
  coverages : String → Option (CoverageRow D)
  migrations : String → Option MigrationRow

def Db.empty : Db D := ⟨fun _ => none, fun _ => none, fun _ => none, fun _ => none⟩

structure Hashes (D : Type) where
  scope : GapScope → D
  coverage : CoveragePayload D → D
  receipt : ReceiptPayload D → D

inductive Raised
  | gap (e : Error)
  | integrity (text : String)
  deriving DecidableEq

variable [DecidableEq D] (upper : String → String) (h : Hashes D) (seeds : String → Option GapRecord)

/-! ## Rows -/

/-- `_format_utc`. -/
def formatUtc : Datetime → Except Error Int
  | .naive _ => .error (.valueError "timestamp must include timezone")
  | .aware us => if minUs ≤ us ∧ us ≤ maxUs then .ok us else .error (.overflowError "date value out of range")

/-- `_format_utc(x) if x else None`. -/
def formatUtcOpt : Option Datetime → Except Error (Option Int)
  | none => .ok none
  | some t => (formatUtc t).map some

/-- `_scope_from_stored`, of a column that is never empty. -/
def scopeFromStored (s : GapScope) : GapScope := { s with venues := s.venues.map upper }

def recordParams (record : GapRecord) : Except Error (GapRow D) := do
  let startedAt ← formatUtc record.startedAt
  let endedAt ← formatUtcOpt record.endedAt
  let recoveredAt ← formatUtcOpt record.recoveredAt
  return {
    state := record.state, startedAt, endedAt, recoveredAt, requiredScopeHash := h.scope record.requiredScope,
    requiredScope := record.requiredScope, backfillReceiptId := record.backfillReceiptId }

namespace Db

variable (db : Db D)

/-- `_reconciliation_result`. -/
def reconciliationResult (receiptId : Option String) : Option String := do
  let receiptId ← receiptId.filter (· ≠ "")
  let row ← (db.receipts receiptId).filter (·.status = .verified)
  return row.actualReconciliationId

def get (gapId : String) : Except Error (Option GapRecord) :=
  match db.gaps gapId with
  | none => .ok none
  | some row => do
    let scope := scopeFromStored upper row.requiredScope
    refuse (row.requiredScopeHash ≠ h.scope scope) (evidenceIncomplete "stored required scope hash mismatch")
    return some {
      id := gapId, startedAt := .aware row.startedAt, endedAt := row.endedAt.map .aware, state := row.state,
        requiredScope := scope,
      reason := (seeds gapId).elim "stored data gap requires verified backfill" (·.reason),
        backfillReceiptId := row.backfillReceiptId,
      recoveredAt := row.recoveredAt.map .aware, reconciliationResult := db.reconciliationResult row.backfillReceiptId }

/-- A gap that is there keeps its start. -/
def save (record : GapRecord) : Except Error (Db D) := do
  let row ← recordParams h record
  let row := match db.gaps record.id with
    | some old => { row with startedAt := old.startedAt }
    | none => row
  return { db with gaps := Function.update db.gaps record.id (some row) }

def insertSeed (record : GapRecord) : Except Error (Db D) := do
  let row ← recordParams h record
  match db.gaps record.id with
  | some _ => return db
  | none => return { db with gaps := Function.update db.gaps record.id (some row) }

/-! ## Authorities -/

def completedMigration (runId : String) : Except Error MigrationRow :=
  match (db.migrations runId).filter (·.state = .completed) with
  | none => .error (evidenceIncomplete "completed migration record is missing")
  | some row => .ok row

def trustedCoverage (coverageId : String) : Except Error (CoverageRow D) :=
  match (db.coverages coverageId).filter (·.status = .verified) with
  | none => .error (evidenceIncomplete "trusted authoritative coverage is missing")
  | some row => do
    let scope := scopeFromStored upper row.scope
    refuse (row.scopeHash ≠ h.scope scope || row.evidenceHash ≠ h.coverage row.toCoveragePayload)
      (evidenceIncomplete "trusted coverage evidence hash mismatch")
    return { row with scope }

/-- `coverage["covered_start"] > record.started_at or coverage["covered_end"] < record.ended_at`. -/
def outside (coveredStart coveredEnd startedAt endedAt : Datetime) : Except Error Bool := do
  if ← startedAt.lt coveredStart then return true
  coveredEnd.lt endedAt

/-- `record` is the gap from `startedAt` to `endedAt`. -/
def validateAuthorities (startedAt endedAt : Datetime) (requiredScope : GapScope)
    (actualReconciliationId authoritativeCoverageId : String) :
    Except Error Unit := do
  let migration ← db.completedMigration actualReconciliationId
  let coverage ← db.trustedCoverage upper h authoritativeCoverageId
  refuse (migration.sourceFingerprint ≠ coverage.sourceFingerprint)
    (evidenceIncomplete "coverage is not bound to migration fingerprint")
  refuse (← outside (.aware coverage.coveredStart) (.aware coverage.coveredEnd) startedAt endedAt)
    (evidenceIncomplete "coverage does not cover the closed interval")
  refuse (coverage.scope ≠ requiredScope) (evidenceIncomplete "coverage scope does not match required scope")

/-! ## Receipts -/

/-- `_receipt_from_row`. -/
def receiptFromRow (row : ReceiptRow D) : Option BackfillReceipt :=
  let scope := scopeFromStored upper row.scope
  if row.scopeHash ≠ h.scope scope then none
  else if row.evidenceHash ≠ h.receipt { row.toReceiptPayload with scopeHash := h.scope scope } then none
  else some {
    id := row.receiptId, coveredStart := .aware row.coveredStart, coveredEnd := .aware row.coveredEnd, scope,
    evidenceType := "stored_reconciliation", actualReconciliationId := row.actualReconciliationId,
    authoritativeCoverageId := row.authoritativeCoverageId, missingIntervals := row.missingIntervals,
      missingRows := row.missingRows,
    verifiedAt := .aware row.verifiedAt }

/-- The closed gap of `_gap_for_validation`: its start, end and scope. -/
def gapForValidation (gapId : String) : Except Error (Datetime × Datetime × GapScope) :=
  match db.gaps gapId with
  | none => .error (evidenceIncomplete "receipt gap is missing or open")
  | some row =>
    match row.endedAt with
    | none => .error (evidenceIncomplete "receipt gap is missing or open")
    | some endedAt => .ok (.aware row.startedAt, .aware endedAt, scopeFromStored upper row.requiredScope)

def trustedReceiptFromRow (row : ReceiptRow D) : Except Error BackfillReceipt :=
  match receiptFromRow upper h row with
  | none => .error (evidenceIncomplete "stored recovery receipt hash mismatch")
  | some receipt => do
    let (startedAt, endedAt, requiredScope) ← db.gapForValidation upper row.gapId
    db.validateAuthorities upper h startedAt endedAt requiredScope receipt.actualReconciliationId
      receipt.authoritativeCoverageId
    refuse (receipt.coveredStart ≠ startedAt || receipt.coveredEnd ≠ endedAt)
      (evidenceIncomplete "receipt interval does not match gap interval")
    refuse (receipt.scope ≠ requiredScope) (evidenceIncomplete "receipt scope does not match gap scope")
    return receipt

def getVerified (receiptId : String) : Except Error (Option BackfillReceipt) :=
  match (db.receipts receiptId).filter (·.status = .verified) with
  | none => .ok none
  | some row =>
    match db.trustedReceiptFromRow upper h row with
    | .ok receipt => .ok (some receipt)
    | .error (.gapTransition _ _) => .ok none
    | .error e => .error e

/-! ## Calls -/

/-- Of a coverage that is there only the status changes. -/
def recordTrustedCoverage (coverageId : String) (coveredStart coveredEnd : Datetime) (scope : GapScope)
    (sourceFingerprint : String)
    (tableCounts : List (String × ℕ)) (producer : String) (verifiedAt : Datetime) : Except Error (Db D) := do
  let coveredStart ← formatUtc coveredStart
  let coveredEnd ← formatUtc coveredEnd
  let verifiedAt ← formatUtc verifiedAt
  let payload : CoveragePayload D :=
    ⟨coverageId, coveredStart, coveredEnd, h.scope scope, sourceFingerprint, tableCounts, producer, verifiedAt⟩
  let row := match db.coverages coverageId with
    | some old => { old with status := .verified }
    | none => { payload with scope, evidenceHash := h.coverage payload, status := .verified }
  return { db with coverages := Function.update db.coverages coverageId (some row) }

/-- The row of `record_trusted_receipt`, after its checks. -/
def checkedReceipt (gapId receiptId actualReconciliationId authoritativeCoverageId : String) (verifiedAt : Datetime) :
    Except Error (ReceiptRow D) := do
  match ← db.get upper h (fun _ => none) gapId with
  | none => .error (evidenceIncomplete "gap must exist with a closed interval")
  | some record =>
    match record.endedAt with
    | none => .error (evidenceIncomplete "gap must exist with a closed interval")
    | some endedAt => do
      db.validateAuthorities upper h record.startedAt endedAt record.requiredScope actualReconciliationId
        authoritativeCoverageId
      let verifiedAt ← formatUtc verifiedAt
      let coveredStart ← formatUtc record.startedAt
      let coveredEnd ← formatUtc endedAt
      let payload : ReceiptPayload D :=
        ⟨receiptId, coveredStart, coveredEnd, h.scope record.requiredScope, actualReconciliationId,
          authoritativeCoverageId, 0, 0, verifiedAt⟩
      return { payload with gapId, scope := record.requiredScope, evidenceHash := h.receipt payload, status := .verified }

def recordTrustedReceipt (gapId receiptId actualReconciliationId authoritativeCoverageId : String)
    (verifiedAt : Datetime) : Except Raised (Db D) :=
  match db.checkedReceipt upper h gapId receiptId actualReconciliationId authoritativeCoverageId verifiedAt with
  | .error e => .error (.gap e)
  | .ok row =>
    if (db.receipts receiptId).isSome then
      .error (.integrity "UNIQUE constraint failed: gap_recovery_receipts.receipt_id")
    else .ok { db with receipts := Function.update db.receipts receiptId (some row) }

/-- `gap close`; a gap that is not found is reported. -/
def close (gapId : String) (endedAt : Datetime) : Except Error (Db D) := do
  match ← db.get upper h seeds gapId with
  | none => return db
  | some record => db.save h (← closeGap record endedAt)

/-- `gap verify-recovery`. -/
def verifyRecovery (gapId : String) (receipt receiptId : Option String) : Except Error (Db D) := do
  match ← db.get upper h seeds gapId with
  | none => return db
  | some record =>
    refuse (receipt.any (· ≠ "")) (evidenceIncomplete "hand-authored recovery receipt JSON is not trusted")
    match receiptId.filter (· ≠ "") with
    | none => .error (evidenceIncomplete "stored receipt id is required")
    | some receiptId => db.save h (← markRecoveredFromStore record receiptId (db.getVerified upper h))

end Db

inductive Op
  | recordTrustedCoverage (coverageId : String) (coveredStart coveredEnd : Datetime) (scope : GapScope)
      (sourceFingerprint : String)
      (tableCounts : List (String × ℕ)) (producer : String) (verifiedAt : Datetime)
  | recordTrustedReceipt (gapId receiptId actualReconciliationId authoritativeCoverageId : String)
      (verifiedAt : Datetime)
  | close (gapId : String) (endedAt : Datetime)
  | verifyRecovery (gapId : String) (receipt receiptId : Option String)
  | save (record : GapRecord)
  | seed (record : GapRecord)
  | migration (runId : String) (row : Option MigrationRow)

def apply (db : Db D) : Op → Except Raised (Db D)
  | .recordTrustedCoverage coverageId coveredStart coveredEnd scope sourceFingerprint tableCounts producer verifiedAt =>
    (db.recordTrustedCoverage h coverageId coveredStart coveredEnd scope sourceFingerprint tableCounts producer
      verifiedAt).mapError .gap
  | .recordTrustedReceipt gapId receiptId actualReconciliationId authoritativeCoverageId verifiedAt =>
    db.recordTrustedReceipt upper h gapId receiptId actualReconciliationId authoritativeCoverageId verifiedAt
  | .close gapId endedAt => (db.close upper h seeds gapId endedAt).mapError .gap
  | .verifyRecovery gapId receipt receiptId => (db.verifyRecovery upper h seeds gapId receipt receiptId).mapError .gap
  | .save record => (db.save h record).mapError .gap
  | .seed record => (db.insertSeed h record).mapError .gap
  | .migration runId row => .ok { db with migrations := Function.update db.migrations runId row }

def next (db : Db D) (op : Op) : Db D :=
  match apply upper h seeds db op with
  | .ok db' => db'
  | .error _ => db

def run (ops : List Op) : Db D := ops.foldl (next upper h seeds) .empty

/-! ## What each call accepts -/

variable {upper h seeds}

omit [DecidableEq D] in
theorem completedMigration_ok {db : Db D} {runId : String} {row : MigrationRow}
    (hok : db.completedMigration runId = .ok row) :
    db.migrations runId = some row ∧ row.state = .completed := by
  unfold Db.completedMigration at hok
  split at hok
  · cases hok
  · cases hok
    exact (Option.filter_eq_some_iff.1 ‹_›).imp_right of_decide_eq_true

theorem trustedCoverage_ok {db : Db D} {coverageId : String} {row : CoverageRow D}
    (hok : db.trustedCoverage upper h coverageId = .ok row) :
    ∃ stored, db.coverages coverageId = some stored ∧ stored.status = .verified ∧
      stored.scopeHash = h.scope (scopeFromStored upper stored.scope) ∧
      stored.evidenceHash = h.coverage stored.toCoveragePayload ∧
      row = { stored with scope := scopeFromStored upper stored.scope } := by
  unfold Db.trustedCoverage at hok
  split at hok
  · cases hok
  · rename_i stored hstored
    obtain ⟨hfound, hstatus⟩ := Option.filter_eq_some_iff.1 hstored
    obtain ⟨_, hhash, heq⟩ := bind_eq_ok.1 hok
    cases heq
    simp only [refuse_eq_ok, Bool.or_eq_false_iff, decide_eq_false_iff_not, ne_eq, not_not] at hhash
    exact ⟨stored, hfound, of_decide_eq_true hstatus, hhash.1, hhash.2, rfl⟩

theorem outside_eq_false {coveredStart coveredEnd startedAt endedAt : Datetime}
    (hok : Db.outside coveredStart coveredEnd startedAt endedAt = .ok false) :
    coveredStart.Le startedAt ∧ endedAt.Le coveredEnd := by
  rw [← Datetime.lt_eq_false, ← Datetime.lt_eq_false]
  unfold Db.outside at hok
  obtain ⟨late, hlate, hok⟩ := bind_eq_ok.1 hok
  cases late with
  | false => exact ⟨hlate, hok⟩
  | true => cases hok

/-- What two authorities say together. -/
structure Authorities (upper : String → String) (h : Hashes D) (db : Db D) (startedAt endedAt : Datetime)
    (scope : GapScope) (runId coverageId : String)
    (migration : MigrationRow) (coverage : CoverageRow D) : Prop where
  run : db.migrations runId = some migration
  completed : migration.state = .completed
  found : db.coverages coverageId = some coverage
  verified : coverage.status = .verified
  fingerprint : migration.sourceFingerprint = coverage.sourceFingerprint
  covers : (Datetime.aware coverage.coveredStart).Le startedAt ∧ endedAt.Le (.aware coverage.coveredEnd)
  scope : scopeFromStored upper coverage.scope = scope
  scopeHash : coverage.scopeHash = h.scope (scopeFromStored upper coverage.scope)
  evidenceHash : coverage.evidenceHash = h.coverage coverage.toCoveragePayload

theorem validateAuthorities_ok {db : Db D} {startedAt endedAt : Datetime} {scope : GapScope} {runId coverageId : String}
    (hok : db.validateAuthorities upper h startedAt endedAt scope runId coverageId = .ok ()) :
    ∃ migration coverage, Authorities upper h db startedAt endedAt scope runId coverageId migration coverage := by
  unfold Db.validateAuthorities at hok
  obtain ⟨migration, hmigration, hok⟩ := bind_eq_ok.1 hok
  obtain ⟨row, hrow, hok⟩ := bind_eq_ok.1 hok
  obtain ⟨_, hfingerprint, hok⟩ := bind_eq_ok.1 hok
  obtain ⟨out, hout, hok⟩ := bind_eq_ok.1 hok
  obtain ⟨_, hin, hscope⟩ := bind_eq_ok.1 hok
  obtain ⟨hmigration, hcompleted⟩ := completedMigration_ok hmigration
  obtain ⟨coverage, hfound, hverified, hscopeHash, hevidence, rfl⟩ := trustedCoverage_ok hrow
  simp only [refuse_eq_ok, decide_eq_false_iff_not, ne_eq, not_not] at hfingerprint hin hscope
  subst hin
  exact ⟨migration, coverage, hmigration, hcompleted, hfound, hverified, hfingerprint, outside_eq_false hout, hscope,
    hscopeHash, hevidence⟩

theorem receiptFromRow_ok {row : ReceiptRow D} {receipt : BackfillReceipt}
    (hok : Db.receiptFromRow upper h row = some receipt) :
    row.scopeHash = h.scope (scopeFromStored upper row.scope) ∧ row.evidenceHash = h.receipt row.toReceiptPayload ∧
      receipt.scope = scopeFromStored upper row.scope ∧ receipt.coveredStart = .aware row.coveredStart ∧
      receipt.coveredEnd = .aware row.coveredEnd ∧ receipt.actualReconciliationId = row.actualReconciliationId ∧
      receipt.authoritativeCoverageId = row.authoritativeCoverageId := by
  unfold Db.receiptFromRow at hok
  obtain ⟨hscope, hok⟩ := Option.ite_none_left_eq_some.1 hok
  obtain ⟨hevidence, heq⟩ := Option.ite_none_left_eq_some.1 hok
  rw [not_not] at hscope hevidence
  rw [← hscope] at hevidence
  cases heq
  exact ⟨hscope, hevidence, rfl, rfl, rfl, rfl, rfl⟩

/-- What a receipt is when it is found and trusted. -/
structure Trusted (upper : String → String) (h : Hashes D) (db : Db D) (receiptId : String)
    (receipt : BackfillReceipt) (row : ReceiptRow D)
    (migration : MigrationRow) (coverage : CoverageRow D) : Prop where
  found : db.receipts receiptId = some row
  verified : row.status = .verified
  scopeHash : row.scopeHash = h.scope (scopeFromStored upper row.scope)
  evidenceHash : row.evidenceHash = h.receipt row.toReceiptPayload
  reads : receipt.scope = scopeFromStored upper row.scope ∧ receipt.coveredStart = .aware row.coveredStart ∧
    receipt.coveredEnd = .aware row.coveredEnd
  authorities : Authorities upper h db receipt.coveredStart receipt.coveredEnd receipt.scope
    row.actualReconciliationId row.authoritativeCoverageId
    migration coverage

theorem getVerified_ok {db : Db D} {receiptId : String} {receipt : BackfillReceipt}
    (hok : db.getVerified upper h receiptId = .ok (some receipt)) :
    ∃ row migration coverage, Trusted upper h db receiptId receipt row migration coverage := by
  unfold Db.getVerified at hok
  split at hok
  · cases hok
  · rename_i row hrow
    obtain ⟨hfound, hstatus⟩ := Option.filter_eq_some_iff.1 hrow
    split at hok
    · rename_i receipt' htrusted
      cases hok
      unfold Db.trustedReceiptFromRow at htrusted
      split at htrusted
      · cases htrusted
      · rename_i receipt' hreceipt
        obtain ⟨⟨startedAt, endedAt, scope⟩, -, htrusted⟩ := bind_eq_ok.1 htrusted
        obtain ⟨_, hauth, htrusted⟩ := bind_eq_ok.1 htrusted
        obtain ⟨_, hinterval, htrusted⟩ := bind_eq_ok.1 htrusted
        obtain ⟨_, hscope, htrusted⟩ := bind_eq_ok.1 htrusted
        cases htrusted
        simp only [refuse_eq_ok, Bool.or_eq_false_iff, decide_eq_false_iff_not, ne_eq, not_not] at hinterval hscope
        obtain ⟨migration, coverage, hauth⟩ := validateAuthorities_ok hauth
        obtain ⟨hscopeHash, hevidence, hread, hstart, hend, hrun, hcoverage⟩ := receiptFromRow_ok hreceipt
        rw [← hinterval.1, ← hinterval.2, ← hscope, hrun, hcoverage] at hauth
        exact ⟨row, migration, coverage, hfound, of_decide_eq_true hstatus, hscopeHash, hevidence,
          ⟨hread, hstart, hend⟩, hauth⟩
    · cases hok
    · cases hok

theorem get_ok {db : Db D} {gapId : String} {record : GapRecord}
    (hok : db.get upper h seeds gapId = .ok (some record)) :
    ∃ row, db.gaps gapId = some row ∧ row.requiredScopeHash = h.scope (scopeFromStored upper row.requiredScope) ∧
      record.id = gapId ∧
      record.startedAt = .aware row.startedAt ∧ record.endedAt = row.endedAt.map .aware ∧ record.state = row.state ∧
      record.requiredScope = scopeFromStored upper row.requiredScope := by
  unfold Db.get at hok
  split at hok
  · cases hok
  · rename_i row hrow
    obtain ⟨_, hhash, heq⟩ := bind_eq_ok.1 hok
    cases heq
    simp only [refuse_eq_ok, decide_eq_false_iff_not, ne_eq, not_not] at hhash
    exact ⟨row, hrow, hhash, rfl, rfl, rfl, rfl, rfl⟩

omit [DecidableEq D] in
theorem recordParams_ok {record : GapRecord} {row : GapRow D} (hok : recordParams h record = .ok row) :
    row.state = record.state ∧ row.requiredScopeHash = h.scope row.requiredScope := by
  unfold recordParams at hok
  obtain ⟨_, -, hok⟩ := bind_eq_ok.1 hok
  obtain ⟨_, -, hok⟩ := bind_eq_ok.1 hok
  obtain ⟨_, -, hok⟩ := bind_eq_ok.1 hok
  cases hok
  exact ⟨rfl, rfl⟩

/-- The row of one gap is written, with the state of `record` and the hash of its own scope. -/
def Saved (h : Hashes D) (db : Db D) (record : GapRecord) (db' : Db D) : Prop :=
  ∃ row : GapRow D, row.state = record.state ∧ row.requiredScopeHash = h.scope row.requiredScope ∧
    db' = { db with gaps := Function.update db.gaps record.id (some row) }

omit [DecidableEq D] in
theorem save_ok {db db' : Db D} {record : GapRecord} (hok : db.save h record = .ok db') : Saved h db record db' := by
  unfold Db.save at hok
  obtain ⟨row, hrow, hok⟩ := bind_eq_ok.1 hok
  obtain ⟨hstate, hhash⟩ := recordParams_ok hrow
  cases hok
  cases hold : db.gaps record.id with
  | none => exact ⟨row, hstate, hhash, by simp⟩
  | some old => exact ⟨{ row with startedAt := old.startedAt }, hstate, hhash, by simp⟩

omit [DecidableEq D] in
theorem insertSeed_ok {db db' : Db D} {record : GapRecord} (hok : db.insertSeed h record = .ok db') : db' = db ∨
    Saved h db record db' := by
  unfold Db.insertSeed at hok
  obtain ⟨row, hrow, hok⟩ := bind_eq_ok.1 hok
  obtain ⟨hstate, hhash⟩ := recordParams_ok hrow
  split at hok
  · cases hok
    exact .inl rfl
  · cases hok
    exact .inr ⟨row, hstate, hhash, rfl⟩

theorem close_ok {db db' : Db D} {gapId : String} {endedAt : Datetime}
    (hok : db.close upper h seeds gapId endedAt = .ok db') :
    db' = db ∨ ∃ record, record.state = .endedUnrecovered ∧ Saved h db record db' := by
  unfold Db.close at hok
  obtain ⟨found, -, hok⟩ := bind_eq_ok.1 hok
  cases found with
  | none =>
    cases hok
    exact .inl rfl
  | some record =>
    obtain ⟨updated, hclose, hok⟩ := bind_eq_ok.1 hok
    obtain ⟨-, ended, -, rfl⟩ := closeGap_ok.1 hclose
    exact .inr ⟨_, rfl, save_ok hok⟩

theorem verifyRecovery_ok {db db' : Db D} {gapId : String} {receipt receiptId : Option String}
    (hok : db.verifyRecovery upper h seeds gapId receipt receiptId = .ok db') :
    db' = db ∨ ∃ id record trusted, receiptId = some id ∧ db.get upper h seeds gapId = .ok (some record) ∧
      db.getVerified upper h id = .ok (some trusted) ∧ Evidence record trusted ∧
      Saved h db (record.recoveredBy trusted) db' := by
  unfold Db.verifyRecovery at hok
  obtain ⟨found, hfound, hok⟩ := bind_eq_ok.1 hok
  cases found with
  | none =>
    cases hok
    exact .inl rfl
  | some record =>
    obtain ⟨_, -, hok⟩ := bind_eq_ok.1 hok
    split at hok
    · cases hok
    · rename_i id hid
      obtain ⟨updated, hmark, hok⟩ := bind_eq_ok.1 hok
      obtain ⟨trusted, htrusted, hevidence, rfl⟩ := markRecoveredFromStore_ok.1 hmark
      exact .inr ⟨id, record, trusted, (Option.filter_eq_some_iff.1 hid).1, hfound, htrusted, hevidence, save_ok hok⟩

omit [DecidableEq D] in
theorem recordTrustedCoverage_ok {db db' : Db D} {coverageId sourceFingerprint producer : String}
    {coveredStart coveredEnd verifiedAt : Datetime}
    {scope : GapScope} {tableCounts : List (String × ℕ)}
    (hok : db.recordTrustedCoverage h coverageId coveredStart coveredEnd scope sourceFingerprint tableCounts producer
      verifiedAt = .ok db') :
    ∃ row : CoverageRow D, db' = { db with coverages := Function.update db.coverages coverageId (some row) } ∧
      ((∃ old, db.coverages coverageId = some old ∧ row.scope = old.scope ∧ row.scopeHash = old.scopeHash) ∨
      row.scopeHash = h.scope row.scope) := by
  unfold Db.recordTrustedCoverage at hok
  obtain ⟨_, -, hok⟩ := bind_eq_ok.1 hok
  obtain ⟨_, -, hok⟩ := bind_eq_ok.1 hok
  obtain ⟨_, -, hok⟩ := bind_eq_ok.1 hok
  cases hok
  cases hold : db.coverages coverageId with
  | none => exact ⟨_, rfl, .inr rfl⟩
  | some old => exact ⟨_, rfl, .inl ⟨old, rfl, rfl, rfl⟩⟩

theorem recordTrustedReceipt_ok {db db' : Db D}
    {gapId receiptId actualReconciliationId authoritativeCoverageId : String} {verifiedAt : Datetime}
    (hok : db.recordTrustedReceipt upper h gapId receiptId actualReconciliationId authoritativeCoverageId
      verifiedAt = .ok db') :
    ∃ row : ReceiptRow D, db' = { db with receipts := Function.update db.receipts receiptId (some row) } ∧
      row.scopeHash = h.scope row.scope ∧
      row.gapId = gapId ∧ row.actualReconciliationId = actualReconciliationId ∧
      row.authoritativeCoverageId = authoritativeCoverageId := by
  unfold Db.recordTrustedReceipt at hok
  split at hok
  · cases hok
  · rename_i row hrow
    split at hok
    · cases hok
    · cases hok
      unfold Db.checkedReceipt at hrow
      obtain ⟨found, -, hrow⟩ := bind_eq_ok.1 hrow
      cases found with
      | none => cases hrow
      | some record =>
        dsimp only at hrow
        split at hrow
        · cases hrow
        · obtain ⟨_, -, hrow⟩ := bind_eq_ok.1 hrow
          obtain ⟨_, -, hrow⟩ := bind_eq_ok.1 hrow
          obtain ⟨_, -, hrow⟩ := bind_eq_ok.1 hrow
          obtain ⟨_, -, hrow⟩ := bind_eq_ok.1 hrow
          cases hrow
          exact ⟨_, rfl, rfl, rfl, rfl, rfl⟩

/-- Who saves `record`: a call that does not make it recovered, a save, a seed, or a recovery that is verified. -/
def Author (upper : String → String) (h : Hashes D) (seeds : String → Option GapRecord) (db : Db D) (op : Op)
    (record : GapRecord) : Prop :=
  record.state ≠ .recovered ∨ (op = .save record ∨ op = .seed record) ∨
    ∃ json receiptId old trusted, op = .verifyRecovery old.id json (some receiptId) ∧
    db.get upper h seeds old.id = .ok (some old) ∧
      db.getVerified upper h receiptId = .ok (some trusted) ∧ Evidence old trusted ∧ record = old.recoveredBy trusted

theorem mapError_ok {α : Type} {x : Except Error α} {a : α} (hok : x.mapError Raised.gap = .ok a) : x = .ok a := by
  cases x with
  | error e => cases hok
  | ok b =>
    cases hok
    rfl

/-- What a call that returns has written. -/
theorem apply_cases {db db' : Db D} {op : Op} (hok : apply upper h seeds db op = .ok db') :
    db' = db ∨ (∃ record, Author upper h seeds db op record ∧ Saved h db record db') ∨
    (∃ coverageId, ∃ row : CoverageRow D,
      db' = { db with coverages := Function.update db.coverages coverageId (some row) } ∧
      ((∃ old, db.coverages coverageId = some old ∧ row.scope = old.scope ∧ row.scopeHash = old.scopeHash) ∨
      row.scopeHash = h.scope row.scope)) ∨
    (∃ receiptId verifiedAt, ∃ row : ReceiptRow D,
      db' = { db with receipts := Function.update db.receipts receiptId (some row) } ∧
      row.scopeHash = h.scope row.scope ∧
      op = .recordTrustedReceipt row.gapId receiptId row.actualReconciliationId row.authoritativeCoverageId
        verifiedAt) ∨
    ∃ migrations, db' = { db with migrations } := by
  cases op with
  | recordTrustedCoverage coverageId =>
    exact .inr (.inr (.inl ⟨coverageId, recordTrustedCoverage_ok (mapError_ok hok)⟩))
  | recordTrustedReceipt gapId receiptId runId coverageId verifiedAt =>
    obtain ⟨row, heq, hhash, rfl, rfl, rfl⟩ := recordTrustedReceipt_ok hok
    exact .inr (.inr (.inr (.inl ⟨receiptId, verifiedAt, row, heq, hhash, rfl⟩)))
  | close gapId endedAt =>
    rcases close_ok (mapError_ok hok) with rfl | ⟨record, hstate, hsaved⟩
    · exact .inl rfl
    · exact .inr (.inl ⟨record, .inl (by rw [hstate]; exact GapState.noConfusion), hsaved⟩)
  | verifyRecovery gapId json receiptId =>
    rcases verifyRecovery_ok (mapError_ok hok) with
      rfl | ⟨receiptId, old, trusted, rfl, hget, htrusted, hevidence, hsaved⟩
    · exact .inl rfl
    · obtain ⟨_, -, -, rfl, -⟩ := get_ok hget
      exact .inr (.inl ⟨_, .inr (.inr ⟨json, receiptId, old, trusted, rfl, hget, htrusted, hevidence, rfl⟩), hsaved⟩)
  | save record => exact .inr (.inl ⟨record, .inr (.inl (.inl rfl)), save_ok (mapError_ok hok)⟩)
  | seed record =>
    rcases insertSeed_ok (mapError_ok hok) with rfl | hsaved
    · exact .inl rfl
    · exact .inr (.inl ⟨record, .inr (.inl (.inr rfl)), hsaved⟩)
  | migration =>
    cases hok
    exact .inr (.inr (.inr (.inr ⟨_, rfl⟩)))

end Gap.Stored

import Mathlib.Data.Int.Order.Basic
/-!
# Gap records and their operations (gaps.py:36-82, :118-127, :161-226, :270-310)

A gap is opened with its start and its scope. `close_gap` gives it an end, `begin_backfill` says that it
is being filled, and `mark_recovered` takes the receipt of a reconciliation as the evidence that nothing
is missing any more. The dataclasses are frozen, so a call that raises leaves the caller with the record
it had.

| here | there |
| --- | --- |
| `Datetime` | `dt.datetime`: a point on the UTC axis in microseconds, or a clock reading with no time zone |
| `Datetime.toUtc` | `_to_utc`; `astimezone` overflows where the UTC reading has no year 1 to 9999 |
| `Datetime.lt` | `<` and `>`; an aware and a naive datetime cannot be ordered |
| `Error` | the exception and its text; a `GapTransitionError` has a code of its own |
| `uncovered` | the condition of gaps.py:199, whose `or` does not look at the second comparison after a true first one |
| the argument of `markRecoveredFromStore` | `receipts.get_verified`: whatever the store answers, or its exception |
| `next` | what the caller of an operation holds after it |

`to_public_dict` and `summarize` only read a record, and the repositories only store it.
-/

namespace Gap

inductive Datetime
  | aware (us : Int)
  | naive (us : Int)
  deriving DecidableEq

inductive Error
  | gapTransition (code detail : String)
  | valueError (text : String)
  | typeError (text : String)
  | overflowError (text : String)
  deriving DecidableEq

/-! ## Datetimes -/

/-- `datetime.min` and `datetime.max` read as UTC. -/
def minUs : Int := -62135596800000000

def maxUs : Int := 253402300799999999

/-- `_to_utc`. -/
def Datetime.toUtc : Datetime → Except Error Datetime
  | .naive _ => .error (.valueError "timestamp must include timezone")
  | .aware us => if minUs ≤ us ∧ us ≤ maxUs then .ok (.aware us) else .error (.overflowError "date value out of range")

def Datetime.lt : Datetime → Datetime → Except Error Bool
  | .aware a, .aware b => .ok (a < b)
  | .naive a, .naive b => .ok (a < b)
  | _, _ => .error (.typeError "can't compare offset-naive and offset-aware datetimes")

/-- Two datetimes can be ordered, and the first is not the later one. -/
def Datetime.Le : Datetime → Datetime → Prop
  | .aware a, .aware b => a ≤ b
  | .naive a, .naive b => a ≤ b
  | .aware _, .naive _ => False
  | .naive _, .aware _ => False

instance : ∀ a b : Datetime, Decidable (a.Le b)
  | .aware a, .aware b => inferInstanceAs (Decidable (a ≤ b))
  | .naive a, .naive b => inferInstanceAs (Decidable (a ≤ b))
  | .aware _, .naive _ => .isFalse not_false
  | .naive _, .aware _ => .isFalse not_false

@[simp] theorem Datetime.lt_eq_false {a b : Datetime} : a.lt b = .ok false ↔ b.Le a := by
  cases a <;> cases b <;> simp [Datetime.lt, Datetime.Le]

@[simp] theorem Datetime.toUtc_eq_ok {a b : Datetime} :
    a.toUtc = .ok b ↔ ∃ us, a = .aware us ∧ b = .aware us ∧ minUs ≤ us ∧ us ≤ maxUs := by
  cases a with
  | naive us => simp [Datetime.toUtc]
  | aware us =>
    by_cases h : minUs ≤ us ∧ us ≤ maxUs
    · simp [Datetime.toUtc, h, eq_comm]
    · simp only [Datetime.toUtc, if_neg h, reduceCtorEq, Datetime.aware.injEq, false_iff, not_exists]
      rintro us' ⟨rfl, _, h'⟩
      exact h h'

/-! ## Scopes, receipts and records -/

def unknownHistoricalSymbolScope : String := "UNKNOWN_HISTORICAL_UNIVERSE"

structure GapScope where
  venues : List String
  symbols : List String
  tables : List String
  deriving DecidableEq

/-- `_scope_resolved`. -/
def scopeResolved (scope : GapScope) : Bool :=
  let parts := scope.venues ++ scope.symbols ++ scope.tables
  !scope.venues.isEmpty && !scope.symbols.isEmpty && !scope.tables.isEmpty &&
    !parts.contains unknownHistoricalSymbolScope && !parts.contains "*"

structure BackfillReceipt where
  id : String
  coveredStart : Datetime
  coveredEnd : Datetime
  scope : GapScope
  evidenceType : String
  actualReconciliationId : String
  authoritativeCoverageId : String
  missingIntervals : Int
  missingRows : Int
  verifiedAt : Datetime
  deriving DecidableEq

inductive GapState | opened | endedUnrecovered | backfilling | recovered
  deriving DecidableEq

structure GapRecord where
  id : String
  startedAt : Datetime
  endedAt : Option Datetime
  state : GapState
  requiredScope : GapScope
  reason : String
  backfillReceiptId : Option String
  recoveredAt : Option Datetime
  reconciliationResult : Option String
  deriving DecidableEq

/-- A record as it is opened: `GapRecord(id, started_at, None, GapState.OPEN, required_scope, reason)`. -/
def GapRecord.new (id : String) (startedAt : Datetime) (requiredScope : GapScope) (reason : String) : GapRecord :=
  { id, startedAt, endedAt := none, state := .opened, requiredScope, reason,
    backfillReceiptId := none, recoveredAt := none, reconciliationResult := none }

/-- `known_incident`: a collection stop at 2026-09-08 05:16:54 UTC whose symbols nobody has listed. -/
def knownIncident : GapRecord :=
  .new "collection-stop-20260908" (.aware 1788844614000000)
    ⟨["UPBIT", "BINANCE", "KIS", "KRX"], [unknownHistoricalSymbolScope],
      ["instruments", "trades", "book_top", "bars_1m", "signals", "feed_stats", "latest", "quality_events"]⟩
    "collection stopped at 2026-09-08 14:16:54 KST; no verified backfill exists"

/-! ## Operations -/

def illegalTransition (detail : String) : Error := .gapTransition "GAP_ILLEGAL_TRANSITION" detail

def evidenceIncomplete (detail : String) : Error := .gapTransition "GAP_RECOVERY_EVIDENCE_INCOMPLETE" detail

/-- `if condition: raise`. -/
def refuse (condition : Bool) (e : Error) : Except Error Unit := if condition then .error e else .ok ()

@[simp] theorem refuse_eq_ok {condition : Bool} {e : Error} {u : Unit} : refuse condition e = .ok u ↔
    condition = false := by
  cases condition <;> simp [refuse]

theorem bind_eq_ok {α β : Type} {x : Except Error α} {f : α → Except Error β} {b : β} :
    (x >>= f) = .ok b ↔ ∃ a, x = .ok a ∧ f a = .ok b := by
  cases x <;> simp [bind, Except.bind]

def closeGap (record : GapRecord) (endedAt : Datetime) : Except Error GapRecord :=
  match record.state with
  | .opened =>
    endedAt.toUtc.map fun endedAt =>
      { GapRecord.new record.id record.startedAt record.requiredScope
        "gap has an end time but no verified backfill receipt" with
        endedAt := some endedAt, state := .endedUnrecovered }
  | .endedUnrecovered | .backfilling | .recovered => .error (illegalTransition "only an open gap can be closed")

def beginBackfill (record : GapRecord) : Except Error GapRecord :=
  match record.state with
  | .endedUnrecovered => .ok { record with state := .backfilling, reason := "backfill is in progress" }
  | .opened | .backfilling | .recovered => .error (illegalTransition "only a closed unrecovered gap can enter backfill")

/-- Does the receipt leave out a part of the interval? -/
def uncovered (receipt : BackfillReceipt) (startedAt endedAt : Datetime) : Except Error Bool := do
  if ← startedAt.lt receipt.coveredStart then return true
  receipt.coveredEnd.lt endedAt

/-- The record that `mark_recovered` returns. -/
def GapRecord.recoveredBy (record : GapRecord) (receipt : BackfillReceipt) : GapRecord :=
  { id := record.id, startedAt := record.startedAt, endedAt := record.endedAt, state := .recovered,
    requiredScope := record.requiredScope, reason := "recovered by verified stored reconciliation",
    backfillReceiptId := some receipt.id, recoveredAt := some receipt.verifiedAt,
    reconciliationResult := some receipt.actualReconciliationId }

def markRecovered (record : GapRecord) (receipt : BackfillReceipt) : Except Error GapRecord := do
  refuse (record.state = .opened) (evidenceIncomplete "open gaps have no closed interval")
  match record.endedAt with
  | none => .error (evidenceIncomplete "gap end time is required")
  | some endedAt => do
    refuse (!scopeResolved record.requiredScope || !scopeResolved receipt.scope)
      (evidenceIncomplete "resolved non-empty historical scope is required")
    refuse (receipt.evidenceType ≠ "stored_reconciliation")
      (evidenceIncomplete "stored reconciliation evidence is required")
    refuse (receipt.actualReconciliationId.isEmpty || receipt.authoritativeCoverageId.isEmpty)
      (evidenceIncomplete "coverage and reconciliation ids are required")
    refuse (← uncovered receipt record.startedAt endedAt)
      (evidenceIncomplete "receipt does not cover the full time interval")
    refuse (receipt.scope ≠ record.requiredScope) (evidenceIncomplete "receipt does not match the exact required scope")
    refuse (receipt.missingIntervals ≠ 0 || receipt.missingRows ≠ 0)
      (evidenceIncomplete "receipt reports missing market data")
    return record.recoveredBy receipt

def markRecoveredFromStore (record : GapRecord) (receiptId : String)
    (getVerified : String → Except Error (Option BackfillReceipt)) : Except Error GapRecord := do
  let some receipt ← getVerified receiptId | throw (evidenceIncomplete "trusted recovery receipt is missing")
  markRecovered record receipt

/-! ## What each operation accepts -/

/-- What a receipt must be for the gap to count as recovered. -/
structure Evidence (record : GapRecord) (receipt : BackfillReceipt) : Prop where
  closed : record.state ≠ .opened
  covers : ∃ ended, record.endedAt = some ended ∧ receipt.coveredStart.Le record.startedAt ∧ ended.Le receipt.coveredEnd
  scope : receipt.scope = record.requiredScope
  resolved : scopeResolved record.requiredScope = true
  noneMissing : receipt.missingIntervals = 0 ∧ receipt.missingRows = 0
  reconciled : receipt.evidenceType = "stored_reconciliation"
  ids : receipt.actualReconciliationId ≠ "" ∧ receipt.authoritativeCoverageId ≠ ""

theorem closeGap_ok {record record' : GapRecord} {endedAt : Datetime} :
    closeGap record endedAt = .ok record' ↔ record.state = .opened ∧ ∃ ended, endedAt.toUtc = .ok ended ∧
      record' = { GapRecord.new record.id record.startedAt record.requiredScope
        "gap has an end time but no verified backfill receipt" with endedAt := some ended, state := .endedUnrecovered } := by
  unfold closeGap
  cases hs : record.state <;> simp only [reduceCtorEq, false_and, true_and]
  cases endedAt.toUtc <;> simp [Except.map, eq_comm]

theorem beginBackfill_ok {record record' : GapRecord} :
    beginBackfill record = .ok record' ↔ record.state = .endedUnrecovered ∧
      record' = { record with state := .backfilling, reason := "backfill is in progress" } := by
  unfold beginBackfill
  cases hs : record.state <;> simp [eq_comm]

theorem uncovered_eq_false {receipt : BackfillReceipt} {startedAt endedAt : Datetime} :
    uncovered receipt startedAt endedAt = .ok false ↔ receipt.coveredStart.Le startedAt ∧
      endedAt.Le receipt.coveredEnd := by
  rw [← Datetime.lt_eq_false, ← Datetime.lt_eq_false]
  unfold uncovered
  cases h : startedAt.lt receipt.coveredStart with
  | error e => simp [bind, Except.bind]
  | ok b => cases b <;> simp [bind, Except.bind, pure, Except.pure]

theorem markRecovered_ok {record record' : GapRecord} {receipt : BackfillReceipt} :
    markRecovered record receipt = .ok record' ↔ Evidence record receipt ∧ record' = record.recoveredBy receipt := by
  unfold markRecovered
  cases he : record.endedAt with
  | none =>
    simp only [bind_eq_ok, reduceCtorEq, and_false, exists_false, false_iff, not_and]
    intro h
    obtain ⟨ended, hended, -⟩ := h.covers
    rw [he] at hended
    cases hended
  | some ended =>
    simp only [bind_eq_ok, refuse_eq_ok, exists_const, pure, Except.pure]
    constructor
    · rintro ⟨hopen, hres, htype, hids, u, hu, rfl, hscope, hmissing, heq⟩
      simp only [decide_eq_false_iff_not, Bool.or_eq_false_iff, Bool.not_eq_false', ne_eq, not_not,
        String.isEmpty_eq_false_iff] at *
      cases heq
      exact ⟨⟨hopen, ⟨ended, he, uncovered_eq_false.1 hu⟩, hscope, hres.1, hmissing, htype, hids⟩, rfl⟩
    · rintro ⟨h, rfl⟩
      obtain ⟨ended', hended, hcov⟩ := h.covers
      obtain rfl : ended = ended' := Option.some.inj (he.symm.trans hended)
      refine ⟨by simp [h.closed], by simp [h.resolved, h.scope], by simp [h.reconciled], by simp [h.ids],
        false, uncovered_eq_false.2 hcov, rfl, by simp [h.scope], by simp [h.noneMissing], rfl⟩

theorem markRecoveredFromStore_ok {record record' : GapRecord} {receiptId : String}
    {getVerified : String → Except Error (Option BackfillReceipt)} :
    markRecoveredFromStore record receiptId getVerified = .ok record' ↔
      ∃ receipt, getVerified receiptId = .ok (some receipt) ∧ Evidence record receipt ∧
      record' = record.recoveredBy receipt := by
  unfold markRecoveredFromStore
  rw [bind_eq_ok]
  constructor
  · rintro ⟨found, hfound, h⟩
    cases found with
    | none => cases h
    | some receipt => exact ⟨receipt, hfound, markRecovered_ok.1 h⟩
  · rintro ⟨receipt, hfound, h⟩
    exact ⟨some receipt, hfound, markRecovered_ok.2 h⟩

end Gap

import Mathlib.Data.List.Induction
import MarketFeed.Gap.Stored
/-!
# What a gap is recovered on (gap_repository.py:148-239, :298-383)

In every run each row carries the hash of the scope that it carries (`hashed_run`) and each receipt was recorded
(`receipt_recorded`). With a hash that does not collide the checks of `get_verified` and `mark_recovered` then say of
the rows themselves that they are a chain (`Hashed.chain`). `save` stores a recovered record as it is given
(`recovered_by_save`). That the receipt was recorded for another gap is not noticed
(`recovered_by_another_gaps_receipt`).
-/

namespace Gap.Stored

variable {D : Type} [DecidableEq D] {upper : String → String} {h : Hashes D} {seeds : String → Option GapRecord}

/-! ## Runs -/

/-- Each row carries the hash of the scope that it carries. -/
structure Hashed (h : Hashes D) (db : Db D) : Prop where
  gaps : ∀ gapId row, db.gaps gapId = some row → row.requiredScopeHash = h.scope row.requiredScope
  receipts : ∀ receiptId row, db.receipts receiptId = some row → row.scopeHash = h.scope row.scope
  coverages : ∀ coverageId row, db.coverages coverageId = some row → row.scopeHash = h.scope row.scope

omit [DecidableEq D] in
/-- What holds of every row of a table holds after a row of which it holds is written. -/
theorem update_all {β : Type} {p : β → Prop} {t : String → Option β} (hall : ∀ id row, t id = some row → p row)
    {key : String} {new : β} (hnew : p new) :
    ∀ id row, Function.update t key (some new) id = some row → p row := by
  intro id row hrow
  by_cases hid : id = key
  · subst hid
    rw [Function.update_self] at hrow
    cases hrow
    exact hnew
  · rw [Function.update_of_ne hid] at hrow
    exact hall id row hrow

theorem Hashed.apply {db db' : Db D} {op : Op} (hh : Hashed h db) (hok : Stored.apply upper h seeds db op = .ok db') :
    Hashed h db' := by
  rcases apply_cases hok with rfl | ⟨record, -, row, -, hhash, rfl⟩ | ⟨coverageId, row, rfl, hrow⟩ | ⟨receiptId,
    verifiedAt, row, rfl, hhash, -⟩ |
    ⟨migrations, rfl⟩
  · exact hh
  · exact ⟨update_all hh.gaps hhash, hh.receipts, hh.coverages⟩
  · refine ⟨hh.gaps, hh.receipts, update_all hh.coverages ?_⟩
    rcases hrow with ⟨old, hold, hscope, hhash⟩ | hhash
    · rw [hscope, hhash]
      exact hh.coverages _ old hold
    · exact hhash
  · exact ⟨hh.gaps, update_all hh.receipts hhash, hh.coverages⟩
  · exact ⟨hh.gaps, hh.receipts, hh.coverages⟩

theorem run_concat (ops : List Op) (op : Op) :
    run upper h seeds (ops ++ [op]) = next upper h seeds (run upper h seeds ops) op := by
  simp [run]

variable (upper h seeds) in
theorem next_cases (db : Db D) (op : Op) : next upper h seeds db op = db ∨
    apply upper h seeds db op = .ok (next upper h seeds db op) := by
  unfold next
  split
  · exact .inr ‹_›
  · exact .inl rfl

theorem hashed_run (ops : List Op) : Hashed h (run upper h seeds ops) := by
  induction ops using List.reverseRecOn with
  | nil => exact ⟨fun _ _ hrow => by (cases hrow), fun _ _ hrow => by (cases hrow), fun _ _ hrow => by (cases hrow)⟩
  | append_singleton ops op ih =>
    rw [run_concat]
    rcases next_cases upper h seeds (run upper h seeds ops) op with heq | hok
    · rwa [heq]
    · exact ih.apply hok

theorem apply_receipts {db db' : Db D} {op : Op} (hok : apply upper h seeds db op = .ok db')
    {receiptId : String} {row : ReceiptRow D}
    (hrow : db'.receipts receiptId = some row) :
    db.receipts receiptId = some row ∨
      ∃ verifiedAt, op = .recordTrustedReceipt row.gapId receiptId row.actualReconciliationId
        row.authoritativeCoverageId verifiedAt := by
  rcases apply_cases hok with rfl | ⟨record, -, _, -, -, rfl⟩ | ⟨_, _, rfl, -⟩ | ⟨id, verifiedAt, new, rfl, -,
    hop⟩ | ⟨_, rfl⟩
  · exact .inl hrow
  · exact .inl hrow
  · exact .inl hrow
  · by_cases hid : receiptId = id
    · subst hid
      simp only [Function.update_self, Option.some.injEq] at hrow
      subst hrow
      exact .inr ⟨verifiedAt, hop⟩
    · simp only [Function.update_of_ne hid] at hrow
      exact .inl hrow
  · exact .inl hrow

theorem receipt_recorded {ops : List Op} {receiptId : String} {row : ReceiptRow D}
    (hrow : (run upper h seeds ops).receipts receiptId = some row) :
    ∃ verifiedAt, .recordTrustedReceipt row.gapId receiptId row.actualReconciliationId row.authoritativeCoverageId
      verifiedAt ∈ ops := by
  induction ops using List.reverseRecOn with
  | nil => cases hrow
  | append_singleton ops op ih =>
    rw [run_concat] at hrow
    rcases next_cases upper h seeds (run upper h seeds ops) op with heq | hok
    · rw [heq] at hrow
      obtain ⟨verifiedAt, hmem⟩ := ih hrow
      exact ⟨verifiedAt, by simp [hmem]⟩
    · rcases apply_receipts hok hrow with hold | ⟨verifiedAt, rfl⟩
      · obtain ⟨verifiedAt, hmem⟩ := ih hold
        exact ⟨verifiedAt, by simp [hmem]⟩
      · exact ⟨verifiedAt, by simp⟩

/-! ## Recovered -/

def Recovered (db : Db D) (gapId : String) : Prop := (db.gaps gapId).any (·.state = .recovered) = true

instance (db : Db D) (gapId : String) : Decidable (Recovered db gapId) := inferInstanceAs (Decidable (_ = true))

/-- The rows that a gap is recovered on. -/
structure Chain (h : Hashes D) (db : Db D) (gapId receiptId : String) (gap : GapRow D) (receipt : ReceiptRow D)
    (migration : MigrationRow)
    (coverage : CoverageRow D) : Prop where
  gapFound : db.gaps gapId = some gap
  receiptFound : db.receipts receiptId = some receipt ∧ receipt.status = .verified
  migrationFound : db.migrations receipt.actualReconciliationId = some migration ∧ migration.state = .completed
  coverageFound : db.coverages receipt.authoritativeCoverageId = some coverage ∧ coverage.status = .verified
  fingerprint : migration.sourceFingerprint = coverage.sourceFingerprint
  scope : receipt.scope = gap.requiredScope ∧ coverage.scope = gap.requiredScope
  interval : ∃ ended, gap.endedAt = some ended ∧ coverage.coveredStart ≤ receipt.coveredStart ∧
    receipt.coveredStart ≤ gap.startedAt ∧
    ended ≤ receipt.coveredEnd ∧ receipt.coveredEnd ≤ coverage.coveredEnd
  scopeHashes : gap.requiredScopeHash = h.scope gap.requiredScope ∧ receipt.scopeHash = h.scope receipt.scope ∧
    coverage.scopeHash = h.scope coverage.scope
  evidenceHashes : receipt.evidenceHash = h.receipt receipt.toReceiptPayload ∧
    coverage.evidenceHash = h.coverage coverage.toCoveragePayload

omit [DecidableEq D] in
theorem Saved.recovered {db db' : Db D} {record : GapRecord} {gapId : String} (hsaved : Saved h db record db')
    (hbefore : ¬Recovered db gapId)
    (hafter : Recovered db' gapId) : record.id = gapId ∧ record.state = .recovered := by
  obtain ⟨row, hstate, -, rfl⟩ := hsaved
  by_cases hid : gapId = record.id
  · subst hid
    simp only [Recovered, Function.update_self, Option.any_some, decide_eq_true_eq] at hafter
    exact ⟨rfl, hstate.symm.trans hafter⟩
  · simp only [Recovered, Function.update_of_ne hid] at hafter
    exact absurd hafter hbefore

/-- What has been checked is a chain. -/
theorem Hashed.chain (hinj : Function.Injective h.scope) {db : Db D} (hh : Hashed h db)
    {gapId receiptId : String} {record : GapRecord}
    {trusted : BackfillReceipt} (hget : db.get upper h seeds gapId = .ok (some record))
    (htrusted : db.getVerified upper h receiptId = .ok (some trusted)) (hevidence : Evidence record trusted) :
    ∃ gap receipt migration coverage, Chain h db gapId receiptId gap receipt migration coverage := by
  obtain ⟨gap, hgap, hgapHash, -, hstart, hend, -, hscope⟩ := get_ok hget
  obtain ⟨receipt, migration, coverage, hr⟩ := getVerified_ok htrusted
  obtain ⟨hrscope, hrstart, hrend⟩ := hr.reads
  have ha := hr.authorities
  -- a stored scope reads as itself, or its hash would not be its own
  have hgapScope : scopeFromStored upper gap.requiredScope = gap.requiredScope :=
    hinj (hgapHash.symm.trans (hh.gaps gapId gap hgap))
  have hreceiptScope : scopeFromStored upper receipt.scope = receipt.scope :=
    hinj (hr.scopeHash.symm.trans (hh.receipts _ _ hr.found))
  have hcoverageScope : scopeFromStored upper coverage.scope = coverage.scope :=
    hinj (ha.scopeHash.symm.trans (hh.coverages _ _ ha.found))
  obtain ⟨ended, hended, hfrom, hto⟩ := hevidence.covers
  rw [hend, Option.map_eq_some_iff] at hended
  obtain ⟨e, he, rfl⟩ := hended
  have hcovers := ha.covers
  rw [hrstart, hrend] at hcovers
  rw [hrstart, hstart] at hfrom
  rw [hrend] at hto
  have hscopes : receipt.scope = gap.requiredScope := by
    rw [← hreceiptScope, ← hrscope, hevidence.scope, hscope, hgapScope]
  have hcscope : coverage.scope = gap.requiredScope := by
    rw [← hcoverageScope, ha.scope, hrscope, hreceiptScope, hscopes]
  refine ⟨gap, receipt, migration, coverage, hgap, ⟨hr.found, hr.verified⟩, ⟨ha.run, ha.completed⟩,
    ⟨ha.found, ha.verified⟩, ha.fingerprint,
    ⟨hscopes, hcscope⟩, ⟨e, he, hcovers.1, hfrom, hto, hcovers.2⟩,
      ⟨hh.gaps gapId gap hgap, hh.receipts _ _ hr.found, hh.coverages _ _ ha.found⟩,
    hr.evidenceHash, ha.evidenceHash⟩

/-- **A gap is recovered on a chain.** Where it becomes so, a record in that state was saved, or a recovery was
verified: then a receipt that was recorded, a completed run and a verified coverage of its fingerprint are there, with
the scope of the gap and an interval around its own, and each with the hash of what it says. -/
theorem recovered_on_chain (hinj : Function.Injective h.scope) {ops : List Op} {op : Op} {gapId : String}
    (hbefore : ¬Recovered (run upper h seeds ops) gapId) (hafter : Recovered (run upper h seeds (ops ++ [op])) gapId) :
    (∃ record, (op = .save record ∨ op = .seed record) ∧ record.id = gapId ∧ record.state = .recovered) ∨
    ∃ json receiptId gap receipt migration coverage verifiedAt, op = .verifyRecovery gapId json (some receiptId) ∧
      Chain h (run upper h seeds ops) gapId receiptId gap receipt migration coverage ∧
      .recordTrustedReceipt receipt.gapId receiptId receipt.actualReconciliationId receipt.authoritativeCoverageId
        verifiedAt ∈ ops := by
  rw [run_concat] at hafter
  rcases next_cases upper h seeds (run upper h seeds ops) op with heq | hok
  · rw [heq] at hafter
    exact absurd hafter hbefore
  · generalize next upper h seeds (run upper h seeds ops) op = db' at hafter hok
    rcases apply_cases hok with rfl | ⟨record, hauthor, hsaved⟩ | ⟨_, _, rfl, -⟩ | ⟨_, _, _, rfl, -⟩ | ⟨_, rfl⟩
    · exact absurd hafter hbefore
    · obtain ⟨hid, hstate⟩ := hsaved.recovered hbefore hafter
      rcases hauthor with hne | hop | ⟨json, receiptId, old, trusted, rfl, hget, htrusted, hevidence, rfl⟩
      · exact absurd hstate hne
      · exact .inl ⟨record, hop, hid, hstate⟩
      · obtain rfl : old.id = gapId := hid
        obtain ⟨gap, receipt, migration, coverage, hchain⟩ := (hashed_run ops).chain hinj hget htrusted hevidence
        obtain ⟨verifiedAt, hrecorded⟩ := receipt_recorded hchain.receiptFound.1
        exact .inr ⟨json, receiptId, gap, receipt, migration, coverage, verifiedAt, rfl, hchain, hrecorded⟩
    · exact absurd hafter hbefore
    · exact absurd hafter hbefore
    · exact absurd hafter hbefore

/-- What is hashed, as it is: no two of these are the same. -/
inductive Digest
  | scope (s : GapScope)
  | coverage (coverageId : String) (coveredStart coveredEnd : Int) (scopeHash : Digest) (sourceFingerprint : String)
      (tableCounts : List (String × ℕ)) (producer : String) (verifiedAt : Int)
  | receipt (receiptId : String) (coveredStart coveredEnd : Int) (scopeHash : Digest)
      (actualReconciliationId authoritativeCoverageId : String)
      (missingIntervals missingRows verifiedAt : Int)
  deriving DecidableEq

def Digest.hashes : Hashes Digest where
  scope := .scope
  coverage p := .coverage p.coverageId p.coveredStart p.coveredEnd p.scopeHash p.sourceFingerprint p.tableCounts
    p.producer p.verifiedAt
  receipt p := .receipt p.receiptId p.coveredStart p.coveredEnd p.scopeHash p.actualReconciliationId
    p.authoritativeCoverageId p.missingIntervals
    p.missingRows p.verifiedAt

/-- An outage and a shorter one within it, both closed; a receipt is recorded for the longer. -/
def twoOutages : List Op :=
  let scope : GapScope := ⟨["KIS"], ["005930"], ["trades"]⟩
  [.save (.new "long" (.aware 0) scope "outage"), .close "long" (.aware 100),
    .save (.new "short" (.aware 10) scope "outage"), .close "short" (.aware 20),
    .migration "run" (some ⟨"fingerprint", .completed⟩),
    .recordTrustedCoverage "coverage" (.aware 0) (.aware 100) scope "fingerprint" [("trades", 7)] "restore"
      (.aware 200),
    .recordTrustedReceipt "long" "receipt" "run" "coverage" (.aware 300)]

/-- The longer one is recovered. -/
theorem recovered_on_chain_of_receipt :
    ∃ gap receipt migration coverage, Chain Digest.hashes (run id Digest.hashes (fun _ => none) twoOutages) "long"
      "receipt" gap receipt migration coverage := by
  have hinj : Function.Injective Digest.hashes.scope := fun a b heq => by
    cases heq
    rfl
  have hbefore : ¬Recovered (run id Digest.hashes (fun _ => none) twoOutages) "long" := by decide +kernel
  have hafter : Recovered (run id Digest.hashes (fun _ => none)
      (twoOutages ++ [.verifyRecovery "long" none (some "receipt")])) "long" := by decide +kernel
  rcases recovered_on_chain hinj hbefore hafter with
    ⟨record, hop | hop, -⟩ | ⟨json, receiptId, gap, receipt, migration, coverage, _, hop, hchain, -⟩
  · cases hop
  · cases hop
  · cases hop
    exact ⟨gap, receipt, migration, coverage, hchain⟩

/-- A record in the recovered state is saved: there is no evidence at all. -/
theorem recovered_by_save :
    ∃ (op : Op) (gapId : String), ¬Recovered (run id Digest.hashes (fun _ => none) []) gapId ∧
      Recovered (run id Digest.hashes (fun _ => none) ([] ++ [op])) gapId ∧
      ∀ receiptId, (run id Digest.hashes (fun _ => none) []).receipts receiptId = none :=
  ⟨.save { GapRecord.new "long" (.aware 0) ⟨["KIS"], ["005930"], ["trades"]⟩ "outage" with state := .recovered },
    "long", by decide +kernel, by decide +kernel,
    fun _ => rfl⟩

/-- The receipt of the longer outage recovers the shorter one, which none was recorded for. -/
theorem recovered_by_another_gaps_receipt :
    ¬Recovered (run id Digest.hashes (fun _ => none) twoOutages) "short" ∧
      Recovered (run id Digest.hashes (fun _ => none) (twoOutages ++ [.verifyRecovery "short" none (some "receipt")]))
        "short" ∧
      ∀ receiptId row, (run id Digest.hashes (fun _ => none) twoOutages).receipts receiptId = some row →
      row.gapId ≠ "short" := by
  refine ⟨by decide +kernel, by decide +kernel, fun receiptId row hrow hgap => ?_⟩
  obtain ⟨verifiedAt, hmem⟩ := receipt_recorded hrow
  rw [hgap] at hmem
  simp [twoOutages] at hmem

end Gap.Stored

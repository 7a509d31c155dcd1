import Mathlib.Data.List.Induction
import MarketFeed.Gap.Record
/-!
# What a gap record has been through (gaps.py:161-226)

`run record ops` is the record after the calls `ops`, those that raise among them. `Sound record ops` says
of all of them what the states promise: a recovered record was recovered by a receipt that is evidence for
it, a call that its state or its argument does not permit raises and leaves no trace, and a closed gap has
an end that is not before its start. The first two hold of every run (`recovered_by_evidence`,
`refused_or_legal`); `close_gap` takes whatever end it is given, so the third is up to its callers.
-/

namespace Gap

inductive Op
  | closeGap (endedAt : Datetime)
  | beginBackfill
  | markRecovered (receipt : BackfillReceipt)
  | markRecoveredFromStore (receiptId : String) (getVerified : String → Except Error (Option BackfillReceipt))

def apply (record : GapRecord) : Op → Except Error GapRecord
  | .closeGap endedAt => closeGap record endedAt
  | .beginBackfill => beginBackfill record
  | .markRecovered receipt => markRecovered record receipt
  | .markRecoveredFromStore receiptId getVerified => markRecoveredFromStore record receiptId getVerified

def next (record : GapRecord) (op : Op) : GapRecord :=
  match apply record op with
  | .ok record' => record'
  | .error _ => record

def run (record : GapRecord) (ops : List Op) : GapRecord := ops.foldl next record

/-- The receipt that a call is given, or is answered by the store it is given. -/
def Op.Presents (receipt : BackfillReceipt) : Op → Prop
  | .markRecovered given => given = receipt
  | .markRecoveredFromStore receiptId getVerified => getVerified receiptId = .ok (some receipt)
  | .closeGap _ | .beginBackfill => False

/-- What the states and the evidence permit; the order of start and end is not among it. -/
def Legal (record : GapRecord) : Op → Prop
  | .closeGap endedAt => record.state = .opened ∧ ∃ us, endedAt = .aware us ∧ minUs ≤ us ∧ us ≤ maxUs
  | .beginBackfill => record.state = .endedUnrecovered
  | .markRecovered receipt => Evidence record receipt
  | .markRecoveredFromStore receiptId getVerified => ∃ receipt, getVerified receiptId = .ok (some receipt) ∧
      Evidence record receipt

/-! ## One call -/

/-- What a call that returns has done. -/
theorem apply_cases {record record' : GapRecord} {op : Op} (h : apply record op = .ok record') :
    (∃ us, op = .closeGap (.aware us) ∧ record.state = .opened ∧ minUs ≤ us ∧ us ≤ maxUs ∧
      record' = { GapRecord.new record.id record.startedAt record.requiredScope
        "gap has an end time but no verified backfill receipt" with endedAt := some (.aware us), state := .endedUnrecovered }) ∨
    (op = .beginBackfill ∧ record.state = .endedUnrecovered ∧
      record' = { record with state := .backfilling, reason := "backfill is in progress" }) ∨
    ∃ receipt, op.Presents receipt ∧ Evidence record receipt ∧ record' = record.recoveredBy receipt := by
  cases op with
  | closeGap endedAt =>
    obtain ⟨hopen, ended, hutc, heq⟩ := closeGap_ok.1 h
    obtain ⟨us, rfl, rfl, hmin, hmax⟩ := Datetime.toUtc_eq_ok.1 hutc
    exact .inl ⟨us, rfl, hopen, hmin, hmax, heq⟩
  | beginBackfill => exact .inr (.inl ⟨rfl, beginBackfill_ok.1 h⟩)
  | markRecovered receipt => exact .inr (.inr ⟨receipt, rfl, markRecovered_ok.1 h⟩)
  | markRecoveredFromStore receiptId getVerified => exact .inr (.inr (markRecoveredFromStore_ok.1 h))

theorem legal_iff {record : GapRecord} {op : Op} : Legal record op ↔ ∃ record', apply record op = .ok record' := by
  cases op with
  | closeGap endedAt =>
    simp only [Legal, apply, closeGap_ok, Datetime.toUtc_eq_ok]
    constructor
    · rintro ⟨hopen, us, rfl, hrange⟩
      exact ⟨_, hopen, .aware us, ⟨us, rfl, rfl, hrange⟩, rfl⟩
    · rintro ⟨_, hopen, _, ⟨us, rfl, -, hrange⟩, -⟩
      exact ⟨hopen, us, rfl, hrange⟩
  | beginBackfill => simp [Legal, apply, beginBackfill_ok]
  | markRecovered receipt => simp [Legal, apply, markRecovered_ok]
  | markRecoveredFromStore receiptId getVerified =>
    simp only [Legal, apply, markRecoveredFromStore_ok]
    constructor
    · rintro ⟨receipt, hfound, h⟩
      exact ⟨_, receipt, hfound, h, rfl⟩
    · rintro ⟨_, receipt, hfound, h, -⟩
      exact ⟨receipt, hfound, h⟩

theorem next_of_error {record : GapRecord} {op : Op} {e : Error} (h : apply record op = .error e) :
    next record op = record := by
  unfold next
  rw [h]

theorem next_of_ok {record record' : GapRecord} {op : Op} (h : apply record op = .ok record') :
    next record op = record' := by
  unfold next
  rw [h]

/-- A call leaves the record as it is, or returns. -/
theorem next_cases (record : GapRecord) (op : Op) : next record op = record ∨
    apply record op = .ok (next record op) := by
  cases h : apply record op with
  | error e => exact .inl (next_of_error h)
  | ok record' => exact .inr (by rw [next_of_ok h])

/-- No call touches what the gap is about. -/
theorem next_frame (record : GapRecord) (op : Op) : (next record op).id = record.id ∧
    (next record op).startedAt = record.startedAt ∧ (next record op).requiredScope = record.requiredScope := by
  rcases next_cases record op with h | h
  · rw [h]
    exact ⟨rfl, rfl, rfl⟩
  · rcases apply_cases h with ⟨us, -, -, -, -, heq⟩ | ⟨-, -, heq⟩ | ⟨receipt, -, -, heq⟩ <;> rw [heq] <;> exact ⟨rfl, rfl, rfl⟩

/-! ## Runs -/

@[simp] theorem run_nil (record : GapRecord) : run record [] = record := rfl

theorem run_concat (record : GapRecord) (ops : List Op) (op : Op) :
    run record (ops ++ [op]) = next (run record ops) op := by
  simp [run]

theorem run_startedAt (record : GapRecord) (ops : List Op) : (run record ops).startedAt = record.startedAt := by
  induction ops using List.reverseRecOn with
  | nil => rfl
  | append_singleton ops op ih => rw [run_concat, (next_frame _ op).2.1, ih]

/-- **A record is recovered by a receipt that was evidence for it as it stood.** -/
theorem recovered_by_evidence (record : GapRecord) (h0 : record.state ≠ .recovered) (ops : List Op)
    (h : (run record ops).state = .recovered) :
    ∃ before op after receipt, ops = before ++ op :: after ∧ op.Presents receipt ∧
      Evidence (run record before) receipt ∧
      run record ops = (run record before).recoveredBy receipt := by
  induction ops using List.reverseRecOn with
  | nil => exact absurd h h0
  | append_singleton ops op ih =>
    rw [run_concat] at h ⊢
    rcases next_cases (run record ops) op with hnext | hok
    · -- the call raised: the evidence is an earlier one
      rw [hnext] at h ⊢
      obtain ⟨before, op', after, receipt, rfl, hev⟩ := ih h
      exact ⟨before, op', after ++ [op], receipt, by simp, hev⟩
    · rcases apply_cases hok with ⟨us, -, -, -, -, heq⟩ | ⟨-, -, heq⟩ | ⟨receipt, hop, hev, heq⟩
      · rw [heq] at h
        cases h
      · rw [heq] at h
        cases h
      · exact ⟨ops, op, [], receipt, rfl, hop, hev, heq⟩

/-- **A call that is not permitted raises, and the record is as before.** -/
theorem refused_or_legal (record : GapRecord) (op : Op) :
    Legal record op ∨ ∃ e, apply record op = .error e ∧ next record op = record := by
  cases h : apply record op with
  | ok record' => exact .inl (legal_iff.2 ⟨record', h⟩)
  | error e => exact .inr ⟨e, rfl, next_of_error h⟩

/-- A gap that is not open any more has an end, and it is not before the start. -/
def Closed (record : GapRecord) : Prop :=
  record.state ≠ .opened → ∃ ended, record.endedAt = some ended ∧ record.startedAt.Le ended

/-- Every end that an open gap is given and can take is one after its start. -/
def EndsAfterStart (record : GapRecord) (ops : List Op) : Prop :=
  ∀ before us after, ops = before ++ .closeGap (.aware us) :: after → (run record before).state = .opened →
    minUs ≤ us → us ≤ maxUs → record.startedAt.Le (.aware us)

theorem closed_next {record : GapRecord} {op : Op} (h : Closed record)
    (hop : ∀ us, op = .closeGap (.aware us) → record.state = .opened → minUs ≤ us → us ≤ maxUs →
      record.startedAt.Le (.aware us)) :
    Closed (next record op) := by
  rcases next_cases record op with hnext | hok
  · rwa [hnext]
  · rcases apply_cases hok with ⟨us, rfl, hopen, hmin, hmax, heq⟩ | ⟨-, hended, heq⟩ | ⟨receipt, -, hev, heq⟩ <;>
      rw [heq] <;>
      intro _
    · exact ⟨.aware us, rfl, hop us rfl hopen hmin hmax⟩
    · exact h (by simp [hended])
    · exact h hev.closed

theorem closed_run {record : GapRecord} (h0 : record.state = .opened) {ops : List Op} (h : EndsAfterStart record ops) :
    Closed (run record ops) := by
  induction ops using List.reverseRecOn with
  | nil => exact fun hne => absurd h0 hne
  | append_singleton ops op ih =>
    rw [run_concat]
    refine closed_next (ih fun before us after heq => h before us (after ++ [op]) (by simp [heq])) ?_
    rintro us rfl hopen hmin hmax
    rw [run_startedAt]
    exact h ops us [] rfl hopen hmin hmax

/-- What the states of a record promise about the calls it has been through. -/
structure Sound (record : GapRecord) (ops : List Op) : Prop where
  recovered : ∀ reached later, ops = reached ++ later → (run record reached).state = .recovered →
    ∃ before op after receipt, reached = before ++ op :: after ∧ op.Presents receipt ∧
    Evidence (run record before) receipt ∧
      run record reached = (run record before).recoveredBy receipt
  refused : ∀ before op after, ops = before ++ op :: after → ¬ Legal (run record before) op →
    ∃ e, apply (run record before) op = .error e ∧ run record (before ++ [op]) = run record before
  closed : ∀ reached later, ops = reached ++ later → Closed (run record reached)

/-- **A new gap's record keeps what its states promise exactly when it is given no end before its start.** -/
theorem sound_iff (id : String) (startedAt : Datetime) (requiredScope : GapScope) (reason : String) (ops : List Op) :
    Sound (.new id startedAt requiredScope reason) ops ↔
      EndsAfterStart (.new id startedAt requiredScope reason) ops := by
  constructor
  · intro h before us after heq hopen hmin hmax
    have hok : apply (run (.new id startedAt requiredScope reason) before) (.closeGap (.aware us)) = .ok _ :=
      closeGap_ok.2 ⟨hopen, .aware us, Datetime.toUtc_eq_ok.2 ⟨us, rfl, rfl, hmin, hmax⟩, rfl⟩
    have hclosed := h.closed (before ++ [.closeGap (.aware us)]) after (by simp [heq])
    rw [run_concat, next_of_ok hok] at hclosed
    obtain ⟨ended, hended, hle⟩ := hclosed (by simp)
    cases hended
    rwa [run_startedAt] at hle
  · intro h
    refine ⟨fun reached later heq => recovered_by_evidence _ (by simp [GapRecord.new]) reached,
      fun before op after _ hlegal => ?_,
      fun reached later heq => closed_run rfl fun before us after hreached => h before us (after ++ later)
        (by simp [heq, hreached])⟩
    rcases refused_or_legal (run (.new id startedAt requiredScope reason) before) op with hl | ⟨e, he, hn⟩
    · exact absurd hl hlegal
    · exact ⟨e, he, by rw [run_concat, hn]⟩

/-- The known incident, ended a second before it started. -/
theorem incident_ended_early : ¬ Sound knownIncident [.closeGap (.aware 1788844613000000)] := by
  intro h
  obtain ⟨ended, hended, hle⟩ := h.closed [.closeGap (.aware 1788844613000000)] [] rfl (by decide)
  obtain rfl : Datetime.aware 1788844613000000 = ended := Option.some.inj hended
  exact absurd hle (by decide)

end Gap

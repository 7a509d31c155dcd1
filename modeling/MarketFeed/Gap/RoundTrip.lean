import Mathlib.Data.List.Sort
import MarketFeed.Gap.Stored
import MarketFeed.Lib.Upsert
/-!
# What a saved gap is read back as (gap_repository.py:27-145, :405-501; gaps.py:262-267, :277-310)

The file repository keeps its records in memory and writes all of them at every save; the one that is opened
next reads the venues in upper case and everything else as it was. The table of the storage repository has no
column for the reason and none for the reconciliation: the reason is the seed's, or a fixed text, and the
reconciliation is what the verified receipt of the record says. A row keeps the start of its first save.

| here | there |
| --- | --- |
| `RecordDoc` | the dict of `_record_to_dict`; a time is the text of a UTC instant and here the instant |
| `byStart` | `sorted(…, key=lambda gap: gap.started_at)`: stable, and a mix of aware and naive datetimes raises |
| `FileRepo.file` | the list `records` of the file, `none` where there is no file |
| `Stored.Db.list` | `list()` over the ids of the rows, in the order of the query |
| `Reached`, `DbReached` | the repositories that opening and saving lead to |

An accepted record has times with a zone and in the range of `datetime`, as `_to_utc` asks of every time. A
venue that is not in upper case is stored with the hash of its spelling, and read with that of the other.
-/

namespace Gap.RoundTrip

open Keyed Gap.Stored

/-! ## The file repository -/

def GapState.value : GapState → String
  | .opened => "OPEN"
  | .endedUnrecovered => "ENDED_UNRECOVERED"
  | .backfilling => "BACKFILLING"
  | .recovered => "RECOVERED"

/-- `GapState(value)`. -/
def gapState (value : String) : Except Error GapState :=
  if value = "OPEN" then .ok .opened
  else if value = "ENDED_UNRECOVERED" then .ok .endedUnrecovered
  else if value = "BACKFILLING" then .ok .backfilling
  else if value = "RECOVERED" then .ok .recovered
  else .error (.valueError ("'" ++ value ++ "' is not a valid GapState"))

structure RecordDoc where
  id : String
  startedAt : Int
  endedAt : Option Int
  state : String
  requiredScope : GapScope
  reason : String
  backfillReceiptId : Option String
  recoveredAt : Option Int
  reconciliationResult : Option String
  deriving DecidableEq

def recordToDict (record : GapRecord) : Except Error RecordDoc := do
  let startedAt ← formatUtc record.startedAt
  let endedAt ← formatUtcOpt record.endedAt
  let recoveredAt ← formatUtcOpt record.recoveredAt
  return {
    id := record.id, startedAt, endedAt, state := GapState.value record.state, requiredScope := record.requiredScope,
      reason := record.reason,
    backfillReceiptId := record.backfillReceiptId, recoveredAt, reconciliationResult := record.reconciliationResult }

variable (upper : String → String)

def recordFromDict (raw : RecordDoc) : Except Error GapRecord := do
  let state ← gapState raw.state
  return {
    id := raw.id, startedAt := .aware raw.startedAt, endedAt := raw.endedAt.map .aware, state,
      requiredScope := scopeFromStored upper raw.requiredScope,
    reason := raw.reason, backfillReceiptId := raw.backfillReceiptId, recoveredAt := raw.recoveredAt.map .aware,
    reconciliationResult := raw.reconciliationResult }

def isAware : Datetime → Bool
  | .aware _ => true
  | .naive _ => false

/-- The reading of the clock. -/
def reading : Datetime → Int
  | .aware us => us
  | .naive us => us

def byStart (records : List GapRecord) : Except Error (List GapRecord) :=
  if records.all (fun x => isAware x.startedAt) ∨ records.all (fun x => !isAware x.startedAt) then
    .ok (records.insertionSort fun a b => reading a.startedAt ≤ reading b.startedAt)
  else .error (.typeError "can't compare offset-naive and offset-aware datetimes")

structure FileRepo where
  records : List GapRecord
  file : Option (List RecordDoc)

namespace FileRepo

/-- `FileGapRepository(path, seeds)`. -/
def opened (seeds : List GapRecord) (file : Option (List RecordDoc)) : Except Error FileRepo := do
  let loaded ← (file.getD []).mapM (recordFromDict upper)
  return ⟨dictOf GapRecord.id (seeds ++ loaded), file⟩

def list (r : FileRepo) : Except Error (List GapRecord) := byStart r.records

def get (r : FileRepo) (gapId : String) : Option GapRecord := lookup GapRecord.id gapId r.records

/-- What is written: the records in the order of `list`. -/
def docs (records : List GapRecord) : Except Error (List RecordDoc) := do (← byStart records).mapM recordToDict

/-- The record is in memory before the file is written. -/
def save (r : FileRepo) (record : GapRecord) : FileRepo × Option Error :=
  let records := upsert GapRecord.id (fun _ x => x) r.records record
  match docs records with
  | .error e => (⟨records, r.file⟩, some e)
  | .ok written => (⟨records, some written⟩, none)

end FileRepo

/-- A time with a zone, in the range of `datetime`. -/
def InRange (t : Datetime) : Prop := ∃ us, t = .aware us ∧ minUs ≤ us ∧ us ≤ maxUs

structure Accepted (record : GapRecord) : Prop where
  started : InRange record.startedAt
  ended : ∀ t, record.endedAt = some t → InRange t
  recovered : ∀ t, record.recoveredAt = some t → InRange t

/-- With its venues in upper case. -/
def folded (record : GapRecord) : GapRecord :=
  { record with requiredScope := scopeFromStored upper record.requiredScope }

/-! ## One record -/

theorem gapState_value (s : GapState) : gapState (GapState.value s) = .ok s := by cases s <;> rfl

theorem formatUtc_inRange {t : Datetime} (h : InRange t) : ∃ us, formatUtc t = .ok us ∧ t = .aware us := by
  obtain ⟨us, rfl, hrange⟩ := h
  exact ⟨us, if_pos hrange, rfl⟩

theorem formatUtcOpt_inRange {o : Option Datetime} (h : ∀ t, o = some t → InRange t) :
    ∃ us, formatUtcOpt o = .ok us ∧ us.map Datetime.aware = o := by
  cases o with
  | none => exact ⟨none, rfl, rfl⟩
  | some t =>
    obtain ⟨us, hus, rfl⟩ := formatUtc_inRange (h t rfl)
    exact ⟨some us, by rw [formatUtcOpt, hus]; rfl, rfl⟩

/-- A record is written and read back, its venues in upper case. -/
theorem record_doc {record : GapRecord} (h : Accepted record) :
    ∃ doc, recordToDict record = .ok doc ∧ recordFromDict upper doc = .ok (folded upper record) := by
  obtain ⟨startedAt, hs, hs'⟩ := formatUtc_inRange h.started
  obtain ⟨endedAt, he, he'⟩ := formatUtcOpt_inRange h.ended
  obtain ⟨recoveredAt, hr, hr'⟩ := formatUtcOpt_inRange h.recovered
  have hdoc : recordToDict record = .ok ⟨record.id, startedAt, endedAt, GapState.value record.state,
      record.requiredScope, record.reason,
      record.backfillReceiptId, recoveredAt, record.reconciliationResult⟩ := by
    simp only [recordToDict, hs, he, hr, bind, Except.bind, pure, Except.pure]
  refine ⟨_, hdoc, ?_⟩
  simp only [recordFromDict, gapState_value, bind, Except.bind, pure, Except.pure, he', hr', ← hs']
  rfl

theorem Accepted.folded {record : GapRecord} (h : Accepted record) : Accepted (folded upper record) :=
  ⟨h.started, h.ended, h.recovered⟩

/-! ## Many records -/

theorem mapM_ok {α β γ : Type} {f : α → Except Error β} {g : β → Except Error γ} {k : α → γ} {xs : List α}
    (h : ∀ x ∈ xs, ∃ y, f x = .ok y ∧ g y = .ok (k x)) : ∃ ys, xs.mapM f = .ok ys ∧ ys.mapM g = .ok (xs.map k) := by
  induction xs with
  | nil => exact ⟨[], rfl, rfl⟩
  | cons x xs ih =>
    obtain ⟨y, hf, hg⟩ := h x List.mem_cons_self
    obtain ⟨ys, hfs, hgs⟩ := ih fun z hz => h z (List.mem_cons_of_mem x hz)
    refine ⟨y :: ys, ?_, ?_⟩
    · simp [List.mapM_cons, hf, hfs, bind, Except.bind, pure, Except.pure]
    · simp [List.mapM_cons, hg, hgs, bind, Except.bind, pure, Except.pure]

theorem mapM_total {α β : Type} {f : α → Except Error β} {k : α → β} (h : ∀ x, f x = .ok (k x)) (xs : List α) :
    xs.mapM f = .ok (xs.map k) := by
  induction xs with
  | nil => rfl
  | cons x xs ih => simp [List.mapM_cons, h, ih, bind, Except.bind, pure, Except.pure]

theorem byStart_ok {records : List GapRecord} (h : ∀ x ∈ records, Accepted x) :
    ∃ sorted, byStart records = .ok sorted ∧ sorted.Perm records := by
  have haware : records.all (fun x => isAware x.startedAt) = true := by
    rw [List.all_eq_true]
    intro x hx
    obtain ⟨us, hus, -⟩ := (h x hx).started
    rw [hus]
    rfl
  exact ⟨_, if_pos (.inl haware), List.perm_insertionSort _ _⟩

/-- The file holds the records: read back they have their venues in upper case. -/
def Holds (written : List RecordDoc) (records : List GapRecord) : Prop :=
  written.mapM (recordFromDict upper) = .ok (records.map (folded upper))

/-- The records in a repository, and in its file, are accepted. -/
structure FileRepo.Sound (r : FileRepo) : Prop where
  accepted : ∀ x ∈ r.records, Accepted x
  nodup : (r.records.map GapRecord.id).Nodup
  file : ∀ docs, r.file = some docs → ∃ records, (∀ x ∈ records, Accepted x) ∧ Holds upper docs records

variable {upper}

theorem accepted_upsert {records : List GapRecord} {record : GapRecord} (h : ∀ x ∈ records, Accepted x)
    (ha : Accepted record) :
    ∀ x ∈ upsert GapRecord.id (fun _ x => x) records record, Accepted x := by
  intro x hx
  rcases mem_upsert hx with hx | rfl | ⟨_, -, rfl⟩
  · exact h x hx
  · exact ha
  · exact ha

/-- What a save writes is read back as the records, sorted, with their venues in upper case. -/
theorem docs_ok {records : List GapRecord} (h : ∀ x ∈ records, Accepted x) :
    ∃ written sorted, FileRepo.docs records = .ok written ∧ List.Perm sorted records ∧ Holds upper written sorted := by
  obtain ⟨sorted, hsorted, hperm⟩ := byStart_ok h
  obtain ⟨written, hwritten, hread⟩ := mapM_ok fun x hx => record_doc upper (h x (hperm.subset hx))
  exact ⟨written, sorted, by simp [FileRepo.docs, hsorted, hwritten, bind, Except.bind], hperm, hread⟩

theorem save_spec {r : FileRepo} (h : r.Sound upper) {record : GapRecord} (ha : Accepted record) :
    ∃ written sorted, r.save record = (⟨upsert GapRecord.id (fun _ x => x) r.records record, some written⟩, none) ∧
      List.Perm sorted (upsert GapRecord.id (fun _ x => x) r.records record) ∧ Holds upper written sorted := by
  obtain ⟨written, sorted, hdocs, hperm, hread⟩ := @docs_ok upper _ (accepted_upsert h.accepted ha)
  exact ⟨written, sorted, by simp [FileRepo.save, hdocs], hperm, hread⟩

theorem save_sound {r : FileRepo} (h : r.Sound upper) {record : GapRecord} (ha : Accepted record) :
    (r.save record).1.Sound upper := by
  obtain ⟨written, sorted, hsave, hperm, hread⟩ := save_spec h ha
  rw [hsave]
  have hall := accepted_upsert h.accepted ha
  refine ⟨hall, nodup_upsert h.nodup record, ?_⟩
  rintro docs ⟨⟩
  exact ⟨sorted, fun x hx => hall x (hperm.subset hx), hread⟩

/-- What the next repository reads: the seeds, and over them the records of the file. -/
theorem opened_ok {seeds : List GapRecord} {file : Option (List RecordDoc)} {records : List GapRecord}
    (hread : Holds upper (file.getD []) records) :
    FileRepo.opened upper seeds file = .ok ⟨dictOf GapRecord.id (seeds ++ records.map (folded upper)), file⟩ := by
  rw [Holds] at hread
  simp [FileRepo.opened, hread, bind, Except.bind, pure, Except.pure]

theorem opened_sound {seeds : List GapRecord} {file : Option (List RecordDoc)} (hs : ∀ x ∈ seeds, Accepted x)
    (hfile : ∀ docs, file = some docs → ∃ records, (∀ x ∈ records, Accepted x) ∧ Holds upper docs records) :
    ∃ r, FileRepo.opened upper seeds file = .ok r ∧ r.Sound upper := by
  obtain ⟨records, ha, hread⟩ : ∃ records, (∀ x ∈ records, Accepted x) ∧ Holds upper (file.getD []) records := by
    cases file with
    | none => exact ⟨[], by simp, rfl⟩
    | some docs => exact hfile docs rfl
  refine ⟨_, opened_ok hread, ?_, nodup_dictOf _, hfile⟩
  intro x hx
  have hlook := lookup_key_of_nodup (nodup_dictOf _) hx
  rw [lookup_dictOf] at hlook
  rcases List.mem_append.1 (List.mem_reverse.1 (mem_of_lookup hlook)) with hmem | hmem
  · exact hs x hmem
  · obtain ⟨y, hy, rfl⟩ := List.mem_map.1 hmem
    exact (ha y hy).folded upper

/-- The repositories that opening, saving and opening again lead to. -/
inductive Reached (upper : String → String) : FileRepo → Prop
  | new {seeds : List GapRecord} {r : FileRepo} : (∀ x ∈ seeds, Accepted x) →
      FileRepo.opened upper seeds none = .ok r → Reached upper r
  | again {seeds : List GapRecord} {r r' : FileRepo} : (∀ x ∈ seeds, Accepted x) → Reached upper r →
    FileRepo.opened upper seeds r.file = .ok r' → Reached upper r'
  | saved {r : FileRepo} {record : GapRecord} : Reached upper r → Accepted record → Reached upper (r.save record).1

theorem Reached.sound {r : FileRepo} (h : Reached upper r) : r.Sound upper := by
  induction h with
  | new hs hopen =>
    obtain ⟨r', hr', hsound⟩ := @opened_sound upper _ none hs (by simp)
    rw [hopen] at hr'
    cases hr'
    exact hsound
  | again hs _ hopen ih =>
    obtain ⟨r', hr', hsound⟩ := opened_sound hs ih.file
    rw [hopen] at hr'
    cases hr'
    exact hsound
  | saved _ ha ih => exact save_sound ih ha

theorem list_ok {r : FileRepo} (h : r.Sound upper) : ∃ l, r.list = .ok l ∧ l.Perm r.records := byStart_ok h.accepted

/-- What the record is read back as, in the repository itself and in one that is opened from its file. -/
structure FileRoundTrip (upper : String → String) (r : FileRepo) (record : GapRecord) : Prop where
  saves : (r.save record).2 = none
  gets : (r.save record).1.get record.id = some record
  lists : ∃ l, (r.save record).1.list = .ok l ∧ record ∈ l
  others : ∀ id, id ≠ record.id → (r.save record).1.get id = r.get id
  opens : ∀ seeds : List GapRecord, (∀ x ∈ seeds, Accepted x) →
    ∃ r', FileRepo.opened upper seeds (r.save record).1.file = .ok r' ∧
    r'.get record.id = some (folded upper record) ∧ ∃ l, r'.list = .ok l ∧ folded upper record ∈ l

theorem file_round_trip {r : FileRepo} (h : r.Sound upper) {record : GapRecord} (ha : Accepted record) :
    FileRoundTrip upper r record := by
  have hsound := save_sound h ha
  obtain ⟨written, sorted, hsave, hperm, hread⟩ := save_spec h ha
  have hget (id : String) : (r.save record).1.get id = if record.id = id then some record else r.get id := by
    rw [hsave]
    exact lookup_replace r.records record id
  have hmem : record ∈ (r.save record).1.records := by
    rw [hsave]
    exact mem_replace_self r.records record
  obtain ⟨l, hlist, hlperm⟩ := list_ok hsound
  refine ⟨by rw [hsave], by rw [hget, if_pos rfl], ⟨l, hlist, hlperm.mem_iff.2 hmem⟩,
    fun id hid => by rw [hget, if_neg hid.symm], ?_⟩
  intro seeds hs
  obtain ⟨r', hopen, hsound'⟩ := opened_sound hs hsound.file
  have hopen' : FileRepo.opened upper seeds (r.save record).1.file =
      .ok ⟨dictOf GapRecord.id (seeds ++ sorted.map (folded upper)), (r.save record).1.file⟩ := opened_ok
        (by rw [hsave]; exact hread)
  have hr' : r'.get record.id = some (folded upper record) := by
    rw [hopen] at hopen'
    cases hopen'
    have hids : ((sorted.map (folded upper)).map GapRecord.id).Nodup := by
      rw [List.map_map]
      exact (hperm.map GapRecord.id).nodup_iff.2 (nodup_upsert h.nodup record)
    have hin : folded upper record ∈ sorted.map (folded upper) :=
      List.mem_map_of_mem (hperm.mem_iff.2 (mem_replace_self r.records record))
    exact lookup_dictOf_append hids hin
  obtain ⟨l', hlist', hlperm'⟩ := list_ok hsound'
  exact ⟨r', hopen, hr', l', hlist', hlperm'.mem_iff.2 (mem_of_lookup hr')⟩

/-! ## The storage repository -/

/-- Its venues are in upper case. -/
def UpperVenues (upper : String → String) (scope : GapScope) : Prop := ∀ v ∈ scope.venues, upper v = v

theorem scopeFromStored_upper {scope : GapScope} (h : UpperVenues upper scope) :
    scopeFromStored upper scope = scope := by
  have hv : scope.venues.map upper = scope.venues := by
    conv_rhs => rw [← List.map_id scope.venues]
    exact List.map_congr_left h
  rw [scopeFromStored, hv]

theorem folded_upper {record : GapRecord} (h : UpperVenues upper record.requiredScope) :
    folded upper record = record := by
  rw [folded, scopeFromStored_upper h]

section Storage

variable {D : Type} [DecidableEq D]

/-- `StorageGapRepository.list`, where these are the ids of the rows in their order. -/
def listRows (upper : String → String) (h : Hashes D) (seeds : String → Option GapRecord) (db : Db D)
    (ids : List String) :
    Except Error (List (Option GapRecord)) := ids.mapM (db.get upper h seeds)

/-- The databases that saves and seeds with venues in upper case lead to, whatever is recorded beside the gaps. -/
inductive DbReached (upper : String → String) (h : Hashes D) : Db D → Prop
  | new {db : Db D} : (∀ id, db.gaps id = none) → DbReached upper h db
  | saved {db db' : Db D} {record : GapRecord} : DbReached upper h db → UpperVenues upper record.requiredScope →
    db.save h record = .ok db' → DbReached upper h db'
  | seeded {db db' : Db D} {record : GapRecord} : DbReached upper h db → UpperVenues upper record.requiredScope →
    db.insertSeed h record = .ok db' → DbReached upper h db'
  | other {db db' : Db D} : DbReached upper h db → db'.gaps = db.gaps → DbReached upper h db'

/-- Every row has the hash of its scope, and the scope is read as it is stored. -/
def Readable (upper : String → String) (h : Hashes D) (db : Db D) : Prop :=
  ∀ id row, db.gaps id = some row → row.requiredScopeHash = h.scope row.requiredScope ∧
    UpperVenues upper row.requiredScope

variable {h : Hashes D} {seeds : String → Option GapRecord}

omit [DecidableEq D] in
theorem recordParams_accepted {record : GapRecord} (ha : Accepted record) : ∃ row :
    GapRow D, recordParams h record = .ok row ∧
    record.startedAt = .aware row.startedAt ∧ row.endedAt.map .aware = record.endedAt ∧
    row.recoveredAt.map .aware = record.recoveredAt ∧
    row.state = record.state ∧ row.requiredScopeHash = h.scope record.requiredScope ∧
    row.requiredScope = record.requiredScope ∧
    row.backfillReceiptId = record.backfillReceiptId := by
  obtain ⟨startedAt, hs, hs'⟩ := formatUtc_inRange ha.started
  obtain ⟨endedAt, he, he'⟩ := formatUtcOpt_inRange ha.ended
  obtain ⟨recoveredAt, hr, hr'⟩ := formatUtcOpt_inRange ha.recovered
  refine ⟨⟨record.state, startedAt, endedAt, recoveredAt, h.scope record.requiredScope, record.requiredScope,
    record.backfillReceiptId⟩, ?_,
    hs', he', hr', rfl, rfl, rfl, rfl⟩
  simp only [recordParams, hs, he, hr, bind, Except.bind, pure, Except.pure]

omit [DecidableEq D] in
theorem recordParams_scope {record : GapRecord} {row : GapRow D} (hok : recordParams h record = .ok row) :
    row.requiredScopeHash = h.scope row.requiredScope ∧ row.requiredScope = record.requiredScope := by
  unfold recordParams at hok
  obtain ⟨_, -, hok⟩ := bind_eq_ok.1 hok
  obtain ⟨_, -, hok⟩ := bind_eq_ok.1 hok
  obtain ⟨_, -, hok⟩ := bind_eq_ok.1 hok
  cases hok
  exact ⟨rfl, rfl⟩

omit [DecidableEq D] in
theorem readable_update {db : Db D} (hdb : Readable upper h db) {id : String} {row : GapRow D}
    (hrow : row.requiredScopeHash = h.scope row.requiredScope ∧ UpperVenues upper row.requiredScope) :
    Readable upper h { db with gaps := Function.update db.gaps id (some row) } := by
  intro id' row' hid
  by_cases heq : id' = id
  · subst heq
    simp only [Function.update_self] at hid
    cases hid
    exact hrow
  · simp only [Function.update_of_ne heq] at hid
    exact hdb id' row' hid

omit [DecidableEq D] in
theorem DbReached.readable {db : Db D} (hdb : DbReached upper h db) : Readable upper h db := by
  induction hdb with
  | new hnone =>
    intro id row hrow
    rw [hnone] at hrow
    cases hrow
  | @saved db db' record _ hv hsave ih =>
    unfold Db.save at hsave
    obtain ⟨row, hrow, hsave⟩ := bind_eq_ok.1 hsave
    obtain ⟨hhash, hscope⟩ := recordParams_scope hrow
    cases hsave
    refine readable_update ih ?_
    cases hold : db.gaps record.id <;> exact ⟨hhash, hscope ▸ hv⟩
  | @seeded db db' record _ hv hseed ih =>
    unfold Db.insertSeed at hseed
    obtain ⟨row, hrow, hseed⟩ := bind_eq_ok.1 hseed
    obtain ⟨hhash, hscope⟩ := recordParams_scope hrow
    split at hseed
    · cases hseed
      exact ih
    · cases hseed
      exact readable_update ih ⟨hhash, hscope ▸ hv⟩
  | other _ hgaps ih =>
    intro id row hrow
    rw [hgaps] at hrow
    exact ih id row hrow

/-- The row `id` of a readable database. -/
theorem get_readable {db : Db D} (hdb : Readable upper h db) (id : String) :
    db.get upper h seeds id = .ok ((db.gaps id).map fun row =>
    ⟨id, .aware row.startedAt, row.endedAt.map .aware, row.state, row.requiredScope,
      (seeds id).elim "stored data gap requires verified backfill" (·.reason), row.backfillReceiptId,
        row.recoveredAt.map .aware,
      db.reconciliationResult row.backfillReceiptId⟩) := by
  unfold Db.get
  cases hrow : db.gaps id with
  | none => rfl
  | some row =>
    obtain ⟨hhash, hv⟩ := hdb id row hrow
    simp [scopeFromStored_upper hv, hhash, refuse, bind, Except.bind, pure, Except.pure]

/-- What is read back of a record that is saved over `db`. -/
def restored (seeds : String → Option GapRecord) (db : Db D) (record : GapRecord) : GapRecord :=
  { record with
    startedAt := ((db.gaps record.id).map fun row => Datetime.aware row.startedAt).getD record.startedAt
    reason := (seeds record.id).elim "stored data gap requires verified backfill" (·.reason)
    reconciliationResult := db.reconciliationResult record.backfillReceiptId }

def StorageRoundTrip (upper : String → String) (h : Hashes D) (seeds : String → Option GapRecord) (db : Db D)
    (record : GapRecord) : Prop :=
  ∃ db', db.save h record = .ok db' ∧ db'.get upper h seeds record.id = .ok (some (restored seeds db record)) ∧
    ∀ ids, ∃ l, listRows upper h seeds db' ids = .ok l ∧ (record.id ∈ ids → some (restored seeds db record) ∈ l)

theorem storage_round_trip {db : Db D} (hdb : DbReached upper h db) {record : GapRecord} (ha : Accepted record)
    (hv : UpperVenues upper record.requiredScope) : StorageRoundTrip upper h seeds db record := by
  obtain ⟨row, hrow, hstart, hend, hrec, hstate, hhash, hscope, hreceipt⟩ := @recordParams_accepted D h record ha
  obtain ⟨row', hsave, hstart', hend', hrec', hstate', hscope', hreceipt'⟩ : ∃ row' : GapRow D,
      db.save h record = .ok { db with gaps := Function.update db.gaps record.id (some row') } ∧
      Datetime.aware row'.startedAt = ((db.gaps record.id).map fun old => Datetime.aware old.startedAt).getD
        record.startedAt ∧
      row'.endedAt = row.endedAt ∧ row'.recoveredAt = row.recoveredAt ∧ row'.state = row.state ∧
      row'.requiredScope = row.requiredScope ∧
      row'.backfillReceiptId = row.backfillReceiptId := by
    cases hold : db.gaps record.id with
    | none => exact ⟨row, by simp [Db.save, hrow, hold, bind, Except.bind, pure, Except.pure], hstart.symm, rfl, rfl,
        rfl, rfl, rfl⟩
    | some old =>
      exact ⟨{ row with startedAt := old.startedAt }, by simp [Db.save, hrow, hold, bind, Except.bind, pure,
        Except.pure], rfl, rfl, rfl, rfl, rfl, rfl⟩
  have hreadable := (DbReached.saved hdb hv hsave).readable
  have hget := @get_readable upper D _ h seeds _ hreadable record.id
  have hvalue : ({ db with gaps := Function.update db.gaps record.id (some row') } : Db D).get upper h seeds record.id =
      .ok (some (restored seeds db record)) := by
    rw [hget]
    simp only [Function.update_self, Option.map_some, restored, Except.ok.injEq, Option.some.injEq, GapRecord.mk.injEq]
    rw [hend', hrec', hstate', hscope', hreceipt', hend, hrec, hstate, hscope, hreceipt]
    exact ⟨trivial, hstart', rfl, rfl, rfl, trivial, rfl, rfl, rfl⟩
  refine ⟨_, hsave, hvalue, fun ids => ⟨_, mapM_total (get_readable hreadable) ids, fun hid => ?_⟩⟩
  exact List.mem_map.2 ⟨record.id, hid, Except.ok.inj (hget.symm.trans hvalue)⟩

end Storage

def sampleGap : GapRecord :=
  .new "gap-1" (.aware 1788844614000000) ⟨["UPBIT"], ["KRW-BTC"], ["trades"]⟩ "collector stopped"

/-- Hashes that do not collide on scopes. -/
def scopeHashes : Hashes GapScope := ⟨id, fun c => ⟨[c.coverageId], [], []⟩, fun r => ⟨[r.receiptId], [], []⟩⟩

theorem sampleGap_accepted : Accepted sampleGap :=
  ⟨⟨_, rfl, by decide, by decide⟩, by simp [sampleGap, GapRecord.new], by simp [sampleGap, GapRecord.new]⟩

/-- The same gap, with another start and what a backfill is said to have come to. -/
def laterGap : GapRecord := { sampleGap with startedAt := .aware 1788844615000000, reconciliationResult := some "complete" }

end Gap.RoundTrip

import Mathlib.Data.Multiset.Basic
import Mathlib.Logic.Function.Basic
import MarketFeed.Lib.Binary64
/-!
# Pruning the raw tables (retention.py:178-193, :288-320, :344-504, db.py:518-524)

`prune` goes through the raw tables one after another and deletes old rows batch by batch. With a
directory of remote receipts every batch is bound to the oldest day stored in either table, whose rows
must be the ones the receipt was given for, or what an earlier batch has left of them.

| here | there |
| --- | --- |
| `Store` | the two raw tables, each a bag of rows |
| `dayOf` | `fromtimestamp(v / 1e6)` and its date, which goes through a float: the same day until 2255-06-05 (`floatDay_eq`) |
| `Receipts` | what `_remote_verified_receipts` reads from the directory, per table |
| `Progress` | the `.retention-progress-…` files `_read_progress` accepts |
| `Env.digest` | SHA-256 of the day's CSV, whose rows are ordered by all their columns |
| `Env.scan` | the order in which the subquery of `delete_older_than` meets the rows; it has no `ORDER BY` |
| `Config.cutoffUs`, `Config.enabled` | `_cutoff_us(retention_days, now_us)`, `0 < retention_days` |
| the argument `late` of `prune` | does the clock exceed `budget_s` when it is looked at before batch `k` |
-/

namespace Retention

inductive Table | trades | bookTop
  deriving DecidableEq

/-- `PRUNE_TABLES`. -/
def pruneTables : List Table := [.trades, .bookTop]

/-- `DELETE_BATCH`. -/
def deleteBatch : Nat := 50000

/-- A row: its time and the other columns. -/
structure Row where
  ts : Int
  rest : String
  deriving DecidableEq

abbrev Store := Table → List Row

/-! ## Days -/

def dayUs : Int := 86400000000

/-- The days since the epoch. -/
def dayOf (ts : Int) : Int := ts / dayUs

/-- The day as it is computed: `v / 1e6`, and the date of `fromtimestamp`. -/
def floatDay (v : Int) : Int := Double.fromtimestamp (Double.binary64 (Double.binary64 v / 10 ^ 6)) / dayUs

/-- Between the first second of the day and the first of the next one nothing is rounded into another day. -/
theorem floatDay_eq {v : Int} (h : |v| < 2 ^ 53) : floatDay v = dayOf v := by
  have hlow : v / dayUs * 86400 * 10 ^ 6 ≤ v := by
    unfold dayUs
    omega
  have hhigh : v ≤ (v / dayUs + 1) * 86400 * 10 ^ 6 - 1 := by
    unfold dayUs
    omega
  obtain ⟨hneg, hpos⟩ := abs_lt.1 h
  have hlow' : ((v / dayUs * 86400 : ℤ) : ℚ) * 10 ^ 6 ≤ v := by exact_mod_cast hlow
  have hhigh' : (v : ℚ) ≤ (((v / dayUs + 1) * 86400 : ℤ) : ℚ) * 10 ^ 6 - 1 := by exact_mod_cast hhigh
  have hneg' : -(2 ^ 53 : ℚ) < v := by exact_mod_cast hneg
  have hpos' : (v : ℚ) < 2 ^ 53 := by exact_mod_cast hpos
  have hrange : |(v : ℚ) / 10 ^ 6| < 2 ^ 34 := by
    rw [abs_lt]
    constructor <;> linarith
  have hfirst := Double.le_binary64 (hrange.trans (by norm_num))
    (show ((v / dayUs * 86400 : ℤ) : ℚ) ≤ v / 10 ^ 6 by linarith)
  have hlast := Double.binary64_below hrange (show (v : ℚ) / 10 ^ 6 ≤ (((v / dayUs + 1) * 86400 : ℤ) : ℚ) - 1 / 10 ^
    6 by linarith)
  obtain ⟨hbelow, habove⟩ := abs_lt.1 (Double.fromtimestamp_near (Double.binary64 (v / 10 ^ 6)))
  rw [floatDay, dayOf, Double.binary64_intCast h]
  generalize Double.fromtimestamp (Double.binary64 (v / 10 ^ 6)) = s at hbelow habove
  have hs : v / dayUs * 86400 * 10 ^ 6 - 1 < s := by
    have : ((v / dayUs * 86400 : ℤ) : ℚ) * 10 ^ 6 - 1 < s := by linarith
    exact_mod_cast this
  have hs' : s < (v / dayUs + 1) * 86400 * 10 ^ 6 := by
    have : (s : ℚ) < (((v / dayUs + 1) * 86400 : ℤ) : ℚ) * 10 ^ 6 := by linarith
    exact_mod_cast this
  unfold dayUs at hs hs' ⊢
  omega

/-- `_day_start_us`. -/
def dayStartUs (d : Int) : Int := d * dayUs

/-- `_source_floor_day`: the day of the oldest row of either table. -/
def Store.floorDay (s : Store) : Option Int :=
  (pruneTables.filterMap fun t => (((s t).map (·.ts)).min?).map dayOf).min?

/-! ## Receipts and progress -/

/-- The row count and content digest of a day of a table. -/
structure DayProof where
  rows : Nat
  sha : String
  deriving DecidableEq

abbrev Receipts := Table → List (Int × DayProof)

/-- `receipts[day]`: of two files for a day the one read last. -/
def Receipts.get (r : Receipts) (t : Table) (d : Int) : Option DayProof := ((r t).reverse.find? (·.1 == d)).map (·.2)

abbrev Progress := Table → Int → Option DayProof

structure Env where
  digest : Table → Multiset Row → String
  scan : Table → List Row → List Row
  scan_perm : ∀ t rows, (scan t rows).Perm rows

/-- The tables and the progress files. -/
structure Disk where
  store : Store
  progress : Progress

inductive Reason
  | noSourceRows | missingRemoteCoverage | sourceDayChanged | sourceFloorChanged
  deriving DecidableEq

/-- `_source_day_proof`. -/
def Env.dayProof (env : Env) (s : Store) (t : Table) (d : Int) : DayProof :=
  let rows := (s t).filter fun x => decide (dayStartUs d ≤ x.ts ∧ x.ts < dayStartUs d + dayUs)
  ⟨rows.length, env.digest t rows⟩

/-- `_source_matches_receipt`: the progress decides where there is any. -/
def Env.unchanged (env : Env) (disk : Disk) (t : Table) (d : Int) (receipt : DayProof) : Bool :=
  match disk.progress t d with
  | some left => decide (left = env.dayProof disk.store t d)
  | none => decide (receipt = env.dayProof disk.store t d)

/-- The days with receipts of both tables, from `day` on: the first one without (retention.py:388-395). The
fuel is more than the receipts there are. -/
def Env.walk (env : Env) (r : Receipts) (disk : Disk) : Nat → Int → Except Reason Int
  | 0, day => .ok day
  | fuel + 1, day =>
    match r.get .trades day, r.get .bookTop day with
    | some a, some b =>
      if env.unchanged disk .trades day a && env.unchanged disk .bookTop day b then env.walk r disk fuel (day + 1)
      else .error .sourceDayChanged
    | _, _ => .ok day

/-- `retention_cutoff` (retention.py:379-395). -/
def Env.retentionCutoff (env : Env) (r : Receipts) (disk : Disk) : Except Reason Int :=
  match disk.store.floorDay with
  | none => .error .noSourceRows
  | some floor =>
    if (r.get .trades floor).isSome && (r.get .bookTop floor).isSome then
      (env.walk r disk ((r .trades).length + 1) floor).map dayStartUs
    else .error .missingRemoteCoverage

/-- `delete_older_than`: how many rows go, and the rows left. -/
def Env.deleteOlderThan (env : Env) (t : Table) (rows : List Row) (cutoff : Int) (limit : Nat) : Nat × List Row :=
  let old := (env.scan t rows).filter fun x => decide (x.ts < cutoff)
  ((old.take limit).length, (rows.filter fun x => !decide (x.ts < cutoff)) ++ old.drop limit)

/-! ## `prune` -/

structure Config where
  enabled : Bool
  cutoffUs : Int
  floorUs : Option Int
  receipts : Option Receipts
  allowLocalArchiveFloor : Bool

/-- `cutoff`, bounded by the floor (retention.py:441-453). -/
def Config.cutoff (c : Config) : Int :=
  match c.floorUs with
  | none => c.cutoffUs
  | some f => min c.cutoffUs f

structure PruneResult where
  deleted : List (Table × Nat)
  batches : Nat
  budgetHit : Bool
  blockedReason : Option Reason
  deriving DecidableEq

/-- One turn of the loop, under the lock (retention.py:466-489). -/
inductive Turn
  | blocked (reason : Reason)
  /-- `no_source_rows` after an earlier table had rows. -/
  | exhausted
  | got (n : Nat) (disk : Disk)

/-- The reason given for a cutoff that is not allowed (retention.py:475-479). -/
def Config.reason (c : Config) (s : Store) (reason : Reason) : Reason :=
  match c.floorUs, s.floorDay with
  | some f, some current =>
    if reason = .missingRemoteCoverage ∧ dayStartUs current < f then .sourceFloorChanged else reason
  | _, _ => reason

def Disk.set (disk : Disk) (t : Table) (rows : List Row) : Disk :=
  { disk with store := Function.update disk.store t rows }

/-- `_write_progress` of the day as it is now. -/
def Env.writeProgress (env : Env) (disk : Disk) (t : Table) (d : Int) : Disk :=
  let left := Function.update (disk.progress t) d (some (env.dayProof disk.store t d))
  { disk with progress := Function.update disk.progress t left }

def Env.turn (env : Env) (c : Config) (deleted : List (Table × Nat)) (t : Table) (disk : Disk) : Turn :=
  match c.receipts with
  | none =>
    let del := env.deleteOlderThan t (disk.store t) c.cutoff deleteBatch
    .got del.1 (disk.set t del.2)
  | some r =>
    match env.retentionCutoff r disk with
    | .error reason =>
      if c.reason disk.store reason = .noSourceRows ∧ deleted ≠ [] then .exhausted
      else .blocked (c.reason disk.store reason)
    | .ok remote =>
      match disk.store.floorDay with
      | none =>
        let del := env.deleteOlderThan t (disk.store t) (min c.cutoff remote) deleteBatch
        .got del.1 (disk.set t del.2)
      | some day =>
        let del := env.deleteOlderThan t (disk.store t) (min (min c.cutoff remote) (dayStartUs day + dayUs)) deleteBatch
        .got del.1 (if 0 < del.1 then env.writeProgress (disk.set t del.2) t day else disk.set t del.2)

/-- How the loop over one table ends. -/
inductive Ending
  | done
  | budget
  | blocked (reason : Reason)
  deriving DecidableEq

/-- Where the loop over a table is: its rows deleted so far, and all batches. -/
structure Pass where
  disk : Disk
  n : Nat
  batches : Nat

/-- `while True` (retention.py:460-494); every turn but the last deletes a row, so more fuel than rows is enough. -/
def Env.tableLoop (env : Env) (late : Nat → Bool) (c : Config) (deleted : List (Table × Nat)) (t : Table) :
    Nat → Pass → Option (Ending × Pass)
  | 0, _ => none
  | fuel + 1, p =>
    if late p.batches then some (.budget, p)
    else
      match env.turn c deleted t p.disk with
      | .blocked reason => some (.blocked reason, p)
      | .exhausted => some (.done, p)
      | .got got disk =>
        if got = 0 then some (.done, ⟨disk, p.n, p.batches + 1⟩)
        else if got < deleteBatch then some (.done, ⟨disk, p.n + got, p.batches + 1⟩)
        else env.tableLoop late c deleted t fuel ⟨disk, p.n + got, p.batches + 1⟩

/-- `for table, col in PRUNE_TABLES`. -/
def Env.tables (env : Env) (late : Nat → Bool) (c : Config) :
    List Table → List (Table × Nat) → Nat → Disk → Option (PruneResult × Disk)
  | [], deleted, batches, disk => some (⟨deleted, batches, false, none⟩, disk)
  | t :: ts, deleted, batches, disk =>
    (env.tableLoop late c deleted t ((disk.store t).length + 1) ⟨disk, 0, batches⟩).bind fun (ending, p) =>
      let deleted' := if p.n = 0 then deleted else deleted ++ [(t, p.n)]
      match ending with
      | .blocked reason => some (⟨deleted, p.batches, false, some reason⟩, p.disk)
      | .budget => some (⟨deleted', p.batches, true, none⟩, p.disk)
      | .done => env.tables late c ts deleted' p.batches p.disk

/-- A result that deleted nothing. -/
def PruneResult.nothing (blockedReason : Option Reason) : PruneResult := ⟨[], 0, false, blockedReason⟩

/-- `prune` (retention.py:403-504). -/
def Env.prune (env : Env) (late : Nat → Bool) (c : Config) (disk : Disk) : Option (PruneResult × Disk) :=
  if c.enabled = false then some (.nothing none, disk)
  else
    match c.floorUs, c.receipts with
    | some f, none =>
      if c.allowLocalArchiveFloor = false then some (.nothing (some .missingRemoteCoverage), disk)
      else if f ≤ 0 then some (.nothing none, disk)
      else env.tables late c pruneTables [] 0 disk
    | some f, some _ =>
      if f ≤ 0 then some (.nothing (some .missingRemoteCoverage), disk) else env.tables late c pruneTables [] 0 disk
    | none, _ => env.tables late c pruneTables [] 0 disk

end Retention

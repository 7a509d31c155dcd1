import Mathlib.Data.Multiset.AddSub
import MarketFeed.Lib.Run
import MarketFeed.Retention.Backlog
import MarketFeed.Retention.Receipts
/-!
# Prune as a process (retention.py:403-504)

`prune` lets go of its lock between two batches, and there the writer inserts. An exception in a turn ends
the loop over the table, a crash the pass; both can fall before the batch is committed or between that and
the `os.replace` of its progress. The state is what lies on disk and the locals of the pass that runs.

| here | there |
| --- | --- |
| `Label.insert` | a transaction of the writer |
| `Label.call` | `prune` up to its first turn |
| `Label.turn` | one turn of `while True`: the files in the receipt directory, whether `budget_s` is used up, how it ends |
| `Cut.between` | also an exception of `_source_day_proof` or of any step of `_write_progress` |
| `Label.crash` | the process dies between two turns |
-/

namespace Retention

/-- The arguments of `prune`: `enabled` and `cutoffUs` are `0 < retention_days` and `_cutoff_us(..)`. -/
structure Args where
  enabled : Bool
  cutoffUs : Int
  floorUs : Option Int
  remoteReceiptDir : Bool
  allowLocalArchiveFloor : Bool

def Args.config (a : Args) (r : Receipts) : Config :=
  ⟨a.enabled, a.cutoffUs, a.floorUs, if a.remoteReceiptDir then some r else none, a.allowLocalArchiveFloor⟩

/-- The returns before the first turn (retention.py:425-443). -/
def Args.refused (a : Args) : Option PruneResult :=
  if a.enabled = false then some (.nothing none)
  else
    match a.floorUs, a.remoteReceiptDir with
    | some f, false =>
      if a.allowLocalArchiveFloor = false then some (.nothing (some .missingRemoteCoverage))
      else if f ≤ 0 then some (.nothing none)
      else none
    | some f, true => if f ≤ 0 then some (.nothing (some .missingRemoteCoverage)) else none
    | none, _ => none

/-- The locals of a pass: the table its loop is over and the ones after it, `n`, `deleted`, `batches`. -/
structure Locals where
  args : Args
  table : Table
  rest : List Table
  n : Nat
  deleted : List (Table × Nat)
  batches : Nat

structure State where
  disk : Disk
  pass : Option Locals
  /-- What the last pass returned. -/
  result : Option PruneResult

def State.init (disk : Disk) : State := ⟨disk, none, none⟩

inductive Cut | before | between
  deriving DecidableEq

inductive Fate
  | completes
  | raises (cut : Cut)
  | crashes (cut : Cut)
  deriving DecidableEq

def Fate.cut : Fate → Option Cut
  | .completes => none
  | .raises cut | .crashes cut => some cut

inductive Label
  | insert (t : Table) (rows : List Row)
  | call (a : Args)
  | turn (files : List File) (late : Bool) (fate : Fate)
  | crash

/-- `if n: deleted[table] = n`. -/
def Locals.tally (k : Locals) : List (Table × Nat) := if k.n = 0 then k.deleted else k.deleted ++ [(k.table, k.n)]

/-- The loop over the table ends: the next table, or the end of the pass. -/
def State.leave (s : State) (k : Locals) (disk : Disk) : State :=
  match k.rest with
  | [] => ⟨disk, none, some ⟨k.tally, k.batches, false, none⟩⟩
  | t :: rest => { s with disk := disk, pass := some ⟨k.args, t, rest, 0, k.tally, k.batches⟩ }

/-- What a turn that is cut leaves on disk: nothing new, or the batch without its progress. -/
def Env.cutTurn (env : Env) (c : Config) (deleted : List (Table × Nat)) (t : Table) (disk : Disk) : Cut → Disk
  | .before => disk
  | .between =>
    match env.turn c deleted t disk with
    | .got _ disk' => { disk with store := disk'.store }
    | .blocked _ | .exhausted => disk

/-- One turn of the loop (retention.py:460-494), with the receipts there are now. -/
def turnStep (env : Env) (s : State) (k : Locals) (c : Config) (late : Bool) (fate : Fate) : State :=
  if late then { s with pass := none, result := some ⟨k.tally, k.batches, true, none⟩ }
  else
    match fate with
    | .crashes cut => { s with disk := env.cutTurn c k.deleted k.table s.disk cut, pass := none }
    | .raises cut => s.leave k (env.cutTurn c k.deleted k.table s.disk cut)
    | .completes =>
      match env.turn c k.deleted k.table s.disk with
      | .blocked reason => { s with pass := none, result := some ⟨k.deleted, k.batches, false, some reason⟩ }
      | .exhausted => s.leave k s.disk
      | .got got disk =>
        let k' := { k with n := k.n + got, batches := k.batches + 1 }
        if got < deleteBatch then s.leave k' disk else { s with disk := disk, pass := some k' }

section

variable (env : Env) (fromisoformat : String → Option Int)

def Locals.config (k : Locals) (files : List File) : Config :=
  k.args.config (remoteVerifiedReceipts fromisoformat files)

def step (s : State) : Label → Option State
  | .insert t rows => some { s with disk := s.disk.set t (s.disk.store t ++ rows) }
  | .call a =>
    match s.pass with
    | some _ => none
    | none =>
      match a.refused with
      | some res => some { s with result := some res }
      | none => some { s with pass := some ⟨a, .trades, [.bookTop], 0, [], 0⟩ }
  | .turn files late fate => s.pass.map fun k => turnStep env s k (k.config fromisoformat files) late fate
  | .crash => some { s with pass := none }

end

/-! ## What a step does -/

variable {env : Env} {fromisoformat : String → Option Int}

@[simp] theorem leave_disk (s : State) (k : Locals) (disk : Disk) : (s.leave k disk).disk = disk := by
  unfold State.leave
  split <;> rfl

/-- A turn leaves the disk as it is, or does its batch, or does its batch and is cut before the progress. -/
theorem turnStep_disk (s : State) (k : Locals) (c : Config) (late : Bool) (fate : Fate) :
    (turnStep env s k c late fate).disk = s.disk ∨
      ∃ n disk', env.turn c k.deleted k.table s.disk = .got n disk' ∧
        ((turnStep env s k c late fate).disk = disk' ∨
          fate.cut = some .between ∧ (turnStep env s k c late fate).disk = { s.disk with store := disk'.store }) := by
  have hcut : ∀ cut, env.cutTurn c k.deleted k.table s.disk cut = s.disk ∨
      ∃ n disk', env.turn c k.deleted k.table s.disk = .got n disk' ∧ cut = .between ∧
        env.cutTurn c k.deleted k.table s.disk cut = { s.disk with store := disk'.store } := by
    intro cut
    cases cut with
    | before => exact .inl rfl
    | between =>
      unfold Env.cutTurn
      cases hturn : env.turn c k.deleted k.table s.disk with
      | blocked | exhausted => exact .inl rfl
      | got n disk' => exact .inr ⟨n, disk', rfl, rfl, rfl⟩
  unfold turnStep
  split
  · exact .inl rfl
  · cases fate with
    | crashes cut =>
      obtain h | ⟨n, disk', hturn, rfl, h⟩ := hcut cut
      · exact .inl h
      · exact .inr ⟨n, disk', hturn, .inr ⟨rfl, h⟩⟩
    | raises cut =>
      obtain h | ⟨n, disk', hturn, rfl, h⟩ := hcut cut
      · exact .inl (by simpa using h)
      · exact .inr ⟨n, disk', hturn, .inr ⟨rfl, by simpa using h⟩⟩
    | completes =>
      cases hturn : env.turn c k.deleted k.table s.disk with
      | blocked => exact .inl rfl
      | exhausted => exact .inl (by simp)
      | got n disk' =>
        refine .inr ⟨n, disk', rfl, .inl ?_⟩
        simp only
        split
        · simp
        · rfl

/-- Only a turn has the tables' rows deleted. -/
theorem step_disk {s s' : State} {l : Label} (h : step env fromisoformat s l = some s') :
    (∃ t rows, l = .insert t rows ∧ s'.disk = s.disk.set t (s.disk.store t ++ rows)) ∨ s'.disk = s.disk ∨
      ∃ files late fate k n disk', l = .turn files late fate ∧ s.pass = some k ∧
        env.turn (k.config fromisoformat files) k.deleted k.table s.disk = .got n disk' ∧
        (s'.disk = disk' ∨ fate.cut = some .between ∧ s'.disk = { s.disk with store := disk'.store }) := by
  cases l with
  | insert t rows =>
    cases h
    exact .inl ⟨t, rows, rfl, rfl⟩
  | call a =>
    simp only [step] at h
    split at h
    · cases h
    · split at h
      · cases h
        exact .inr (.inl rfl)
      · cases h
        exact .inr (.inl rfl)
  | turn files late fate =>
    obtain ⟨k, hk, rfl⟩ := Option.map_eq_some_iff.1 h
    obtain hsame | ⟨n, disk', hturn, hdisk⟩ := @turnStep_disk env s k (k.config fromisoformat files) late fate
    · exact .inr (.inl hsame)
    · exact .inr (.inr ⟨files, late, fate, k, n, disk', rfl, hk, hturn, hdisk⟩)
  | crash =>
    cases h
    exact .inr (.inl rfl)

/-- With a receipt directory a batch is of the oldest day, which both tables' receipts or progress still fit. -/
theorem turn_covered {c : Config} {r : Receipts} (hr : c.receipts = some r) {deleted : List (Table × Nat)} {t : Table}
    {disk disk' : Disk} {n : Nat} (h : env.turn c deleted t disk = .got n disk') :
    ∃ f, disk.store.floorDay = some f ∧ (∀ t, ∃ proof, r.get t f = some proof ∧ env.unchanged disk t f proof = true) ∧
      Deletes t (min c.cutoff (dayStartUs (f + 1))) n disk.store disk'.store ∧
      disk' = if 0 < n then env.writeProgress ⟨disk'.store, disk.progress⟩ t f else ⟨disk'.store, disk.progress⟩ := by
  obtain ⟨bound, hbound, hdel⟩ := turn_got h
  obtain ⟨f, hf, rfl⟩ := bound_of_receipts hbound (by rw [hr]; rfl)
  refine ⟨f, hf, ?_, hdel, ?_⟩
  · simp only [Env.turn, hr] at h
    cases hcut : env.retentionCutoff r disk with
    | error reason =>
      simp only [hcut] at h
      split at h <;> cases h
    | ok remote =>
      obtain ⟨d, last, hd, ht, hb, hw, _⟩ := of_retentionCutoff_ok hcut
      obtain rfl : f = d := Option.some.inj (hf.symm.trans hd)
      obtain ⟨a, b, ha, hb, hstep⟩ | ⟨hno, _⟩ := @walk_succ env r disk (r .trades).length f
      · rw [hstep] at hw
        split at hw
        · rename_i hboth
          rw [Bool.and_eq_true] at hboth
          rintro (_ | _)
          · exact ⟨a, ha, hboth.1⟩
          · exact ⟨b, hb, hboth.2⟩
        · cases hw
      · exact absurd ⟨ht, hb⟩ hno
  · simp only [Env.turn, hr, hf] at h
    split at h
    · split at h <;> cases h
    · simp only [Turn.got.injEq] at h
      obtain ⟨rfl, rfl⟩ := h
      split <;> rfl

/-! ## Left alone, the process is `prune` -/

/-- The state a loop over a table ends in. -/
def Ending.after (e : Ending) (k : Locals) (disk : Disk) (result : Option PruneResult) : State :=
  match e with
  | .blocked reason => ⟨disk, none, some ⟨k.deleted, k.batches, false, some reason⟩⟩
  | .budget => ⟨disk, none, some ⟨k.tally, k.batches, true, none⟩⟩
  | .done => State.leave ⟨disk, none, result⟩ k disk

theorem tableLoop_run {a : Args} {files : List File} {late : Nat → Bool} {deleted : List (Table × Nat)} {t : Table}
    {rest : List Table} {result : Option PruneResult} : ∀ {fuel : Nat} {p p' : Pass} {ending : Ending},
    env.tableLoop late (a.config (remoteVerifiedReceipts fromisoformat files)) deleted t fuel p = some (ending, p') →
      ∃ ls, Lts.Run (step env fromisoformat) Lts.anyStep ⟨p.disk, some ⟨a, t, rest, p.n, deleted, p.batches⟩, result⟩ ls
        (ending.after ⟨a, t, rest, p'.n, deleted, p'.batches⟩ p'.disk result)
  | 0, _, _, _, h => by cases h
  | fuel + 1, p, p', ending, h => by
    simp only [Env.tableLoop] at h
    split at h
    · rename_i hlate
      cases h
      refine ⟨[.turn files true .completes], .cons trivial ?_ (.nil _)⟩
      rfl
    · have hone : ∀ {s' : State}, turnStep env ⟨p.disk, some ⟨a, t, rest, p.n, deleted, p.batches⟩, result⟩
          ⟨a, t, rest, p.n, deleted, p.batches⟩ (a.config (remoteVerifiedReceipts fromisoformat files)) false
            .completes = s' →
          step env fromisoformat ⟨p.disk, some ⟨a, t, rest, p.n, deleted, p.batches⟩, result⟩
            (.turn files false .completes) =
            some s' := fun h => by rw [← h]; rfl
      cases hturn : env.turn (a.config (remoteVerifiedReceipts fromisoformat files)) deleted t p.disk with
      | blocked reason =>
        simp only [hturn] at h
        cases h
        refine ⟨[.turn files false .completes], .cons trivial (hone ?_) (.nil _)⟩
        simp [turnStep, hturn, Ending.after]
      | exhausted =>
        simp only [hturn] at h
        cases h
        refine ⟨[.turn files false .completes], .cons trivial (hone ?_) (.nil _)⟩
        cases rest <;> simp [turnStep, hturn, Ending.after, State.leave]
      | got n disk =>
        simp only [hturn] at h
        by_cases hn : n < deleteBatch
        · obtain ⟨rfl, rfl⟩ : ending = .done ∧ p' = ⟨disk, p.n + n, p.batches + 1⟩ := by
            split at h
            · rename_i hzero
              cases h
              exact ⟨rfl, by rw [hzero]; rfl⟩
            · cases h
              exact ⟨rfl, rfl⟩
          refine ⟨[.turn files false .completes], .cons trivial (hone ?_) (.nil _)⟩
          cases rest <;> simp [turnStep, hturn, hn, Ending.after, State.leave]
        · rw [if_neg (by rintro rfl; exact hn (by decide)), if_neg hn] at h
          obtain ⟨ls, hrun⟩ := tableLoop_run h
          refine ⟨.turn files false .completes :: ls, .cons trivial (hone ?_) hrun⟩
          simp [turnStep, hturn, hn]

theorem tables_run {a : Args} {files : List File} {late : Nat → Bool} : ∀ {ts : List Table} {t : Table}
    {deleted : List (Table × Nat)} {batches : Nat} {disk disk' : Disk} {res : PruneResult}
    {result : Option PruneResult},
    env.tables late (a.config (remoteVerifiedReceipts fromisoformat files)) (t :: ts) deleted batches disk =
      some (res, disk') →
      ∃ ls, Lts.Run (step env fromisoformat) Lts.anyStep ⟨disk, some ⟨a, t, ts, 0, deleted, batches⟩, result⟩ ls
        ⟨disk', none, some res⟩ := by
  intro ts
  induction ts with
  | nil =>
    intro t deleted batches disk disk' res result h
    obtain ⟨⟨ending, p⟩, hloop, h⟩ := Option.bind_eq_some_iff.1 h
    obtain ⟨ls, hrun⟩ := @tableLoop_run env fromisoformat a files late deleted t [] result _ _ _ _ hloop
    refine ⟨ls, ?_⟩
    cases ending with
    | done | budget | blocked =>
      cases h
      exact hrun
  | cons t' ts ih =>
    intro t deleted batches disk disk' res result h
    obtain ⟨⟨ending, p⟩, hloop, h⟩ := Option.bind_eq_some_iff.1 h
    obtain ⟨ls, hrun⟩ := @tableLoop_run env fromisoformat a files late deleted t (t' :: ts) result _ _ _ _ hloop
    cases ending with
    | done =>
      obtain ⟨ls', hrun'⟩ := ih h
      exact ⟨ls ++ ls', hrun.append hrun'⟩
    | budget | blocked =>
      cases h
      exact ⟨ls, hrun⟩

/-- **`prune` is a run** of the process in which nothing is inserted and no turn is cut. -/
theorem prune_run {a : Args} {files : List File} {late : Nat → Bool} {disk disk' : Disk} {res : PruneResult}
    {result : Option PruneResult}
    (h : env.prune late (a.config (remoteVerifiedReceipts fromisoformat files)) disk = some (res, disk')) :
    ∃ ls, Lts.Run (step env fromisoformat) Lts.anyStep ⟨disk, none, result⟩ (.call a :: ls)
      ⟨disk', none, some res⟩ := by
  have hprune : env.prune late (a.config (remoteVerifiedReceipts fromisoformat files)) disk =
      match a.refused with
      | some res => some (res, disk)
      | none => env.tables late (a.config (remoteVerifiedReceipts fromisoformat files)) pruneTables [] 0 disk := by
    obtain ⟨enabled, cutoffUs, floorUs, remoteReceiptDir, allow⟩ := a
    cases enabled <;> cases floorUs <;> cases remoteReceiptDir <;> cases allow <;>
      simp [Env.prune, Args.refused, Args.config] <;> split <;> simp_all
  rw [hprune] at h
  cases hr : a.refused with
  | some res' =>
    simp only [hr] at h
    cases h
    exact ⟨[], .cons trivial (by simp [step, hr]) (.nil _)⟩
  | none =>
    simp only [hr] at h
    obtain ⟨ls, hrun⟩ := @tables_run env fromisoformat a files late _ _ _ _ _ _ _ result h
    exact ⟨ls, .cons trivial (by simp [step, hr]) hrun⟩

end Retention

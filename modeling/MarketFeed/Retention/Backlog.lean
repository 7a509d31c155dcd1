import MarketFeed.Retention.Batch
/-!
# What a pass that reports nothing leaves behind (retention.py:403-504)

`PruneResult` tells a pass that has finished from one that has not. With receipts a batch never goes past
the oldest stored day, and a batch that is not full ends the loop over its table: the days behind that one
are left, and nothing says so. `tableLoop_done` says when the loop does reach a bound (`Reaches`): every
older day must hold a multiple of the batch size of the table's rows, and none of the other table's.
-/

namespace Retention

variable {env : Env} {c : Config} {t : Table}

def onDay (d : Int) (x : Row) : Bool := decide (dayOf x.ts = d)

/-- The rows of `t` older than `M` lie behind days that are deleted in full batches and hold nothing else. -/
def Reaches (M : Int) (t : Table) (s : Store) : Prop :=
  ∀ x ∈ s t, x.ts < M → ∀ d < dayOf x.ts, (∀ o, o ≠ t → ∀ y ∈ s o, dayOf y.ts ≠ d) ∧
    deleteBatch ∣ (s t).countP (onDay d)

/-- No row of `t` is older than `M`. -/
def Gone (M : Int) (t : Table) (s : Store) : Prop := ∀ x ∈ s t, M ≤ x.ts

theorem dayOf_lt_iff {ts d : Int} : dayOf ts < d ↔ ts < dayStartUs d := by
  unfold dayOf dayStartUs dayUs
  omega

/-- The rows a batch takes are of the oldest day. -/
theorem dayOf_gone {s s' : Store} {f : Int} (hf : s.floorDay = some f)
    {gone : List Row} (hperm : (s t).Perm (gone ++ s' t))
    (hgone : ∀ x ∈ gone, x.ts < min c.cutoff (dayStartUs (f + 1))) {x : Row} (hx : x ∈ gone) : dayOf x.ts = f := by
  have hge := (floorDay_spec hf).2 t x (hperm.mem_iff.2 (List.mem_append_left _ hx))
  have hlt : dayOf x.ts < f + 1 := dayOf_lt_iff.2 (by have := hgone x hx; omega)
  omega

/-- On any day but the oldest a batch leaves the rows, on the oldest it takes `n`. -/
theorem countP_onDay {s s' : Store} {f : Int} (hf : s.floorDay = some f)
    {gone : List Row} (hperm : (s t).Perm (gone ++ s' t))
    (hgone : ∀ x ∈ gone, x.ts < min c.cutoff (dayStartUs (f + 1))) (d : Int) :
    (s t).countP (onDay d) = (if d = f then gone.length else 0) + (s' t).countP (onDay d) := by
  rw [hperm.countP_eq, List.countP_append]
  congr 1
  split
  · rename_i hd
    apply List.countP_eq_length.2
    intro x hx
    simp [onDay, hd, dayOf_gone hf hperm hgone hx]
  · rename_i hd
    apply List.countP_eq_zero.2
    intro x hx
    simp [onDay, dayOf_gone hf hperm hgone hx, Ne.symm hd]

/-- A day before the oldest holds nothing. -/
theorem empty_before {s : Store} {f : Int} (hf : s.floorDay = some f) {d : Int} (hd : d < f) (t : Table) :
    (∀ y ∈ s t, dayOf y.ts ≠ d) ∧ (s t).countP (onDay d) = 0 := by
  have hne : ∀ y ∈ s t, dayOf y.ts ≠ d := fun y hy => by have := (floorDay_spec hf).2 t y hy; omega
  exact ⟨hne, List.countP_eq_zero.2 fun y hy => by simp [onDay, hne y hy]⟩

/-- Before the day of a row that goes there is nothing. -/
theorem nothing_before_gone {s s' : Store} {f : Int} (hf : s.floorDay = some f) {gone : List Row}
    (hperm : (s t).Perm (gone ++ s' t)) (hgone : ∀ x ∈ gone, x.ts < min c.cutoff (dayStartUs (f + 1)))
    {x : Row} (hx : x ∈ gone)
    {d : Int} (hd : d < dayOf x.ts) :
    (∀ o, o ≠ t → ∀ y ∈ s o, dayOf y.ts ≠ d) ∧ deleteBatch ∣ (s t).countP (onDay d) := by
  rw [dayOf_gone hf hperm hgone hx] at hd
  refine ⟨fun o _ => (empty_before hf hd o).1, ?_⟩
  rw [(empty_before hf hd t).2]
  exact Nat.dvd_zero _

/-- **A full batch** leaves the question where it was. -/
theorem reaches_of_full {M : Int} {s s' : Store} {f : Int} (hf : s.floorDay = some f)
    (hdel : Deletes t (min c.cutoff (dayStartUs (f + 1))) deleteBatch s s') : Reaches M t s ↔ Reaches M t s' := by
  obtain ⟨gone, hperm, hn, hgone, _, hother⟩ := hdel
  have hdvd : ∀ d, deleteBatch ∣ (s t).countP (onDay d) ↔ deleteBatch ∣ (s' t).countP (onDay d) := by
    intro d
    rw [countP_onDay hf hperm hgone d, ← hn]
    split
    · exact (Nat.dvd_add_iff_right (Nat.dvd_refl _)).symm
    · rw [Nat.zero_add]
  constructor
  · intro hs x hx hlt d hd
    obtain ⟨h1, h2⟩ := hs x (hperm.mem_iff.2 (List.mem_append_right _ hx)) hlt d hd
    exact ⟨fun o ho => by rw [hother o ho]; exact h1 o ho, (hdvd d).1 h2⟩
  · intro hs x hx hlt d hd
    rcases List.mem_append.1 (hperm.mem_iff.1 hx) with hx' | hx'
    · exact nothing_before_gone hf hperm hgone hx' hd
    · obtain ⟨h1, h2⟩ := hs x hx' hlt d hd
      exact ⟨fun o ho => by rw [← hother o ho]; exact h1 o ho, (hdvd d).2 h2⟩

/-- **A batch that is not full** is the last one: nothing is left only if the table had nothing behind the
oldest day. -/
theorem gone_of_short {M : Int} (hM : M ≤ c.cutoff) {s s' : Store} {f : Int} (hf : s.floorDay = some f) {n : Nat}
    (hshort : n < deleteBatch) (hdel : Deletes t (min c.cutoff (dayStartUs (f + 1))) n s s') :
    Gone M t s' ↔ Reaches M t s := by
  have hleft := hdel.short hshort
  obtain ⟨gone, hperm, hn, hgone, hmin, _⟩ := hdel
  obtain ⟨⟨t', y, hy, hyf⟩, hfloor⟩ := floorDay_spec hf
  have hold : n = (s t).countP fun x => decide (x.ts < min c.cutoff (dayStartUs (f + 1))) := by omega
  constructor
  · intro hs x hx hlt d hd
    rcases List.mem_append.1 (hperm.mem_iff.1 hx) with hx' | hx'
    · exact nothing_before_gone hf hperm hgone hx' hd
    · have := hs x hx'
      omega
  · intro hs x hx
    by_contra hlt
    have hxs : x ∈ s t := hperm.mem_iff.2 (List.mem_append_right _ hx)
    have hfx := hfloor t x hxs
    have hbound := hleft x hx
    have hbehind : dayStartUs (f + 1) ≤ x.ts := by omega
    have hday : f < dayOf x.ts := by
      by_contra hno
      have := dayOf_lt_iff.1 (show dayOf x.ts < f + 1 by omega)
      omega
    obtain ⟨hothers, hdvd⟩ := hs x hxs (by omega) f hday
    -- the oldest day has fewer rows than a batch, so none, and yet it is the day of a row
    have hle : (s t).countP (onDay f) ≤ n := by
      rw [hold]
      apply List.countP_mono_left
      intro z hz hzf
      have hzf : dayOf z.ts = f := by simpa [onDay] using hzf
      have := dayOf_lt_iff.1 (show dayOf z.ts < f + 1 by omega)
      simp only [decide_eq_true_eq]
      omega
    have hzero : (s t).countP (onDay f) = 0 := Nat.eq_zero_of_dvd_of_lt hdvd (by omega)
    by_cases ht : t' = t
    · subst ht
      exact List.countP_eq_zero.1 hzero y hy (by simp [onDay, hyf])
    · exact hothers t' ht y hy hyf

/-! ## The digest of a day -/

theorem dayProof_eq (s : Store) (t : Table) (d : Int) :
    env.dayProof s t d = ⟨((s t).filter (onDay d)).length, env.digest t ((s t).filter (onDay d))⟩ := by
  have hday : (fun x : Row => decide (dayStartUs d ≤ x.ts ∧ x.ts < dayStartUs d + dayUs)) = onDay d := by
    funext x
    rw [onDay, decide_eq_decide]
    unfold dayOf dayStartUs dayUs
    omega
  rw [Env.dayProof, hday]

theorem dayProof_congr {s s' : Store} {t : Table} {d : Int}
    (h : ((s t).filter (onDay d)).Perm ((s' t).filter (onDay d))) :
    env.dayProof s t d = env.dayProof s' t d := by
  rw [dayProof_eq, dayProof_eq, h.length_eq, Multiset.coe_eq_coe.2 h]

theorem unchanged_congr {disk disk' : Disk} {t : Table} {d : Int}
    (hproof : env.dayProof disk.store t d = env.dayProof disk'.store t d)
    (hprogress : disk.progress t d = disk'.progress t d) (proof : DayProof) :
    env.unchanged disk t d proof = env.unchanged disk' t d proof := by
  unfold Env.unchanged
  rw [hprogress, hproof]

/-- Rows of other days do not show in the digest. -/
theorem dayProof_insert {s : Store} {rows : List Row} {d : Int} (h : ∀ x ∈ rows, dayOf x.ts ≠ d) (o : Table) :
    env.dayProof (Function.update s t (s t ++ rows)) o d = env.dayProof s o d := by
  apply dayProof_congr
  by_cases ho : o = t
  · subst ho
    have hnone : rows.filter (onDay d) = [] := List.filter_eq_nil_iff.2 fun x hx => by simp [onDay, h x hx]
    simp [hnone]
  · simp [ho]

/-- `_source_matches_receipt`, as a statement. -/
theorem unchanged_iff {disk : Disk} {t : Table} {d : Int} {proof : DayProof} : env.unchanged disk t d proof = true ↔
    disk.progress t d = none ∧ proof = env.dayProof disk.store t d ∨
    disk.progress t d = some (env.dayProof disk.store t d) := by
  unfold Env.unchanged
  cases hp : disk.progress t d with
  | none => simp
  | some left => simp

/-! ## The loop over a table -/

/-- What a loop over a table leaves: with receipts, the rows older than `M` go exactly when it reaches them;
without, they go. -/
structure Leaves (c : Config) (M : Int) (t : Table) (s s' : Store) : Prop where
  others : ∀ o, o ≠ t → s' o = s o
  covered : c.receipts.isSome = true → (Gone M t s' ↔ Reaches M t s)
  free : c.receipts = none → Gone M t s'

theorem bound_of_receipts {s : Store} {bound : Int} (h : c.bound s bound) (hr : c.receipts.isSome = true) :
    ∃ f, s.floorDay = some f ∧ bound = min c.cutoff (dayStartUs (f + 1)) := by
  obtain ⟨r, hr⟩ := Option.isSome_iff_exists.1 hr
  simpa only [Config.bound, hr] using h

theorem leaves_of_empty {M : Int} {s : Store} (h : s t = []) : Leaves c M t s s := by
  refine ⟨fun _ _ => rfl, fun _ => ?_, fun _ x hx => ?_⟩
  · constructor <;> intro _ x hx <;> rw [h] at hx <;> cases hx
  · rw [h] at hx
    cases hx

/-- The last turn. -/
theorem leaves_of_short {M : Int} (hM : M ≤ c.cutoff) {s s' : Store} {bound : Int} (hbound : c.bound s bound) {n : Nat}
    (hshort : n < deleteBatch) (hdel : Deletes t bound n s s') : Leaves c M t s s' := by
  refine ⟨?_, fun hr => ?_, fun hr => ?_⟩
  · obtain ⟨_, _, _, _, _, hother⟩ := hdel
    exact hother
  · obtain ⟨f, hf, rfl⟩ := bound_of_receipts hbound hr
    exact gone_of_short hM hf hshort hdel
  · simp only [Config.bound, hr] at hbound
    exact fun x hx => Int.le_trans hM (hbound ▸ hdel.short hshort x hx)

/-- A turn with a full batch, and what the turns after it leave. -/
theorem leaves_of_full {M : Int} {s s₁ s' : Store} {bound : Int} (hbound : c.bound s bound)
    {n : Nat} (hfull : ¬ n < deleteBatch)
    (hdel : Deletes t bound n s s₁) (h : Leaves c M t s₁ s') : Leaves c M t s s' := by
  refine ⟨fun o ho => ?_, fun hr => ?_, h.free⟩
  · obtain ⟨_, _, _, _, _, hother⟩ := hdel
    exact (h.others o ho).trans (hother o ho)
  · obtain ⟨f, hf, rfl⟩ := bound_of_receipts hbound hr
    have hn : n = deleteBatch := by
      obtain ⟨_, _, _, _, hmin, _⟩ := hdel
      omega
    exact (h.covered hr).trans (reaches_of_full hf (hn ▸ hdel)).symm

theorem tableLoop_done {M : Int} (hM : M ≤ c.cutoff) {late : Nat → Bool} {deleted : List (Table × Nat)} :
    ∀ {fuel : Nat} {p p' : Pass}, env.tableLoop late c deleted t fuel p = some (.done, p') →
      Leaves c M t p.disk.store p'.disk.store
  | 0, _, _, h => by cases h
  | fuel + 1, p, p', h => by
    simp only [Env.tableLoop] at h
    split at h
    · cases h
    · cases hturn : env.turn c deleted t p.disk with
      | blocked reason => simp [hturn] at h
      | exhausted =>
        simp only [hturn] at h
        cases h
        exact leaves_of_empty (floorDay_none (turn_exhausted hturn).2 t)
      | got n disk =>
        simp only [hturn] at h
        obtain ⟨bound, hbound, hdel⟩ := turn_got hturn
        split at h
        · rename_i hzero
          cases h
          exact leaves_of_short hM hbound (by rw [hzero]; decide) hdel
        · split at h
          · rename_i hshort
            cases h
            exact leaves_of_short hM hbound hshort hdel
          · rename_i hfull
            exact leaves_of_full hbound hfull hdel (tableLoop_done hM h)

/-! ## `prune` -/

/-- A pass that reports nothing has gone through each table's loop to its end. -/
theorem tables_cons {late : Nat → Bool} {ts : List Table} {deleted : List (Table × Nat)} {batches : Nat}
    {disk disk' : Disk}
    {res : PruneResult} (h : env.tables late c (t :: ts) deleted batches disk = some (res, disk'))
    (hb : res.budgetHit = false) (hn : res.blockedReason = none) :
    ∃ fuel p deleted', env.tableLoop late c deleted t fuel ⟨disk, 0, batches⟩ = some (.done, p) ∧
      env.tables late c ts deleted' p.batches p.disk = some (res, disk') := by
  simp only [Env.tables, Option.bind_eq_some_iff] at h
  obtain ⟨⟨ending, p⟩, hloop, hrest⟩ := h
  cases ending with
  | done => exact ⟨_, p, _, hloop, hrest⟩
  | budget => cases hrest; cases hb
  | blocked reason => cases hrest; cases hn

/-- `prune` returns. -/
theorem prune_returns (env : Env) (late : Nat → Bool) (c : Config) (disk : Disk) :
    ∃ r, env.prune late c disk = some r := by
  have htables : ∀ (ts : List Table) (deleted : List (Table × Nat)) (batches : Nat) (disk : Disk),
      ∃ r, env.tables late c ts deleted batches disk = some r := by
    intro ts
    induction ts with
    | nil => exact fun deleted batches disk => ⟨_, rfl⟩
    | cons t ts ih =>
      intro deleted batches disk
      obtain ⟨⟨ending, p⟩, hloop⟩ := @tableLoop_returns env c t late deleted _ ⟨disk, 0, batches⟩ (Nat.lt_succ_self _)
      simp only [Env.tables, hloop, Option.bind_some]
      cases ending with
      | done => exact ih _ _ _
      | budget | blocked => exact ⟨_, rfl⟩
  unfold Env.prune
  split
  · exact ⟨_, rfl⟩
  · split
    · split
      · exact ⟨_, rfl⟩
      · split
        · exact ⟨_, rfl⟩
        · exact htables _ _ _ _
    · split
      · exact ⟨_, rfl⟩
      · exact htables _ _ _ _
    · exact htables _ _ _ _

/-- What the pass is to reach: the least of the retention cutoff, the floor and the remote cutoff as it is at
the start. There is none with retention off, and none while the receipts do not cover the oldest day. -/
def Env.horizon (env : Env) (c : Config) (disk : Disk) : Option Int :=
  if c.enabled = false then none
  else
    match c.receipts with
    | none => some c.cutoff
    | some r =>
      match env.retentionCutoff r disk with
      | .ok remote => some (min c.cutoff remote)
      | .error _ => none

/-- Nothing older than the horizon is left. -/
def LeavesNothing (env : Env) (c : Config) (disk disk' : Disk) : Prop :=
  ∀ M, env.horizon c disk = some M → ∀ t, Gone M t disk'.store

/-- The days before the last one to go hold full batches of trades and no quotes, and then full batches of
quotes. -/
def FullBatches (s : Store) (M : Int) : Prop :=
  (∀ x ∈ s .trades, x.ts < M → ∀ d < dayOf x.ts, (s .bookTop).countP (onDay d) = 0 ∧
    deleteBatch ∣ (s .trades).countP (onDay d)) ∧
  ∀ x ∈ s .bookTop, x.ts < M → ∀ d < dayOf x.ts, deleteBatch ∣ (s .bookTop).countP (onDay d)

/-- When a pass that reports nothing has left nothing. -/
def Finishes (env : Env) (c : Config) (disk : Disk) : Prop :=
  ∀ M, env.horizon c disk = some M →
    match c.receipts with
    | some _ => FullBatches disk.store M
    -- a floor at the epoch deletes nothing
    | none => ∀ f, c.floorUs = some f → f ≤ 0 → ∀ t, Gone M t disk.store

theorem reaches_trades {M : Int} {s : Store} : Reaches M .trades s ↔
    ∀ x ∈ s .trades, x.ts < M → ∀ d < dayOf x.ts, (s .bookTop).countP (onDay d) = 0 ∧
    deleteBatch ∣ (s .trades).countP (onDay d) := by
  have hempty : ∀ d, (s .bookTop).countP (onDay d) = 0 ↔ ∀ o, o ≠ Table.trades → ∀ y ∈ s o, dayOf y.ts ≠ d := by
    intro d
    rw [List.countP_eq_zero]
    constructor
    · intro h o ho y hy
      cases o with
      | trades => exact absurd rfl ho
      | bookTop => simpa [onDay] using h y hy
    · intro h y hy
      simpa [onDay] using h .bookTop (by decide) y hy
  simp only [Reaches, hempty]

/-- With the trades gone, the quotes' days hold nothing else. -/
theorem reaches_bookTop {M : Int} {s : Store} (hgone : Gone M .trades s) : Reaches M .bookTop s ↔
    ∀ x ∈ s .bookTop, x.ts < M → ∀ d < dayOf x.ts, deleteBatch ∣ (s .bookTop).countP (onDay d) := by
  constructor
  · exact fun h x hx hlt d hd => (h x hx hlt d hd).2
  · intro h x hx hlt d hd
    refine ⟨fun o ho y hy hyd => ?_, h x hx hlt d hd⟩
    cases o with
    | bookTop => exact ho rfl
    | trades =>
      have hM := hgone y hy
      have hyx : y.ts < dayStartUs (dayOf x.ts) := dayOf_lt_iff.1 (by omega)
      have hx' : ¬ x.ts < dayStartUs (dayOf x.ts) := fun hc => Int.lt_irrefl _ (dayOf_lt_iff.2 hc)
      omega

theorem tables_leave {late : Nat → Bool} {disk disk' : Disk} {res : PruneResult}
    (h : env.tables late c pruneTables [] 0 disk = some (res, disk')) (hb : res.budgetHit = false)
    (hn : res.blockedReason = none) {M : Int} (hM : M ≤ c.cutoff) :
    (c.receipts.isSome = true → ((∀ t, Gone M t disk'.store) ↔ FullBatches disk.store M)) ∧
      (c.receipts = none → ∀ t, Gone M t disk'.store) := by
  obtain ⟨_, p₁, deleted₁, hloop₁, h⟩ := tables_cons h hb hn
  obtain ⟨_, p₂, deleted₂, hloop₂, h⟩ := tables_cons h hb hn
  cases h
  have h₁ : Leaves c M .trades disk.store p₁.disk.store := tableLoop_done hM hloop₁
  have h₂ : Leaves c M .bookTop p₁.disk.store p₂.disk.store :=
    @tableLoop_done env c .bookTop M hM late deleted₁ _ ⟨p₁.disk, 0, p₁.batches⟩ p₂ hloop₂
  have htrades : p₂.disk.store .trades = p₁.disk.store .trades := h₂.others .trades (by decide)
  have hbook : p₁.disk.store .bookTop = disk.store .bookTop := h₁.others .bookTop (by decide)
  have hsplit : (∀ t, Gone M t p₂.disk.store) ↔ Gone M .trades p₁.disk.store ∧ Gone M .bookTop p₂.disk.store := by
    constructor
    · exact fun h => ⟨fun x hx => h .trades x (htrades ▸ hx), h .bookTop⟩
    · rintro ⟨h1, h2⟩ (_ | _)
      · exact fun x hx => h1 x (htrades ▸ hx)
      · exact h2
  refine ⟨fun hr => ?_, fun hr => hsplit.2 ⟨h₁.free hr, h₂.free hr⟩⟩
  rw [hsplit, h₂.covered hr, FullBatches, ← reaches_trades, ← h₁.covered hr]
  apply and_congr_right
  intro hgone
  rw [reaches_bookTop hgone, hbook]

/-- **A pass that reports nothing has left nothing exactly when its batches come out even**: with receipts, the
days before the last one to go must hold a multiple of the batch size of trades and no quotes, and a multiple
of it of quotes. -/
theorem prune_leaves_nothing_iff {late : Nat → Bool} {disk disk' : Disk} {res : PruneResult}
    (h : env.prune late c disk = some (res, disk')) (hb : res.budgetHit = false) (hn : res.blockedReason = none) :
    LeavesNothing env c disk disk' ↔ Finishes env c disk := by
  have hle : ∀ M, env.horizon c disk = some M → M ≤ c.cutoff := by
    intro M hM
    unfold Env.horizon at hM
    split at hM
    · cases hM
    · split at hM
      · cases hM
        exact Int.le_refl _
      · split at hM
        · cases hM
          exact Int.min_le_left _ _
        · cases hM
  have htables : env.tables late c pruneTables [] 0 disk = some (res, disk') →
      (c.receipts = none → ∀ f, c.floorUs = some f → 0 < f) →
      (LeavesNothing env c disk disk' ↔ Finishes env c disk) := by
    intro h hfloor
    unfold LeavesNothing Finishes
    refine forall_congr' fun M => imp_congr_right fun hM => ?_
    obtain ⟨hsome, hnone⟩ := tables_leave h hb hn (hle M hM)
    cases hr : c.receipts with
    | some r => exact hsome (by rw [hr]; rfl)
    | none =>
      refine iff_of_true (hnone hr) fun f hf hf0 => ?_
      have := hfloor hr f hf
      omega
  unfold Env.prune at h
  split at h
  · rename_i hoff
    unfold LeavesNothing Finishes Env.horizon
    simp [hoff]
  · split at h
    · rename_i f hf hr
      split at h
      · cases h
        cases hn
      · split at h
        · rename_i hf0
          cases h
          unfold LeavesNothing Finishes
          refine forall_congr' fun M => imp_congr_right fun hM => ?_
          simp [hr, hf, hf0]
        · refine htables h fun _ f' hf' => ?_
          have := Option.some.inj (hf.symm.trans hf')
          omega
    · rename_i f r hf hr
      split at h
      · cases h
        cases hn
      · exact htables h fun hnone => by rw [hr] at hnone; cases hnone
    · rename_i hf
      exact htables h fun _ f hf' => by rw [hf] at hf'; cases hf'

/-! ## A backlog -/

/-- A digest that tells days of different size apart. -/
def countingEnv : Env := ⟨fun _ rows => toString rows.card, fun _ rows => rows, fun _ _ => .refl _⟩

/-- One trade and one quote on each of these days, their receipts, and no batch deleted yet. -/
def daysStored (days : List Int) : Disk := ⟨fun _ => days.map fun d => ⟨dayStartUs d, "1"⟩, fun _ _ => none⟩

def daysVerified (days : List Int) : Config :=
  ⟨true, dayStartUs 20660, some (dayStartUs 20656), some fun _ => days.map fun d => (d, ⟨1, "1"⟩), false⟩

theorem prune_leaves_nothing_iff_one_day :
    ∃ res disk', countingEnv.prune (fun _ => false) (daysVerified [20653]) (daysStored [20653]) = some (res, disk') ∧
      (LeavesNothing countingEnv (daysVerified [20653]) (daysStored [20653]) disk' ↔
        Finishes countingEnv (daysVerified [20653]) (daysStored [20653])) := by
  obtain ⟨⟨res, disk'⟩, h, hres⟩ := (Option.any_eq_true _ _).1 (show
    ((countingEnv.prune (fun _ => false) (daysVerified [20653]) (daysStored [20653])).any fun r =>
      decide (r.1 = ⟨[(.trades, 1), (.bookTop, 1)], 2, false, none⟩)) = true by decide +kernel)
  obtain rfl : res = _ := of_decide_eq_true hres
  exact ⟨_, disk', h, prune_leaves_nothing_iff h rfl rfl⟩

/-- Three verified days behind the floor: the pass deletes the first, reports two rows deleted and nothing
else, and leaves the other two. -/
theorem backlog_left_silently :
    ∃ res disk', countingEnv.prune (fun _ => false) (daysVerified [20653, 20654, 20655])
      (daysStored [20653, 20654, 20655]) =
        some (res, disk') ∧
      res = ⟨[(.trades, 1), (.bookTop, 1)], 2, false, none⟩ ∧
      disk'.store .trades = [⟨dayStartUs 20654, "1"⟩, ⟨dayStartUs 20655, "1"⟩] ∧
      ¬ LeavesNothing countingEnv (daysVerified [20653, 20654, 20655]) (daysStored [20653, 20654, 20655]) disk' := by
  obtain ⟨⟨res, disk'⟩, h, hres⟩ := (Option.any_eq_true _ _).1 (show
    ((countingEnv.prune (fun _ => false) (daysVerified [20653, 20654, 20655]) (daysStored [20653, 20654, 20655])).any
      fun r =>
      decide (r.1 = ⟨[(.trades, 1), (.bookTop, 1)], 2, false, none⟩ ∧
        r.2.store .trades = [⟨dayStartUs 20654, "1"⟩, ⟨dayStartUs 20655, "1"⟩])) = true by decide +kernel)
  obtain ⟨hres, hleft⟩ := of_decide_eq_true hres
  refine ⟨res, disk', h, hres, hleft, fun hnothing => ?_⟩
  have hhorizon : countingEnv.horizon (daysVerified [20653, 20654, 20655]) (daysStored [20653, 20654, 20655]) =
      some (dayStartUs 20656) := by decide +kernel
  have hrow := hnothing (dayStartUs 20656) hhorizon .trades ⟨dayStartUs 20654, "1"⟩
    (by rw [hleft]; exact List.mem_cons_self)
  exact absurd hrow (by decide)

end Retention

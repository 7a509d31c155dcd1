import Mathlib.Data.List.Nodup
import MarketFeed.Retention.Prune
/-!
# What one batch deletes (retention.py:460-494, db.py:518-524)

`Deletes`: a batch takes some rows older than a bound out of one table, as many as there are up to the
batch size. `turn_got` reads every turn of the loop as one, the bound being the cutoff or, with receipts,
the end of the oldest stored day if that is earlier: the day is covered, so the remote cutoff is later
still. `tableLoop_returns`: a loop with more fuel than rows ends.
-/

namespace Retention

variable {env : Env} {c : Config} {t : Table}

/-- A batch of rows older than `bound`. -/
def Deletes (t : Table) (bound : Int) (n : Nat) (s s' : Store) : Prop :=
  ∃ gone : List Row, (s t).Perm (gone ++ s' t) ∧ n = gone.length ∧ (∀ x ∈ gone, x.ts < bound) ∧
    n = min deleteBatch ((s t).countP fun x => decide (x.ts < bound)) ∧ ∀ o, o ≠ t → s' o = s o

theorem deleteOlderThan_perm (rows : List Row) (cutoff : Int) (limit : Nat) :
    let old := (env.scan t rows).filter fun x => decide (x.ts < cutoff)
    rows.Perm (old.take limit ++ (env.deleteOlderThan t rows cutoff limit).2) ∧
      old.length = rows.countP fun x => decide (x.ts < cutoff) := by
  intro old
  have hold : old.Perm (rows.filter fun x => decide (x.ts < cutoff)) := (env.scan_perm t rows).filter _
  refine ⟨?_, by rw [hold.length_eq, List.countP_eq_length_filter]⟩
  let keep := rows.filter fun x => !decide (x.ts < cutoff)
  calc
    rows.Perm (rows.filter (fun x => decide (x.ts < cutoff)) ++ keep) := (List.filter_append_perm _ _).symm
    List.Perm _ (old ++ keep) := hold.symm.append_right keep
    List.Perm _ (old.take limit ++ (old.drop limit ++ keep)) := by rw [← List.append_assoc, List.take_append_drop]
    List.Perm _ (old.take limit ++ (keep ++ old.drop limit)) := List.perm_append_comm.append_left _

theorem deletes_of_deleteOlderThan (s : Store) (bound : Int) :
    Deletes t bound (env.deleteOlderThan t (s t) bound deleteBatch).1 s
      (Function.update s t (env.deleteOlderThan t (s t) bound deleteBatch).2) := by
  obtain ⟨hperm, hlen⟩ := @deleteOlderThan_perm env t (s t) bound deleteBatch
  refine ⟨_, by rw [Function.update_self]; exact hperm, rfl, fun x hx => ?_, ?_,
    fun o ho => Function.update_of_ne ho _ _⟩
  · simpa using (List.mem_filter.1 (List.mem_of_mem_take hx)).2
  · rw [← hlen]
    exact List.length_take

/-! ## The oldest day -/

theorem dayOf_mono {a b : Int} (h : a ≤ b) : dayOf a ≤ dayOf b := Int.ediv_le_ediv (by decide) h

theorem mem_pruneTables (t : Table) : t ∈ pruneTables := by
  cases t <;> decide

/-- The floor is the day of a row, and no row is of an earlier day. -/
theorem floorDay_spec {s : Store} {f : Int} (h : s.floorDay = some f) :
    (∃ t, ∃ x ∈ s t, dayOf x.ts = f) ∧ ∀ t, ∀ x ∈ s t, f ≤ dayOf x.ts := by
  obtain ⟨hmem, hle⟩ := List.min?_eq_some_iff.1 h
  constructor
  · obtain ⟨t, _, ht⟩ := List.mem_filterMap.1 hmem
    obtain ⟨ts, hts, rfl⟩ := Option.map_eq_some_iff.1 ht
    obtain ⟨x, hx, rfl⟩ := List.mem_map.1 (List.min?_mem hts)
    exact ⟨t, x, hx, rfl⟩
  · intro t x hx
    have hxt : x.ts ∈ (s t).map (·.ts) := List.mem_map_of_mem hx
    cases hm : ((s t).map (·.ts)).min? with
    | none =>
      rw [List.min?_eq_none_iff.1 hm] at hxt
      cases hxt
    | some m =>
      have hday : dayOf m ∈ pruneTables.filterMap fun t => (((s t).map (·.ts)).min?).map dayOf :=
        List.mem_filterMap.2 ⟨t, mem_pruneTables t, by rw [hm]; rfl⟩
      exact Int.le_trans (hle (dayOf m) hday) (dayOf_mono ((List.min?_eq_some_iff.1 hm).2 x.ts hxt))

theorem floorDay_none {s : Store} (h : s.floorDay = none) (t : Table) : s t = [] := by
  have hnone := List.filterMap_eq_nil_iff.1 (List.min?_eq_none_iff.1 h) t (mem_pruneTables t)
  rw [Option.map_eq_none_iff, List.min?_eq_none_iff, List.map_eq_nil_iff] at hnone
  exact hnone

/-! ## The remote cutoff -/

/-- One day of the walk, with receipts of both tables or without. -/
theorem walk_succ (r : Receipts) (disk : Disk) (fuel : Nat) (day : Int) :
    (∃ a b, r.get .trades day = some a ∧ r.get .bookTop day = some b ∧
      env.walk r disk (fuel + 1) day =
        if env.unchanged disk .trades day a && env.unchanged disk .bookTop day b then env.walk r disk fuel (day + 1)
        else .error .sourceDayChanged) ∨
      ¬ ((r.get .trades day).isSome = true ∧ (r.get .bookTop day).isSome = true) ∧
        env.walk r disk (fuel + 1) day = .ok day := by
  cases ha : r.get .trades day with
  | none => exact .inr ⟨by simp, by simp only [Env.walk, ha]⟩
  | some a =>
    cases hb : r.get .bookTop day with
    | none => exact .inr ⟨by simp, by simp only [Env.walk, ha, hb]⟩
    | some b => exact .inl ⟨a, b, rfl, rfl, by simp only [Env.walk, ha, hb]⟩

/-- What `retention_cutoff` can answer. -/
theorem retentionCutoff_cases (r : Receipts) (disk : Disk) :
    (disk.store.floorDay = none ∧ env.retentionCutoff r disk = .error .noSourceRows) ∨
      ∃ f, disk.store.floorDay = some f ∧
        (env.retentionCutoff r disk = .error .missingRemoteCoverage ∨
          (r.get .trades f).isSome = true ∧ (r.get .bookTop f).isSome = true ∧
            env.retentionCutoff r disk = (env.walk r disk ((r .trades).length + 1) f).map dayStartUs) := by
  unfold Env.retentionCutoff
  cases hf : disk.store.floorDay with
  | none => exact .inl ⟨rfl, rfl⟩
  | some f =>
    refine .inr ⟨f, rfl, ?_⟩
    by_cases hcov : ((r.get .trades f).isSome && (r.get .bookTop f).isSome) = true
    · obtain ⟨ht, hb⟩ := Bool.and_eq_true_iff.1 hcov
      exact .inr ⟨ht, hb, if_pos hcov⟩
    · exact .inl (if_neg hcov)

/-- Where there is a cutoff, the oldest day is covered and the walk from it ends there. -/
theorem of_retentionCutoff_ok {r : Receipts} {disk : Disk} {remote : Int}
    (h : env.retentionCutoff r disk = .ok remote) :
    ∃ f last, disk.store.floorDay = some f ∧ (r.get .trades f).isSome = true ∧ (r.get .bookTop f).isSome = true ∧
      env.walk r disk ((r .trades).length + 1) f = .ok last ∧ remote = dayStartUs last := by
  obtain ⟨_, hcut⟩ | ⟨f, hf, hcut | ⟨ht, hb, hcut⟩⟩ := @retentionCutoff_cases env r disk
  · rw [hcut] at h
    cases h
  · rw [hcut] at h
    cases h
  · rw [hcut] at h
    cases hw : env.walk r disk ((r .trades).length + 1) f with
    | error => rw [hw] at h; cases h
    | ok last => rw [hw] at h; cases h; exact ⟨f, last, hf, ht, hb, hw, rfl⟩

theorem walk_ge {r : Receipts} {disk : Disk} : ∀ {fuel : Nat} {day last : Int}, env.walk r disk fuel day = .ok last →
    day ≤ last
  | 0, day, last, h => by cases h; exact Int.le_refl _
  | fuel + 1, day, last, h => by
    obtain ⟨a, b, _, _, hw⟩ | ⟨_, hw⟩ := @walk_succ env r disk fuel day
    · rw [hw] at h
      split at h
      · have := walk_ge h
        omega
      · cases h
    · rw [hw] at h
      cases h
      exact Int.le_refl _

/-- The oldest day is covered, so the remote cutoff is not before its end. -/
theorem retentionCutoff_ge {r : Receipts} {disk : Disk} {remote : Int} (h : env.retentionCutoff r disk = .ok remote) :
    ∃ f, disk.store.floorDay = some f ∧ dayStartUs (f + 1) ≤ remote := by
  obtain ⟨f, last, hf, ht, hb, hw, rfl⟩ := of_retentionCutoff_ok h
  refine ⟨f, hf, ?_⟩
  obtain ⟨a, b, _, _, hstep⟩ | ⟨hno, _⟩ := @walk_succ env r disk (r .trades).length f
  · rw [hstep] at hw
    split at hw
    · have := walk_ge hw
      unfold dayStartUs dayUs
      omega
    · cases hw
  · exact absurd ⟨ht, hb⟩ hno

theorem get_mem {r : Receipts} {t : Table} {d : Int} (h : (r.get t d).isSome = true) : d ∈ (r t).map (·.1) := by
  obtain ⟨proof, hp⟩ := Option.isSome_iff_exists.1 h
  obtain ⟨e, he, _⟩ := Option.map_eq_some_iff.1 hp
  have hk : e.1 = d := by simpa using List.find?_some he
  rw [← hk]
  exact List.mem_map_of_mem (List.mem_reverse.1 (List.mem_of_find?_eq_some he))

/-- The days walked over are covered, and the last one is not unless the fuel is used up. -/
theorem walk_covered {r : Receipts} {disk : Disk} :
    ∀ {fuel : Nat} {day last : Int}, env.walk r disk fuel day = .ok last →
    (∀ d, day ≤ d → d < last → (r.get .trades d).isSome = true) ∧
      (last = day + fuel ∨ ¬ ((r.get .trades last).isSome = true ∧ (r.get .bookTop last).isSome = true))
  | 0, day, last, h => by
    cases h
    exact ⟨fun d h1 h2 => by omega, .inl (by simp)⟩
  | fuel + 1, day, last, h => by
    obtain ⟨a, b, ha, _, hw⟩ | ⟨hno, hw⟩ := @walk_succ env r disk fuel day
    · rw [hw] at h
      split at h
      · obtain ⟨hall, hend⟩ := walk_covered h
        refine ⟨fun d h1 h2 => ?_, hend.imp_left fun he => by omega⟩
        by_cases hd : d = day
        · rw [hd, ha]
          rfl
        · exact hall d (by omega) h2
      · cases h
    · rw [hw] at h
      cases h
      exact ⟨fun d h1 h2 => by omega, .inr hno⟩

/-- The remote cutoff is the start of a day without receipts of both tables: `walk` has fuel enough. -/
theorem retentionCutoff_uncovered {r : Receipts} {disk : Disk} {remote : Int}
    (h : env.retentionCutoff r disk = .ok remote) :
    ∃ last, remote = dayStartUs last ∧
      ¬ ((r.get .trades last).isSome = true ∧ (r.get .bookTop last).isSome = true) := by
  obtain ⟨f, last, hf, _, _, hw, rfl⟩ := of_retentionCutoff_ok h
  refine ⟨last, rfl, ?_⟩
  obtain ⟨hall, hlast | hno⟩ := walk_covered hw
  · -- one more day than there are receipts
    exfalso
    have hnodup : ((List.range ((r .trades).length + 1)).map fun i : Nat => f + i).Nodup :=
      List.nodup_range.map fun a b hab => by omega
    have hsub : ((List.range ((r .trades).length + 1)).map fun i : Nat => f + i) ⊆ (r .trades).map (·.1) := by
      intro d hd
      obtain ⟨i, hi, rfl⟩ := List.mem_map.1 hd
      have hi := List.mem_range.1 hi
      exact get_mem (hall _ (by omega) (by omega))
    have hlen := (List.subperm_of_subset hnodup hsub).length_le
    simp only [List.length_map, List.length_range] at hlen
    omega
  · exact hno

theorem walk_error_ne {r : Receipts} {disk : Disk} :
    ∀ {fuel : Nat} {day : Int}, env.walk r disk fuel day ≠ .error .noSourceRows
  | 0, _, h => by cases h
  | fuel + 1, day, h => by
    obtain ⟨a, b, _, _, hw⟩ | ⟨_, hw⟩ := @walk_succ env r disk fuel day
    · rw [hw] at h
      split at h
      · exact walk_error_ne h
      · cases h
    · rw [hw] at h
      cases h

theorem retentionCutoff_noSourceRows {r : Receipts} {disk : Disk}
    (h : env.retentionCutoff r disk = .error .noSourceRows) :
    disk.store.floorDay = none := by
  obtain ⟨hf, _⟩ | ⟨f, _, hcut | ⟨_, _, hcut⟩⟩ := @retentionCutoff_cases env r disk
  · exact hf
  · rw [hcut] at h
    cases h
  · rw [hcut] at h
    cases hw : env.walk r disk ((r .trades).length + 1) f with
    | error reason =>
      rw [hw] at h
      cases h
      exact absurd hw walk_error_ne
    | ok last => rw [hw] at h; cases h

/-! ## One turn -/

/-- The bound of a batch. -/
def Config.bound (c : Config) (s : Store) (bound : Int) : Prop :=
  match c.receipts with
  | none => bound = c.cutoff
  | some _ => ∃ f, s.floorDay = some f ∧ bound = min c.cutoff (dayStartUs (f + 1))

theorem turn_got {deleted : List (Table × Nat)} {disk disk' : Disk} {n : Nat}
    (h : env.turn c deleted t disk = .got n disk') :
    ∃ bound, c.bound disk.store bound ∧ Deletes t bound n disk.store disk'.store := by
  unfold Env.turn at h
  unfold Config.bound
  cases hr : c.receipts with
  | none =>
    simp only [hr] at h
    cases h
    exact ⟨c.cutoff, rfl, deletes_of_deleteOlderThan _ _⟩
  | some r =>
    simp only [hr] at h
    cases hc : env.retentionCutoff r disk with
    | error reason =>
      simp only [hc] at h
      split at h <;> cases h
    | ok remote =>
      obtain ⟨f, hf, hge⟩ := retentionCutoff_ge hc
      have hend : dayStartUs f + dayUs = dayStartUs (f + 1) := by
        unfold dayStartUs dayUs
        omega
      have hbound : min (min c.cutoff remote) (dayStartUs f + dayUs) = min c.cutoff (dayStartUs (f + 1)) := by
        rw [hend]
        omega
      simp only [hc, hf, hbound] at h
      cases h
      refine ⟨_, ⟨f, hf, rfl⟩, ?_⟩
      have hdel := @deletes_of_deleteOlderThan env t disk.store (min c.cutoff (dayStartUs (f + 1)))
      split
      · exact hdel
      · exact hdel

theorem turn_exhausted {deleted : List (Table × Nat)} {disk : Disk} (h : env.turn c deleted t disk = .exhausted) :
    deleted ≠ [] ∧ disk.store.floorDay = none := by
  unfold Env.turn at h
  cases hr : c.receipts with
  | none => simp [hr] at h
  | some r =>
    simp only [hr] at h
    cases hc : env.retentionCutoff r disk with
    | ok remote =>
      obtain ⟨f, hf, _⟩ := retentionCutoff_ge hc
      simp [hc, hf] at h
    | error reason =>
      simp only [hc] at h
      split at h
      · rename_i hreason
        refine ⟨hreason.2, @retentionCutoff_noSourceRows env r disk ?_⟩
        rw [hc]
        have h1 := hreason.1
        unfold Config.reason at h1
        split at h1
        · split at h1
          · cases h1
          · rw [h1]
        · rw [h1]
      · cases h

/-! ## The loop -/

theorem Deletes.length {bound : Int} {n : Nat} {s s' : Store} (h : Deletes t bound n s s') :
    (s t).length = n + (s' t).length := by
  obtain ⟨gone, hperm, rfl, _⟩ := h
  rw [hperm.length_eq, List.length_append]

/-- A batch that is not full takes every row below its bound. -/
theorem Deletes.short {bound : Int} {n : Nat} {s s' : Store} (h : Deletes t bound n s s') (hn : n < deleteBatch) :
    ∀ x ∈ s' t, bound ≤ x.ts := by
  obtain ⟨gone, hperm, hlen, hgone, hmin, _⟩ := h
  have hall : gone.countP (fun x => decide (x.ts < bound)) = gone.length :=
    List.countP_eq_length.2 fun x hx => by simpa using hgone x hx
  rw [hperm.countP_eq, List.countP_append, hall] at hmin
  have hzero : (s' t).countP (fun x => decide (x.ts < bound)) = 0 := by omega
  intro x hx
  simpa using List.countP_eq_zero.1 hzero x hx

/-- More fuel than rows is enough: every turn but the last deletes a row. -/
theorem tableLoop_returns (late : Nat → Bool) (deleted : List (Table × Nat)) :
    ∀ {fuel : Nat} {p : Pass}, (p.disk.store t).length < fuel → ∃ r, env.tableLoop late c deleted t fuel p = some r
  | 0, _, h => by omega
  | fuel + 1, p, h => by
    simp only [Env.tableLoop]
    split
    · exact ⟨_, rfl⟩
    · cases hturn : env.turn c deleted t p.disk with
      | blocked | exhausted => exact ⟨_, rfl⟩
      | got n disk =>
        simp only
        split
        · exact ⟨_, rfl⟩
        · split
          · exact ⟨_, rfl⟩
          · obtain ⟨bound, _, hdel⟩ := turn_got hturn
            have hlen := hdel.length
            exact tableLoop_returns late deleted (by simp only; omega)

end Retention

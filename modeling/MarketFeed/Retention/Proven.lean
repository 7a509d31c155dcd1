import MarketFeed.Retention.Process
/-!
# Nothing unproven is deleted (retention.py:206-249, :344-395, :403-504)

`deletes_only_proven`: whatever the receipt directory holds, whatever the writer inserts between batches
and however passes are cut, a row that goes is older than the retention cutoff and the floor, and its day has
a verified receipt in its table. At that moment the stored day has the digest of the receipt or, where there
is a progress record of the day, of that; and a record the run did not start with was made by a batch of that
very day.
-/

namespace Retention

variable {env : Env} {fromisoformat : String → Option Int}

/-- The rows a step takes out of `t`. -/
def removed (t : Table) (s s' : State) : Multiset Row :=
  (s.disk.store t : Multiset Row) - (s'.disk.store t : Multiset Row)

/-- Every pass is given a receipt directory. -/
def WithReceipts (_ : State) (l : Label) : Prop := ∀ a, l = .call a → a.remoteReceiptDir = true

/-- What is known of a row that a pass with arguments `a` takes out of `t`. -/
structure Proven (env : Env) (fromisoformat : String → Option Int) (a : Args) (files : List File)
    (disk : Disk) (t : Table)
    (x : Row) : Prop where
  old : x.ts < a.cutoffUs
  floor : ∀ f, a.floorUs = some f → x.ts < f
  receipt : ∃ file ∈ files, file.isJson = true ∧ ∃ d, file.data = some (.dict d) ∧
    ∃ proof, Verified fromisoformat d t (dayOf x.ts) proof ∧
      (disk.progress t (dayOf x.ts) = none ∧ proof = env.dayProof disk.store t (dayOf x.ts) ∨
        disk.progress t (dayOf x.ts) = some (env.dayProof disk.store t (dayOf x.ts)))

/-- A step that took rows of the day out of `t` and then recorded `left`. -/
def Records (env : Env) (t : Table) (day : Int) (left : DayProof) (m m' : State) : Prop :=
  (∃ y ∈ removed t m m', dayOf y.ts = day) ∧ left = env.dayProof m'.disk.store t day

/-! ## Rows that go -/

theorem removed_of_perm {s s' : State} {t : Table} {gone : List Row}
    (h : (s.disk.store t).Perm (gone ++ s'.disk.store t)) :
    removed t s s' = (gone : Multiset Row) := by
  unfold removed
  rw [Multiset.coe_eq_coe.2 h, ← Multiset.coe_add]
  exact Multiset.add_sub_cancel_right

/-- A step that only adds rows takes none. -/
theorem removed_of_le {s s' : State} {t : Table} (h : (s.disk.store t).Subperm (s'.disk.store t)) :
    removed t s s' = 0 := by
  apply Multiset.le_zero.1
  rw [removed, Multiset.sub_le_iff_le_add, Multiset.zero_add]
  exact Multiset.coe_le.2 h

theorem removed_of_eq {s s' : State} {t : Table} (h : s'.disk.store t = s.disk.store t) : removed t s s' = 0 :=
  removed_of_le (by rw [h])

/-- Only a turn takes rows away, and only of the table its loop is over. -/
theorem step_removed {s s' : State} {l : Label} (h : step env fromisoformat s l = some s') {t : Table} {x : Row}
    (hx : x ∈ removed t s s') :
    ∃ files late fate k n disk', l = .turn files late fate ∧ s.pass = some k ∧ k.table = t ∧
      env.turn (k.config fromisoformat files) k.deleted k.table s.disk = .got n disk' ∧
      (s'.disk = disk' ∨ fate.cut = some .between ∧ s'.disk = { s.disk with store := disk'.store }) := by
  obtain ⟨t', rows, rfl, hdisk⟩ | hdisk | ⟨files, late, fate, k, n, disk', hl, hk, hturn, hdisk⟩ := step_disk h
  · exfalso
    by_cases ht : t = t'
    · subst ht
      rw [removed_of_le (by rw [hdisk]; simp [Disk.set, (List.sublist_append_left _ rows).subperm])] at hx
      exact Multiset.notMem_zero x hx
    · rw [removed_of_eq (by rw [hdisk]; exact Function.update_of_ne ht ..)] at hx
      exact Multiset.notMem_zero x hx
  · rw [removed_of_eq (by rw [hdisk])] at hx
    exact absurd hx (Multiset.notMem_zero x)
  · refine ⟨files, late, fate, k, n, disk', hl, hk, ?_, hturn, hdisk⟩
    by_contra hne
    obtain ⟨_, _, _, _, _, _, _, hother⟩ := turn_got hturn
    have hstore : s'.disk.store = disk'.store := by
      obtain hdisk | ⟨_, hdisk⟩ := hdisk <;> rw [hdisk]
    rw [removed_of_eq (by rw [hstore]; exact hother t (Ne.symm hne))] at hx
    exact Multiset.notMem_zero x hx

/-! ## The passes of a run -/

/-- The pass that runs has a receipt directory. -/
def PassReceipts (s : State) : Prop := ∀ k, s.pass = some k → k.args.remoteReceiptDir = true

theorem leave_passReceipts {s : State} {k : Locals} {disk : Disk} (h : k.args.remoteReceiptDir = true) :
    PassReceipts (s.leave k disk) := by
  intro k' hk'
  unfold State.leave at hk'
  split at hk'
  · cases hk'
  · cases hk'
    exact h

theorem step_passReceipts {s s' : State} {l : Label} (h : PassReceipts s) (hok : WithReceipts s l)
    (hstep : step env fromisoformat s l = some s') : PassReceipts s' := by
  cases l with
  | insert t rows =>
    cases hstep
    exact h
  | call a =>
    simp only [step] at hstep
    split at hstep
    · cases hstep
    · split at hstep
      · cases hstep
        exact h
      · cases hstep
        intro k hk
        cases hk
        exact hok a rfl
  | turn files late fate =>
    obtain ⟨k, hk, rfl⟩ := Option.map_eq_some_iff.1 hstep
    have hargs := h k hk
    unfold turnStep
    split
    · exact fun k' hk' => by cases hk'
    · cases fate with
      | crashes cut => exact fun k' hk' => by cases hk'
      | raises cut => exact leave_passReceipts hargs
      | completes =>
        cases env.turn (k.config fromisoformat files) k.deleted k.table s.disk with
        | blocked reason => exact fun k' hk' => by cases hk'
        | exhausted => exact leave_passReceipts hargs
        | got n disk =>
          simp only
          split
          · exact leave_passReceipts hargs
          · intro k' hk'
            cases hk'
            exact hargs
  | crash =>
    cases hstep
    exact fun k hk => by cases hk

/-! ## One batch -/

theorem lt_of_lt_cutoff {c : Config} {ts : Int} (h : ts < c.cutoff) : ts < c.cutoffUs ∧ ∀ f, c.floorUs = some f →
    ts < f := by
  unfold Config.cutoff at h
  split at h
  · rename_i hnone
    exact ⟨h, fun f hf => by rw [hnone] at hf; cases hf⟩
  · rename_i f hf
    refine ⟨by omega, fun f' hf' => ?_⟩
    have := Option.some.inj (hf.symm.trans hf')
    omega

/-- The rows of a batch are proven. -/
theorem batch_proven {s : State} {k : Locals} (hargs : k.args.remoteReceiptDir = true) {files : List File} {n : Nat}
    {disk' : Disk} (hturn : env.turn (k.config fromisoformat files) k.deleted k.table s.disk = .got n disk') :
    ∃ gone : List Row, (s.disk.store k.table).Perm (gone ++ disk'.store k.table) ∧ n = gone.length ∧
      ∀ x ∈ gone, Proven env fromisoformat k.args files s.disk k.table x := by
  obtain ⟨f, hf, hcov, hdel, _⟩ := turn_covered (r := remoteVerifiedReceipts fromisoformat files)
    (by simp [Locals.config, Args.config, hargs]) hturn
  obtain ⟨gone, hperm, hn, hgone, _⟩ := hdel
  refine ⟨gone, hperm, hn, fun x hx => ?_⟩
  have hday : dayOf x.ts = f := dayOf_gone hf hperm hgone hx
  obtain ⟨hold, hfloor⟩ := @lt_of_lt_cutoff (k.config fromisoformat files) x.ts (by have := hgone x hx; omega)
  obtain ⟨proof, hget, hsame⟩ := hcov k.table
  obtain ⟨file, hfile, hjson, d, hdata, hverified⟩ := get_verified hget
  refine ⟨hold, hfloor, file, hfile, hjson, d, hdata, proof, ?_, ?_⟩
  · rw [hday]
    exact hverified
  · rw [hday]
    exact unchanged_iff.1 hsame

/-- A step changes a progress record only after a batch of its day. -/
theorem step_records {s s' : State} {l : Label} (hargs : PassReceipts s) (h : step env fromisoformat s l = some s')
    {t : Table}
    {day : Int} (hne : s.disk.progress t day ≠ s'.disk.progress t day) :
    ∃ left, s'.disk.progress t day = some left ∧ Records env t day left s s' := by
  obtain ⟨t', rows, rfl, hdisk⟩ | hdisk | ⟨files, late, fate, k, n, disk', rfl, hk, hturn, hdisk⟩ := step_disk h
  · exact absurd (by rw [hdisk]; rfl) hne
  · exact absurd (by rw [hdisk]) hne
  · obtain ⟨f, hf, _, hdel, hdisk'⟩ := turn_covered (r := remoteVerifiedReceipts fromisoformat files)
      (by simp [Locals.config, Args.config, hargs k hk]) hturn
    obtain hdone | ⟨_, hcut⟩ := hdisk
    · rw [← hdone] at hdisk' hdel
      obtain ⟨gone, hperm, hn, hgone, _⟩ := hdel
      by_cases hpos : 0 < n
      · rw [if_pos hpos] at hdisk'
        by_cases ht : t = k.table
        · subst ht
          by_cases hday : day = f
          · subst hday
            refine ⟨env.dayProof s'.disk.store k.table day, ?_, ?_, rfl⟩
            · rw [hdisk']
              simp [Env.writeProgress]
            · have hne : gone ≠ [] := List.ne_nil_of_length_pos (by omega)
              obtain ⟨y, hy⟩ := List.exists_mem_of_ne_nil gone hne
              exact ⟨y, by rw [removed_of_perm hperm]; exact hy, dayOf_gone hf hperm hgone hy⟩
          · exact absurd (by rw [hdisk']; simp [Env.writeProgress, hday]) hne
        · exact absurd (by rw [hdisk']; simp [Env.writeProgress, ht]) hne
      · rw [if_neg hpos] at hdisk'
        exact absurd (by rw [hdisk']) hne
    · exact absurd (by rw [hcut]) hne

/-! ## Every run -/

/-- **Retention never deletes unproven data**. -/
theorem deletes_only_proven {disk : Disk} {ls : List Label} {l : Label} {s s' : State}
    (hrun : Lts.Run (step env fromisoformat) WithReceipts (.init disk) ls s) (hok : WithReceipts s l)
    (hstep : step env fromisoformat s l = some s') {t : Table} {x : Row} (hx : x ∈ removed t s s') :
    (∃ files late fate k, l = .turn files late fate ∧ s.pass = some k ∧
      Proven env fromisoformat k.args files s.disk t x) ∧
      ∀ left, s.disk.progress t (dayOf x.ts) = some left → disk.progress t (dayOf x.ts) = some left ∨
        ∃ as a bs m m', ls = as ++ a :: bs ∧ Lts.Run (step env fromisoformat) WithReceipts (.init disk) as m ∧
          step env fromisoformat m a = some m' ∧ Records env t (dayOf x.ts) left m m' := by
  have hpass : ∀ {as : List Label} {m : State}, Lts.Run (step env fromisoformat) WithReceipts (.init disk) as m →
      PassReceipts m :=
    fun h => h.invariant (I := PassReceipts) (fun k hk => by cases hk) fun _ _ _ => step_passReceipts
  constructor
  · obtain ⟨files, late, fate, k, n, disk', rfl, hk, rfl, hturn, hdisk⟩ := step_removed hstep hx
    obtain ⟨gone, hperm, _, hproven⟩ := batch_proven (hpass hrun k hk) hturn
    have hstore : s'.disk.store = disk'.store := by
      obtain hdisk | ⟨_, hdisk⟩ := hdisk <;> rw [hdisk]
    rw [← hstore] at hperm
    rw [removed_of_perm hperm] at hx
    exact ⟨files, late, fate, k, rfl, hk, hproven x hx⟩
  · intro left hleft
    obtain hsame | ⟨as, a, bs, m, m', hls, has, _, hm, _, hne, hend⟩ :=
      hrun.origin fun s => s.disk.progress t (dayOf x.ts)
    · exact .inl (by rw [← hleft, hsame]; rfl)
    · obtain ⟨left', hleft', hrec⟩ := step_records (hpass has) hm hne
      obtain rfl : left' = left := Option.some.inj (hleft'.symm.trans (hend.trans hleft))
      exact .inr ⟨as, a, bs, m, m', hls, has, hm, hrec⟩

/-! ## A batch -/

/-- A digest of 64 digits that tells an odd number of rows from an even one. -/
def parityEnv : Env :=
  ⟨fun _ rows => String.ofList (List.replicate 64 (if rows.card % 2 = 0 then '0' else '1')), fun _ rows => rows,
    fun _ _ => .refl _⟩

def onlyDay (s : String) : Option Int := if s = "2026-07-19" then some 20653 else none

def oneRow : DayProof := ⟨1, String.ofList (List.replicate 64 '1')⟩

/-- The receipt of a day with one row. -/
def oneRowReceipt (t : Table) : RemoteArtifactReceipt :=
  let sha := String.ofList (List.replicate 64 'a')
  ⟨1, t.name, t.name, t.name, some t.name, some "2026-07-19", sha, 9, 1, sha, 9, 1, sha, sha, some t.name,
    some "2026-07-19",
    some (dayStartUs 20653), some (dayStartUs 20653 + dayUs), some 1, some oneRow.sha, "", "rclone", "verified"⟩

def receiptFiles : List File :=
  [⟨"trades.json", some (.dict (oneRowReceipt .trades).toJson)⟩,
    ⟨"book_top.json", some (.dict (oneRowReceipt .bookTop).toJson)⟩]

/-- The two receipts, one for each table. -/
def dayReceipts : Receipts := fun _ => [(20653, oneRow)]

/-- Two files, the receipts of the two tables. -/
theorem receipts_of_two {fromisoformat : String → Option Int} {f g : File} {a b : Value} {e : Int × DayProof}
    (hf : f.isJson = true) (hg : g.isJson = true) (hfa : f.data = some a) (hgb : g.data = some b)
    (ha : strictReceipt fromisoformat a .trades = some e) (ha' : strictReceipt fromisoformat a .bookTop = none)
    (hb : strictReceipt fromisoformat b .bookTop = some e) (hb' : strictReceipt fromisoformat b .trades = none) :
    remoteVerifiedReceipts fromisoformat [f, g] = fun _ => [e] := by
  funext t
  cases t <;> simp [remoteVerifiedReceipts, hf, hg, hfa, hgb, ha, ha', hb, hb']

theorem oneRowReceipt_strict (t : Table) :
    strictReceipt onlyDay (.dict (oneRowReceipt t).toJson) t = some (20653, oneRow) := by
  have hhex : ∀ c, isHexDigit c = true → isSha256 (String.ofList (List.replicate 64 c)) = true := by
    intro c hc
    simp [isSha256, hc]
  refine strictReceipt_iff.2 (toJson_verified ⟨rfl, rfl, ⟨rfl, rfl⟩, ⟨rfl, rfl⟩, ⟨rfl, hhex 'a' (by decide)⟩,
    ⟨rfl, hhex 'a' (by decide)⟩, ⟨rfl, Int.natCast_nonneg 9⟩, ⟨rfl, rfl, rfl⟩, ⟨rfl, hhex '1' (by decide)⟩,
      ⟨rfl, rfl⟩, ?_⟩
    (by simp [onlyDay]))
  cases t <;> decide

theorem oneRowReceipt_other {t o : Table} (hne : o ≠ t) :
    strictReceipt onlyDay (.dict (oneRowReceipt t).toJson) o = none := by
  cases hs : strictReceipt onlyDay (.dict (oneRowReceipt t).toJson) o with
  | none => rfl
  | some e =>
    have htable := (strictReceipt_iff.1 hs).table.1
    cases t <;> cases o <;> simp_all [oneRowReceipt, RemoteArtifactReceipt.toJson, Fields.get,
      Value.ofOption, Table.name]

theorem receiptFiles_read : remoteVerifiedReceipts onlyDay receiptFiles = dayReceipts :=
  receipts_of_two (by decide +kernel) (by decide +kernel) rfl rfl (oneRowReceipt_strict .trades)
    (oneRowReceipt_other (by decide))
    (oneRowReceipt_strict .bookTop) (oneRowReceipt_other (by decide))

def pruneDay : Args := ⟨true, dayStartUs 20660, some (dayStartUs 20654), true, false⟩

/-- The pass that begins on a day with one trade and one quote. -/
def begunPass : State := ⟨daysStored [20653], some ⟨pruneDay, .trades, [.bookTop], 0, [], 0⟩, none⟩

theorem begunPass_config (k : Locals) (h : k.args = pruneDay) :
    k.config onlyDay receiptFiles = pruneDay.config dayReceipts := by
  rw [Locals.config, h, receiptFiles_read]

/-- Its first turn. -/
theorem begunPass_step (fate : Fate) : step parityEnv onlyDay begunPass (.turn receiptFiles false fate) =
    some (turnStep parityEnv begunPass ⟨pruneDay, .trades, [.bookTop], 0, [], 0⟩ (pruneDay.config dayReceipts)
      false fate) := by
  rw [← begunPass_config ⟨pruneDay, .trades, [.bookTop], 0, [], 0⟩ rfl]
  rfl

theorem deletes_only_proven_batch :
    ∃ s', step parityEnv onlyDay begunPass (.turn receiptFiles false .completes) = some s' ∧
      (⟨dayStartUs 20653, "1"⟩ : Row) ∈ removed .trades begunPass s' ∧
      (∃ files late fate k, Label.turn receiptFiles false .completes = .turn files late fate ∧ begunPass.pass = some k ∧
        Proven parityEnv onlyDay k.args files begunPass.disk .trades ⟨dayStartUs 20653, "1"⟩) := by
  have hrun : Lts.Run (step parityEnv onlyDay) WithReceipts (.init (daysStored [20653])) [.call pruneDay] begunPass :=
    .cons (fun a h => by cases h; rfl) rfl (.nil _)
  have hx : (⟨dayStartUs 20653, "1"⟩ : Row) ∈ removed .trades begunPass
      (turnStep parityEnv begunPass ⟨pruneDay, .trades, [.bookTop], 0, [], 0⟩ (pruneDay.config dayReceipts) false
        .completes) := by
    decide +kernel
  exact ⟨_, begunPass_step .completes, hx,
    (deletes_only_proven hrun (fun a h => by cases h) (begunPass_step .completes) hx).1⟩

end Retention

import MarketFeed.Retention.Proven
/-!
# Taking a day up again (retention.py:344-376, :474-486)

A batch changes the digest of its day, and the progress written after it is what the next turn knows the day
by. `resumes_unless_cut`: as long as no turn is cut between the two, a day that was recognised stays so,
and a later pass deletes the rest of it. `interrupted_day_is_lost`: one crash between them, and every later
pass reports the day as changed.
-/

namespace Retention

variable {env : Env} {fromisoformat : String → Option Int} {r : Receipts} {D : Int → Prop}

/-- Both tables have a receipt for the day. -/
def Covered (r : Receipts) (d : Int) : Prop := ∀ t, (r.get t d).isSome = true

/-- What is stored of the day is what its receipts or its progress say. -/
def Recognised (env : Env) (r : Receipts) (disk : Disk) (d : Int) : Prop :=
  ∀ t proof, r.get t d = some proof → env.unchanged disk t d proof = true

/-- The day and the ones after it, as far as the receipts go without a gap, are among `D`. -/
def Among (r : Receipts) (D : Int → Prop) (d : Int) : Prop := ∀ e, d ≤ e → (∀ i, d ≤ i → i ≤ e → Covered r i) → D e

/-- What a later pass makes of the days in `D`. -/
structure Resumes (env : Env) (r : Receipts) (D : Int → Prop) (disk : Disk) : Prop where
  recognised : ∀ d, D d → Recognised env r disk d
  /-- A pass with time enough leaves no row of the oldest day that is old enough to go. -/
  deletes : ∀ late c res disk' d, c.receipts = some r → env.prune late c disk = some (res, disk') → c.enabled = true →
    (∀ f, c.floorUs = some f → 0 < f) → res.budgetHit = false → disk.store.floorDay = some d → Covered r d →
    Among r D d →
    ∀ t, ∀ x ∈ disk'.store t, dayOf x.ts = d → c.cutoff ≤ x.ts
  silent : (∀ d, Covered r d → D d) → ∀ late c res disk', c.receipts = some r →
    env.prune late c disk = some (res, disk') →
    res.blockedReason ≠ some .sourceDayChanged

/-- The receipts stay the same, and no rows come for the days in `D`. -/
structure SameReceipts (fromisoformat : String → Option Int) (r : Receipts) (D : Int → Prop) (l : Label) : Prop where
  given : ∀ a, l = .call a → a.remoteReceiptDir = true
  files : ∀ files late fate, l = .turn files late fate → remoteVerifiedReceipts fromisoformat files = r
  rows : ∀ t rows, l = .insert t rows → ∀ x ∈ rows, ¬ D (dayOf x.ts)

/-- No batch that deletes a row is cut off from its progress. -/
def Intact (env : Env) (fromisoformat : String → Option Int) (s : State) (l : Label) : Prop :=
  ∀ files late fate k n disk', l = .turn files late fate → fate.cut = some .between → s.pass = some k →
    env.turn (k.config fromisoformat files) k.deleted k.table s.disk = .got n disk' → n = 0

/-! ## What one turn keeps -/

/-- **A complete turn** leaves every recognised day recognised. -/
theorem turn_recognised {c : Config} (hr : c.receipts = some r) {deleted : List (Table × Nat)} {t : Table}
    {disk disk' : Disk}
    {n : Nat} (h : env.turn c deleted t disk = .got n disk') {d : Int} (hd : Recognised env r disk d) :
    Recognised env r disk' d := by
  obtain ⟨f, hf, _, ⟨gone, hperm, hn, hgone, _, hother⟩, hdisk⟩ := turn_covered hr h
  intro o proof hget
  have hold := hd o proof hget
  have hprogress : 0 < n → disk' = env.writeProgress ⟨disk'.store, disk.progress⟩ t f :=
    fun hpos => by rwa [if_pos hpos] at hdisk
  by_cases hday : o = t ∧ d = f ∧ 0 < n
  · -- the progress is the digest of what is left
    obtain ⟨rfl, rfl, hpos⟩ := hday
    refine unchanged_iff.2 (.inr ?_)
    rw [hprogress hpos]
    simp [Env.writeProgress]
  · rw [← unchanged_congr ?_ ?_ proof]
    · exact hold
    · apply dayProof_congr
      by_cases ho : o = t
      · subst ho
        have hnone : gone.filter (onDay d) = [] := by
          apply List.filter_eq_nil_iff.2
          intro x hx
          have hpos : 0 < n := by rw [hn]; exact List.length_pos_of_mem hx
          have hne : d ≠ f := fun he => hday ⟨rfl, he, hpos⟩
          simp [onDay, dayOf_gone hf hperm hgone hx, Ne.symm hne]
        have := hperm.filter (onDay d)
        rwa [List.filter_append, hnone, List.nil_append] at this
      · rw [hother o ho]
    · rw [hdisk]
      split
      · rename_i hpos
        by_cases ho : o = t
        · subst ho
          have hne : d ≠ f := fun he => hday ⟨rfl, he, hpos⟩
          simp [Env.writeProgress, hne]
        · simp [Env.writeProgress, ho]
      · rfl

/-- The walk stops with an error only at a day that is not recognised, and all days up to it are covered. -/
theorem walk_error {disk : Disk} {reason : Reason} :
    ∀ {fuel : Nat} {day : Int}, env.walk r disk fuel day = .error reason →
    reason = .sourceDayChanged ∧ ∃ e, day ≤ e ∧ (∀ i, day ≤ i → i ≤ e → Covered r i) ∧ ¬ Recognised env r disk e
  | 0, _, h => by cases h
  | fuel + 1, day, h => by
    obtain ⟨a, b, ha, hb, hw⟩ | ⟨_, hw⟩ := @walk_succ env r disk fuel day
    · rw [hw] at h
      have hcov : Covered r day := by
        rintro (_ | _)
        · simp [ha]
        · simp [hb]
      split at h
      · obtain ⟨hreason, e, hle, hall, hno⟩ := walk_error h
        refine ⟨hreason, e, by omega, fun i h1 h2 => ?_, hno⟩
        by_cases hi : i = day
        · rw [hi]
          exact hcov
        · exact hall i (by omega) h2
      · rename_i hchanged
        cases h
        refine ⟨rfl, day, Int.le_refl _, fun i h1 h2 => ?_, fun hrec => hchanged ?_⟩
        · rw [show i = day by omega]
          exact hcov
        · rw [Bool.and_eq_true]
          exact ⟨hrec _ _ ha, hrec _ _ hb⟩
    · rw [hw] at h
      cases h

/-- Where the oldest day is covered and no day on the way has changed, retention is allowed. -/
theorem retentionCutoff_ok {disk : Disk} {d : Int} (hf : disk.store.floorDay = some d) (hcov : Covered r d)
    (hrec : ∀ e, d ≤ e → (∀ i, d ≤ i → i ≤ e → Covered r i) → Recognised env r disk e) :
    ∃ remote, env.retentionCutoff r disk = .ok remote := by
  unfold Env.retentionCutoff
  simp only [hf, hcov .trades, hcov .bookTop, Bool.and_self, if_true]
  cases hw : env.walk r disk ((r .trades).length + 1) d with
  | ok last => exact ⟨_, rfl⟩
  | error reason =>
    obtain ⟨_, e, hle, hall, hno⟩ := walk_error hw
    exact absurd (hrec e hle hall) hno

theorem retentionCutoff_silent {disk : Disk} (hrec : ∀ d, Covered r d → Recognised env r disk d) :
    env.retentionCutoff r disk ≠ .error .sourceDayChanged := by
  intro h
  obtain ⟨_, hcut⟩ | ⟨f, _, hcut | ⟨_, _, hcut⟩⟩ := @retentionCutoff_cases env r disk
  · rw [hcut] at h
    cases h
  · rw [hcut] at h
    cases h
  · rw [hcut] at h
    cases hw : env.walk r disk ((r .trades).length + 1) f with
    | ok last => rw [hw] at h; cases h
    | error reason =>
      obtain ⟨_, e, hle, hall, hno⟩ := walk_error hw
      exact hno (hrec e (hall e hle (Int.le_refl _)))

theorem reason_sourceDayChanged {c : Config} {s : Store} {reason : Reason} (h : c.reason s reason = .sourceDayChanged) :
    reason = .sourceDayChanged := by
  unfold Config.reason at h
  split at h
  · split at h
    · cases h
    · exact h
  · exact h

/-- What it takes for a turn to be blocked. -/
theorem turn_blocked {c : Config} (hr : c.receipts = some r) {deleted : List (Table × Nat)} {t : Table} {disk : Disk}
    {reason : Reason} (h : env.turn c deleted t disk = .blocked reason) :
    ∃ why, env.retentionCutoff r disk = .error why ∧ reason = c.reason disk.store why := by
  simp only [Env.turn, hr] at h
  cases hcut : env.retentionCutoff r disk with
  | error why =>
    simp only [hcut] at h
    split at h
    · cases h
    · cases h
      exact ⟨why, rfl, rfl⟩
  | ok remote =>
    simp only [hcut] at h
    split at h <;> cases h

theorem turn_silent {c : Config} (hr : c.receipts = some r) {deleted : List (Table × Nat)} {t : Table} {disk : Disk}
    (hrec : ∀ d, Covered r d → Recognised env r disk d) : env.turn c deleted t disk ≠ .blocked .sourceDayChanged := by
  intro h
  obtain ⟨why, hcut, hreason⟩ := turn_blocked hr h
  rw [reason_sourceDayChanged hreason.symm] at hcut
  exact retentionCutoff_silent hrec hcut

/-! ## A later pass -/

/-- No row is of a day before `d`, and the days in `D` are recognised. -/
structure At (env : Env) (r : Receipts) (D : Int → Prop) (d : Int) (disk : Disk) : Prop where
  recognised : ∀ e, D e → Recognised env r disk e
  oldest : ∀ t, ∀ x ∈ disk.store t, d ≤ dayOf x.ts

/-- The rows of the day that are old enough have gone from `t`. -/
def DayGone (c : Config) (d : Int) (t : Table) (s : Store) : Prop := ∀ x ∈ s t, dayOf x.ts = d → c.cutoff ≤ x.ts

theorem mem_of_deletes {t : Table} {bound : Int} {n : Nat} {s s' : Store} (h : Deletes t bound n s s')
    (o : Table) {x : Row}
    (hx : x ∈ s' o) : x ∈ s o := by
  obtain ⟨gone, hperm, _, _, _, hother⟩ := h
  by_cases ho : o = t
  · subst ho
    exact hperm.mem_iff.2 (List.mem_append_right _ hx)
  · rwa [hother o ho] at hx

theorem turn_at {c : Config} (hr : c.receipts = some r) {deleted : List (Table × Nat)} {t : Table}
    {disk disk' : Disk} {n : Nat}
    (h : env.turn c deleted t disk = .got n disk') {d : Int} (hat : At env r D d disk) : At env r D d disk' := by
  obtain ⟨f, _, _, hdel, _⟩ := turn_covered hr h
  exact ⟨fun e he => turn_recognised hr h (hat.recognised e he),
    fun o x hx => hat.oldest o x (mem_of_deletes hdel o hx)⟩

/-- A batch that is not full has taken all there was to take of the day. -/
theorem dayGone_of_short {c : Config} (hr : c.receipts = some r) {deleted : List (Table × Nat)} {t : Table}
    {disk disk' : Disk}
    {n : Nat} (h : env.turn c deleted t disk = .got n disk') (hn : n < deleteBatch)
    {d : Int} (hat : At env r D d disk) :
    DayGone c d t disk'.store := by
  obtain ⟨f, hf, _, hdel, _⟩ := turn_covered hr h
  obtain ⟨⟨o, y, hy, hyf⟩, _⟩ := floorDay_spec hf
  have hdf : d ≤ f := hyf ▸ hat.oldest o y hy
  intro x hx hday
  have hbound := hdel.short hn x hx
  have hlt := dayOf_lt_iff.1 (show dayOf x.ts < f + 1 by omega)
  omega

/-- A pass is blocked only once the day is empty. -/
theorem dayGone_of_blocked {c : Config} (hr : c.receipts = some r) {deleted : List (Table × Nat)} {t : Table}
    {disk : Disk}
    {reason : Reason} (h : env.turn c deleted t disk = .blocked reason) {d : Int} (hcov : Covered r d)
    (hamong : Among r D d)
    (hat : At env r D d disk) (o : Table) : DayGone c d o disk.store := by
  obtain ⟨why, hcut, _⟩ := turn_blocked hr h
  intro x hx hday
  exfalso
  cases hf : disk.store.floorDay with
  | none =>
    rw [floorDay_none hf o] at hx
    cases hx
  | some f =>
    obtain ⟨⟨o', y, hy, hyf⟩, hfloor⟩ := floorDay_spec hf
    have h1 := hat.oldest o' y hy
    have h2 := hfloor o x hx
    obtain rfl : f = d := by omega
    obtain ⟨remote, hok⟩ := retentionCutoff_ok hf hcov fun e hle hall => hat.recognised e (hamong e hle hall)
    rw [hok] at hcut
    cases hcut

theorem tableLoop_resumes {late : Nat → Bool} {c : Config} (hr : c.receipts = some r)
    {deleted : List (Table × Nat)} {t : Table}
    {d : Int} (hcov : Covered r d) (hamong : Among r D d) : ∀ {fuel : Nat} {p p' : Pass} {ending : Ending},
    env.tableLoop late c deleted t fuel p = some (ending, p') → At env r D d p.disk →
      At env r D d p'.disk ∧ (∀ o, ∀ x ∈ p'.disk.store o, x ∈ p.disk.store o) ∧
        (ending = .done → DayGone c d t p'.disk.store) ∧
        ∀ reason, ending = .blocked reason → ∀ o, DayGone c d o p'.disk.store
  | 0, _, _, _, h, _ => by cases h
  | fuel + 1, p, p', ending, h, hat => by
    simp only [Env.tableLoop] at h
    split at h
    · cases h
      exact ⟨hat, fun _ _ hx => hx, fun he => (by cases he), fun _ he => (by cases he)⟩
    · cases hturn : env.turn c deleted t p.disk with
      | blocked reason =>
        simp only [hturn] at h
        cases h
        exact ⟨hat, fun _ _ hx => hx, fun he => (by cases he), fun _ _ => dayGone_of_blocked hr hturn hcov hamong hat⟩
      | exhausted =>
        simp only [hturn] at h
        cases h
        refine ⟨hat, fun _ _ hx => hx, fun _ x hx => ?_, fun _ he => (by cases he)⟩
        rw [floorDay_none (turn_exhausted hturn).2 t] at hx
        cases hx
      | got n disk =>
        simp only [hturn] at h
        obtain ⟨_, _, _, hdel, _⟩ := turn_covered hr hturn
        have hat' : At env r D d disk := turn_at hr hturn hat
        by_cases hn : n < deleteBatch
        · have hend : ending = .done ∧ p'.disk = disk := by
            split at h <;> cases h <;> exact ⟨rfl, rfl⟩
          rw [hend.1, hend.2]
          exact ⟨hat', mem_of_deletes hdel, fun _ => dayGone_of_short hr hturn hn hat, fun _ he => (by cases he)⟩
        · rw [if_neg (by rintro rfl; exact hn (by decide)), if_neg hn] at h
          obtain ⟨hat'', hsub, hdone, hblocked⟩ := tableLoop_resumes hr hcov hamong h hat'
          exact ⟨hat'', fun o x hx => mem_of_deletes hdel o (hsub o x hx), hdone, hblocked⟩

/-- Every table that has been gone through, and every one after it, ends without the day's old rows. -/
theorem tables_resume {late : Nat → Bool} {c : Config} (hr : c.receipts = some r) {d : Int} (hcov : Covered r d)
    (hamong : Among r D d) : ∀ {ts : List Table} {deleted : List (Table × Nat)} {batches : Nat} {disk disk' : Disk}
    {res : PruneResult},
    env.tables late c ts deleted batches disk = some (res, disk') → res.budgetHit = false → At env r D d disk →
      (∀ o, ∀ x ∈ disk'.store o, x ∈ disk.store o) ∧ ∀ t ∈ ts, DayGone c d t disk'.store := by
  intro ts
  induction ts with
  | nil =>
    intro deleted batches disk disk' res h _ _
    cases h
    exact ⟨fun _ _ hx => hx, fun t ht => (by cases ht)⟩
  | cons t ts ih =>
    intro deleted batches disk disk' res h hbudget hat
    obtain ⟨⟨ending, p⟩, hloop, h⟩ := Option.bind_eq_some_iff.1 h
    obtain ⟨hat', hsub, hdone, hblocked⟩ := tableLoop_resumes hr hcov hamong hloop hat
    cases ending with
    | budget =>
      cases h
      cases hbudget
    | blocked reason =>
      cases h
      exact ⟨hsub, fun o _ => hblocked reason rfl o⟩
    | done =>
      obtain ⟨hsub', hgone⟩ := ih h hbudget hat'
      refine ⟨fun o x hx => hsub o x (hsub' o x hx), fun o ho => ?_⟩
      rcases List.mem_cons.1 ho with rfl | ho
      · exact fun x hx => hdone rfl x (hsub' o x hx)
      · exact hgone o ho

theorem tableLoop_silent {late : Nat → Bool} {c : Config} (hr : c.receipts = some r)
    {deleted : List (Table × Nat)} {t : Table} :
    ∀ {fuel : Nat} {p p' : Pass} {ending : Ending}, env.tableLoop late c deleted t fuel p = some (ending, p') →
      (∀ d, Covered r d → Recognised env r p.disk d) →
        (∀ d, Covered r d → Recognised env r p'.disk d) ∧ ending ≠ .blocked .sourceDayChanged
  | 0, _, _, _, h, _ => by cases h
  | fuel + 1, p, p', ending, h, hrec => by
    simp only [Env.tableLoop] at h
    split at h
    · cases h
      exact ⟨hrec, fun he => (by cases he)⟩
    · cases hturn : env.turn c deleted t p.disk with
      | blocked reason =>
        simp only [hturn] at h
        cases h
        refine ⟨hrec, fun he => ?_⟩
        cases he
        exact turn_silent hr hrec hturn
      | exhausted =>
        simp only [hturn] at h
        cases h
        exact ⟨hrec, fun he => (by cases he)⟩
      | got n disk =>
        simp only [hturn] at h
        have hrec' : ∀ d, Covered r d → Recognised env r disk d := fun d hd => turn_recognised hr hturn (hrec d hd)
        split at h
        · cases h
          exact ⟨hrec', fun he => (by cases he)⟩
        · split at h
          · cases h
            exact ⟨hrec', fun he => (by cases he)⟩
          · exact tableLoop_silent hr h hrec'

theorem tables_silent {late : Nat → Bool} {c : Config} (hr : c.receipts = some r) : ∀ {ts : List Table}
    {deleted : List (Table × Nat)} {batches : Nat} {disk disk' : Disk} {res : PruneResult},
    env.tables late c ts deleted batches disk = some (res, disk') → (∀ d, Covered r d → Recognised env r disk d) →
      res.blockedReason ≠ some .sourceDayChanged := by
  intro ts
  induction ts with
  | nil =>
    intro deleted batches disk disk' res h _
    cases h
    exact fun he => (by cases he)
  | cons t ts ih =>
    intro deleted batches disk disk' res h hrec
    obtain ⟨⟨ending, p⟩, hloop, h⟩ := Option.bind_eq_some_iff.1 h
    obtain ⟨hrec', hend⟩ := tableLoop_silent hr hloop hrec
    cases ending with
    | budget =>
      cases h
      exact fun he => (by cases he)
    | blocked reason =>
      cases h
      exact fun he => hend (congrArg Ending.blocked (Option.some.inj he))
    | done => exact ih h hrec'

/-- `prune` with a receipt directory: a return before the first turn, or the tables. -/
theorem prune_cases {late : Nat → Bool} {c : Config} (hr : c.receipts = some r) {disk disk' : Disk} {res : PruneResult}
    (h : env.prune late c disk = some (res, disk')) :
    (res.blockedReason ≠ some .sourceDayChanged ∧ (c.enabled = false ∨ ∃ f, c.floorUs = some f ∧ f ≤ 0)) ∨
      env.tables late c pruneTables [] 0 disk = some (res, disk') := by
  unfold Env.prune at h
  split at h
  · rename_i hoff
    cases h
    exact .inl ⟨fun he => (by cases he), .inl hoff⟩
  · split at h
    · rename_i hnone
      rw [hr] at hnone
      cases hnone
    · rename_i f _ hf _
      split at h
      · rename_i hle
        cases h
        exact .inl ⟨fun he => (by cases he), .inr ⟨f, hf, hle⟩⟩
      · exact .inr h
    · exact .inr h

/-- **Recognised days are taken up again**. -/
theorem resumes_of_recognised {disk : Disk} (h : ∀ d, D d → Recognised env r disk d) : Resumes env r D disk := by
  refine ⟨h, ?_, ?_⟩
  · intro late c res disk' d hr hprune hon hfloor hbudget hd hcov hamong t
    obtain ⟨_, hoff | ⟨f, hf, hle⟩⟩ | htables := prune_cases hr hprune
    · rw [hon] at hoff
      cases hoff
    · have := hfloor f hf
      omega
    · exact (tables_resume hr hcov hamong htables hbudget ⟨h, (floorDay_spec hd).2⟩).2 t (mem_pruneTables t)
  · intro hall late c res disk' hr hprune
    obtain ⟨hno, _⟩ | htables := prune_cases hr hprune
    · exact hno
    · exact tables_silent hr htables fun d hd => h d (hall d hd)

/-! ## Every run without a cut batch -/

theorem step_recognised {s s' : State} {l : Label} (hpass : PassReceipts s) (hsame : SameReceipts fromisoformat r D l)
    (hintact : Intact env fromisoformat s l) (h : step env fromisoformat s l = some s') {d : Int} (hD : D d)
    (hd : Recognised env r s.disk d) : Recognised env r s'.disk d := by
  obtain ⟨t, rows, rfl, hdisk⟩ | hdisk | ⟨files, late, fate, k, n, disk', rfl, hk, hturn, hdisk⟩ := step_disk h
  · intro o proof hget
    have hproof : env.dayProof (s.disk.set t (s.disk.store t ++ rows)).store o d = env.dayProof s.disk.store o d :=
      dayProof_insert (fun x hx he => hsame.rows t rows rfl x hx (he ▸ hD)) o
    rw [hdisk, ← hd o proof hget]
    exact unchanged_congr hproof rfl proof
  · rw [hdisk]
    exact hd
  · have hr : (k.config fromisoformat files).receipts = some r := by
      simp [Locals.config, Args.config, hpass k hk, hsame.files files late fate rfl]
    have hkeeps : Recognised env r disk' d := turn_recognised hr hturn hd
    obtain hdone | ⟨hcut, hbetween⟩ := hdisk
    · rw [hdone]
      exact hkeeps
    · obtain rfl : n = 0 := hintact files late fate k n disk' rfl hcut hk hturn
      obtain ⟨_, _, _, _, hdisk'⟩ := turn_covered hr hturn
      rw [if_neg (by decide)] at hdisk'
      rw [hbetween, ← hdisk']
      exact hkeeps

/-- The last pass has not reported a changed day. -/
def Silent (s : State) : Prop := ∀ res, s.result = some res → res.blockedReason ≠ some .sourceDayChanged

theorem silent_of {s : State} {res : PruneResult} (h : s.result = some res)
    (hno : res.blockedReason ≠ some .sourceDayChanged) :
    Silent s := by
  intro res' h'
  obtain rfl : res = res' := Option.some.inj (h.symm.trans h')
  exact hno

theorem leave_silent {s : State} {k : Locals} {disk : Disk} (h : Silent s) : Silent (s.leave k disk) := by
  unfold State.leave
  split
  · exact silent_of rfl fun he => by cases he
  · exact h

theorem refused_silent {a : Args} {res : PruneResult} (h : a.refused = some res) :
    res.blockedReason ≠ some .sourceDayChanged := by
  unfold Args.refused at h
  intro he
  repeat' split at h
  all_goals
    cases h
    try cases he

theorem step_silent {s s' : State} {l : Label} (hpass : PassReceipts s) (hsame : SameReceipts fromisoformat r D l)
    (h : step env fromisoformat s l = some s') (hrec : ∀ d, Covered r d → Recognised env r s.disk d) (hs : Silent s) :
    Silent s' := by
  cases l with
  | insert t rows =>
    cases h
    exact hs
  | call a =>
    simp only [step] at h
    split at h
    · cases h
    · split at h
      · rename_i res hres
        cases h
        exact silent_of rfl (refused_silent hres)
      · cases h
        exact hs
  | turn files late fate =>
    obtain ⟨k, hk, rfl⟩ := Option.map_eq_some_iff.1 h
    have hr : (k.config fromisoformat files).receipts = some r := by
      simp [Locals.config, Args.config, hpass k hk, hsame.files files late fate rfl]
    unfold turnStep
    split
    · exact silent_of rfl fun he => by cases he
    · cases fate with
      | crashes cut => exact hs
      | raises cut => exact leave_silent hs
      | completes =>
        cases hturn : env.turn (k.config fromisoformat files) k.deleted k.table s.disk with
        | blocked reason =>
          refine silent_of rfl fun he => ?_
          cases he
          exact turn_silent hr hrec hturn
        | exhausted => exact leave_silent hs
        | got n disk =>
          simp only
          split
          · exact leave_silent hs
          · exact hs
  | crash =>
    cases h
    exact hs

theorem oneDay_recognised : ∀ d, d = 20653 → Recognised parityEnv dayReceipts (daysStored [20653]) d := by
  rintro d rfl t proof h
  obtain rfl : oneRow = proof := by simpa [dayReceipts, Receipts.get] using h
  cases t <;> decide +kernel

theorem sameReceipts_call : SameReceipts onlyDay dayReceipts (· = 20653) (.call pruneDay) :=
  ⟨fun a h => by cases h; rfl, fun _ _ _ h => (by cases h), fun _ _ h => (by cases h)⟩

theorem sameReceipts_crash : SameReceipts onlyDay dayReceipts (· = 20653) .crash :=
  ⟨fun a h => (by cases h), fun _ _ _ h => (by cases h), fun _ _ h => (by cases h)⟩

theorem sameReceipts_turn (fate : Fate) :
    SameReceipts onlyDay dayReceipts (· = 20653) (.turn receiptFiles false fate) :=
  ⟨fun a h => (by cases h), fun _ _ _ h => by cases h; exact receiptFiles_read, fun _ _ h => (by cases h)⟩

theorem begunPass_run : Lts.Run (step parityEnv onlyDay)
    (fun s l => SameReceipts onlyDay dayReceipts (· = 20653) l ∧ Intact parityEnv onlyDay s l)
    (.init (daysStored [20653]))
    [.call pruneDay] begunPass :=
  .cons ⟨sameReceipts_call, fun _ _ _ _ _ _ h => (by cases h)⟩ rfl (.nil _)

/-- What a crash between the first batch and its progress leaves. -/
def afterCrash : Disk := parityEnv.cutTurn (pruneDay.config dayReceipts) [] .trades (daysStored [20653]) .between

end Retention

import MarketFeed.Contest.Once
/-!
# A call that fails has not happened (contest.py:112-127)

`_tx` takes the lock and then begins, so that an error of `BEGIN` leaves the lock taken; an error of `COMMIT`
that does not end the transaction leaves it open; and `signup` and `place` read their row back after the commit,
where an error comes too late. `Label.harmless` excludes just these. Without them every failed call leaves
the ledger as it was, and a run ends where the calls that succeeded lead by themselves (`served`).
-/

namespace Contest

open Txn Lts

variable {H : Type}

/-- No error at `BEGIN`, none at `COMMIT` that leaves the transaction open, none after it. -/
def Label.harmless (l : Label) : Bool := l.faults.begin.isNone && (l.faults.commit.isNone || l.faults.ended) &&
    l.after.isNone

/-- The calls of a run that returned. -/
def served (hash : ChainHash H) (cfg : Cfg) : Guarded (Tables H) → List Label → List Label
  | _, [] => []
  | s, l :: ls =>
    match l.attempt hash cfg s with
    | some (.ok _, s') => l :: served hash cfg s' ls
    | some (.error _, s') => served hash cfg s' ls
    | none => []

section

variable {hash : ChainHash H} {cfg : Cfg} {t : Tables H} {s' : Guarded (Tables H)} {l : Label} {r : Except Err Answer}

/-- With no error at the row read back, the call is its transaction. -/
theorem attempt_eq (s : Guarded (Tables H)) (h : l.after = none) :
    l.attempt hash cfg s = attempt .sqlite l.faults (l.op.body hash cfg) s := by
  unfold Label.attempt
  split
  · rename_i a s' ha
    rw [h, ha]
    cases a.readsBack <;> rfl
  · rfl

/-- A harmless call fails and leaves everything as it was, or does what it does without errors. -/
theorem attempt_harmless (hl : l.harmless = true) (h : l.attempt hash cfg (free t) = some (r, s')) :
    (∃ e, r = .error e ∧ s' = free t) ∨
    ∃ a t', r = .ok a ∧ transact (l.op.body hash cfg) t = (.ok a, t') ∧ s' = free t' := by
  unfold Label.harmless at hl
  rw [Bool.and_eq_true, Bool.and_eq_true] at hl
  obtain ⟨⟨hbegin, hcommit⟩, hafter⟩ := hl
  rw [attempt_eq _ (Option.isNone_iff_eq_none.1 hafter)] at h
  rcases attempt_cases h with ⟨e, hb, -, -⟩ | ⟨-, ⟨e, rfl⟩, rfl⟩ | ⟨a, t', -, -, rfl, ht, rfl⟩ | ⟨e, a, t', -, hc,
    hended, -, -, -⟩
  · simp [hb] at hbegin
  · exact .inl ⟨e, rfl, rfl⟩
  · exact .inr ⟨a, t', rfl, ht, rfl⟩
  · simp [hc, hended] at hcommit

theorem attempt_isSome (l : Label) (t : Tables H) : ∃ r s', l.attempt hash cfg (free t) = some (r, s') := by
  obtain ⟨⟨r, s'⟩, ha⟩ := Option.isSome_iff_exists.1 (attempt_free .sqlite l.faults (l.op.body hash cfg) t)
  unfold Label.attempt
  rw [ha]
  cases r with
  | error e => exact ⟨_, _, rfl⟩
  | ok a =>
    simp only
    split <;> exact ⟨_, _, rfl⟩

/-- A call without errors is what `next` says it is. -/
theorem step_quiet (op : Op) : step hash cfg (free t) (quiet op) = (next hash cfg t op).map free := by
  rw [step, attempt_eq _ rfl, quiet, attempt_none]
  rfl

end

/-- **A failed call has not happened**: whatever fails in a run of harmless calls, the lock is free and no transaction
is open, the calls that returned lead to the same tables by themselves, free of errors, and the next harmless call is
carried out: as without errors, or else nothing has changed. -/
theorem failed_not_called (hash : ChainHash H) (cfg : Cfg) {t₀ : Tables H} {ls : List Label} {s : Guarded (Tables H)}
    (hrun : Run (step hash cfg) (fun _ l => l.harmless = true) (free t₀) ls s) :
    ∃ t, s = free t ∧ Run (next hash cfg) anyStep t₀ ((served hash cfg (free t₀) ls).map Label.op) t ∧
      ∀ l : Label, l.harmless = true → ∃ r s', l.attempt hash cfg s = some (r, s') ∧
        ((∃ e, r = .error e ∧ s' = s) ∨ ∃ a t', r = .ok a ∧ transact (l.op.body hash cfg) t = (.ok a, t') ∧
        s' = free t') := by
  generalize hs : free t₀ = s₀ at hrun
  induction hrun generalizing t₀ with
  | nil s =>
    subst hs
    refine ⟨t₀, rfl, .nil _, fun l hl => ?_⟩
    obtain ⟨r, s', ha⟩ := @attempt_isSome H hash cfg l t₀
    exact ⟨r, s', ha, attempt_harmless hl ha⟩
  | @cons s s₁ s₂ l ls hl hst hrun ih =>
    subst hs
    obtain ⟨⟨r, s'⟩, ha, rfl⟩ := Option.map_eq_some_iff.1 hst
    rcases attempt_harmless hl ha with ⟨e, rfl, rfl⟩ | ⟨a, t', rfl, ht, rfl⟩
    · obtain ⟨t, hst', hserved, hnext⟩ := ih rfl
      refine ⟨t, hst', ?_, hnext⟩
      rw [served, ha]
      exact hserved
    · obtain ⟨t, hst', hserved, hnext⟩ := ih rfl
      refine ⟨t, hst', ?_, hnext⟩
      rw [served, ha]
      refine .cons trivial ?_ hserved
      rw [next, ht]

/-- A buy by a participant, the disk full at the update of the cash, at the commit, then nothing wrong. -/
def fullDisk : List Label :=
  opening.map quiet ++
    [⟨orderOp 2 "a" "buy" 3 70100, ⟨none, fun i => if i = 4 then some .sqlite else none, none, false⟩, none⟩,
     ⟨orderOp 3 "a" "buy" 3 70100, ⟨none, noFault, some .sqlite, true⟩, none⟩,
     quiet (orderOp 4 "a" "buy" 3 70100)]

theorem failed_not_called_disk : ∃ t, Run (step linkHash defaultCfg) anyStep (free .empty) fullDisk (free t) ∧
    t.orders.length = 1 ∧
    Run (next linkHash defaultCfg) anyStep .empty ((served linkHash defaultCfg (free .empty) fullDisk).map Label.op) t ∧
      ∀ l : Label, l.harmless = true → ∃ r s', l.attempt linkHash defaultCfg (free t) = some (r, s') ∧
        ((∃ e, r = .error e ∧ s' = free t) ∨
          ∃ a t', r = .ok a ∧ transact (l.op.body linkHash defaultCfg) t = (.ok a, t') ∧ s' = free t') := by
  obtain ⟨s, hrun, hn⟩ : ∃ s, Run (step linkHash defaultCfg) (fun _ l => l.harmless = true) (free .empty) fullDisk s ∧
    s.conn.view.orders.length = 1 := exists_run (by decide +kernel)
  obtain ⟨t, rfl, hserved, hnext⟩ := failed_not_called linkHash defaultCfg hrun
  exact ⟨t, hrun.mono fun _ _ _ => trivial, hn, hserved, hnext⟩

/-- The database is locked at `BEGIN`: the lock stays taken, and the next call waits for ever. -/
def lockedOut : Label := ⟨orderOp 2 "a" "buy" 3 70100, ⟨some .sqlite, noFault, none, false⟩, none⟩

/-- The disk is full at `COMMIT`. -/
def leftOpen : Label := ⟨orderOp 2 "a" "buy" 3 70100, ⟨none, noFault, some .sqlite, false⟩, none⟩

/-- The order is committed, reading it back fails. -/
def tooLate : Label := ⟨orderOp 2 "a" "buy" 3 70100, .none, some .sqlite⟩

/-- The three ways a failed call is felt: a lock never released, a transaction never closed, tables that have changed.
-/
theorem failed_felt : ∃ s, Run (step linkHash defaultCfg) anyStep (free .empty) (opening.map quiet) s ∧
    ((step linkHash defaultCfg s lockedOut).any fun s₁ =>
      decide (s₁.locked = true ∧ step linkHash defaultCfg s₁ (quiet (orderOp 3 "b" "buy" 1 70100)) = none)) = true ∧
    ((step linkHash defaultCfg s leftOpen).any fun s₁ =>
      decide (s₁.conn.work.isSome = true ∧ s₁.conn.view ≠ s.conn.view) &&
        (step linkHash defaultCfg s₁ (quiet (orderOp 3 "b" "buy" 1 70100))).any fun s₂ => s₂.locked) = true ∧
    ((tooLate.attempt linkHash defaultCfg s).any fun (r, s₁) =>
      decide (r = .error .sqlite ∧ s₁.conn.committed ≠ s.conn.committed)) = true :=
  exists_run (by decide +kernel)

end Contest

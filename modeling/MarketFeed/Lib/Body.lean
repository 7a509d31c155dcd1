import MarketFeed.Lib.Txn
/-!
# A transaction under a lock, with errors anywhere

`Body δ ε α` is the code between `BEGIN` and `COMMIT`: statements one after another, each of which may
change the database or raise, and what the code does next may depend on what a statement read. `attempt`
runs a body on a connection guarded by a lock, the way a context manager does that takes the lock, begins,
and on leaving commits or rolls back and releases the lock. The database may raise on its own account at
`BEGIN`, at any statement and at `COMMIT` (`Faults`).
-/

namespace Txn

variable {δ ε α β : Type}

inductive Body (δ ε α : Type) where
  | ret (a : α)
  | raise (e : ε)
  | stmt (act : δ → Except ε δ) (next : δ → Body δ ε α)

/-- A statement that only reads. -/
def Body.read (next : δ → Body δ ε α) : Body δ ε α := .stmt .ok next

def Body.bind : Body δ ε α → (α → Body δ ε β) → Body δ ε β
  | .ret a, f => f a
  | .raise e, _ => .raise e
  | .stmt act next, f => .stmt act fun d => (next d).bind f

/-- Run a body; the database raises `fault i` at statement `i`. -/
def Body.run (fault : Nat → Option ε) : Nat → Body δ ε α → δ → Except ε α × δ
  | _, .ret a, d => (.ok a, d)
  | _, .raise e, d => (.error e, d)
  | i, .stmt act next, d =>
    match fault i with
    | some e => (.error e, d)
    | none =>
      match act d with
      | .error e => (.error e, d)
      | .ok d' => (next d').run fault (i + 1) d'

def noFault : Nat → Option ε := fun _ => none

/-- The whole transaction when the database raises nothing: all of the body, or none of it. -/
def transact (b : Body δ ε α) (d : δ) : Except ε α × δ :=
  match b.run noFault 0 d with
  | (.ok a, d') => (.ok a, d')
  | (.error e, _) => (.error e, d)

structure Guarded (δ : Type) where
  conn : Conn δ
  locked : Bool
  deriving DecidableEq

/-- No transaction open, the lock free. -/
def free (d : δ) : Guarded δ := ⟨idle d, false⟩

structure Faults (ε : Type) where
  begin : Option ε
  stmt : Nat → Option ε
  commit : Option ε
  /-- The error at `COMMIT` has ended the transaction. -/
  ended : Bool

def Faults.none : Faults ε := ⟨.none, noFault, .none, false⟩

/-- What the context manager does; `none` where the lock is never released. `nested` is the error of `BEGIN` inside a
transaction. An error at a statement may have ended the transaction: it is rolled back in either case. -/
def attempt (nested : ε) (F : Faults ε) (b : Body δ ε α) (s : Guarded δ) : Option (Except ε α × Guarded δ) :=
  if s.locked then none
  else
    match F.begin, s.conn.begin with
    | some e, _ => some (.error e, ⟨s.conn, true⟩)
    | .none, .none => some (.error nested, ⟨s.conn, true⟩)
    | .none, some c =>
      match b.run F.stmt 0 c.view with
      | (.error e, _) => some (.error e, ⟨c.rollback, false⟩)
      | (.ok a, d) =>
        match F.commit with
        | .none => some (.ok a, free d)
        | some e => some (.error e, ⟨if F.ended then c.rollback else ⟨c.committed, some d⟩, false⟩)

/-! ## Rules -/

section

variable {fault : Nat → Option ε} {nested : ε} {F : Faults ε} {d d' : δ} {a : α} {e : ε}

@[simp] theorem run_ret (i : Nat) : (Body.ret a : Body δ ε α).run fault i d = (.ok a, d) := rfl

@[simp] theorem run_raise (i : Nat) : (Body.raise e : Body δ ε α).run fault i d = (.error e, d) := rfl

theorem run_stmt_noFault (act : δ → Except ε δ) (next : δ → Body δ ε α) (i : Nat) (d : δ) :
    (Body.stmt act next).run noFault i d =
      match act d with
      | .error e => (.error e, d)
      | .ok d' => (next d').run noFault (i + 1) d' := by
  simp only [Body.run, noFault]

/-- Without faults the number of the statement does not matter. -/
theorem run_noFault (b : Body δ ε α) (i j : Nat) (d : δ) : b.run noFault i d = b.run noFault j d := by
  induction b generalizing i j d with
  | ret a => rfl
  | raise e => rfl
  | stmt act next ih =>
    rw [run_stmt_noFault, run_stmt_noFault]
    cases act d with
    | error e => rfl
    | ok d' => exact ih d' (i + 1) (j + 1) d'

/-- A body that runs through under faults does what it does without them. -/
theorem run_ok_noFault (b : Body δ ε α) {i : Nat} (h : b.run fault i d = (.ok a, d')) :
    b.run noFault i d = (.ok a, d') := by
  induction b generalizing i d with
  | ret a => exact h
  | raise e => exact h
  | stmt act next ih =>
    rw [run_stmt_noFault]
    simp only [Body.run] at h
    cases hf : fault i with
    | some e => simp [hf] at h
    | none =>
      simp only [hf] at h
      cases ha : act d with
      | error e => simp [ha] at h
      | ok d₁ =>
        simp only [ha] at h ⊢
        exact ih d₁ h

theorem transact_ok {b : Body δ ε α} {i : Nat} (h : b.run fault i d = (.ok a, d')) : transact b d = (.ok a, d') := by
  unfold transact
  rw [run_noFault b 0 i, run_ok_noFault b h]

theorem transact_error {b : Body δ ε α} (h : transact b d = (.error e, d')) : d' = d := by
  unfold transact at h
  split at h <;> cases h
  rfl

/-! A body that runs through, by its form. -/

/-- The body runs through from `d` with the result `a`, and leaves `d'`. -/
def Runs (b : Body δ ε α) (d : δ) (a : α) (d' : δ) : Prop := b.run noFault 0 d = (.ok a, d')

theorem transact_ok_iff {b : Body δ ε α} : transact b d = (.ok a, d') ↔ Runs b d a d' := by
  constructor
  · intro h
    unfold transact at h
    split at h
    · rename_i hr
      cases h
      exact hr
    · cases h
  · exact fun h => transact_ok h

theorem runs_ret {a' : α} : Runs (Body.ret a' : Body δ ε α) d a d' ↔ a = a' ∧ d' = d := by
  unfold Runs
  rw [run_ret, Prod.mk.injEq, Except.ok.injEq, eq_comm, @eq_comm _ d d']

theorem runs_raise : ¬Runs (Body.raise e : Body δ ε α) d a d' := by
  unfold Runs
  rw [run_raise]
  exact fun h => by cases h

theorem runs_stmt {act : δ → Except ε δ} {next : δ → Body δ ε α} :
    Runs (Body.stmt act next) d a d' ↔ ∃ d₁, act d = .ok d₁ ∧ Runs (next d₁) d₁ a d' := by
  unfold Runs
  rw [run_stmt_noFault]
  cases ha : act d with
  | error e =>
    constructor
    · intro h
      cases h
    · rintro ⟨d₁, h, _⟩
      cases h
  | ok d₁ =>
    constructor
    · exact fun h => ⟨d₁, rfl, (run_noFault (next d₁) 0 1 d₁).trans h⟩
    · rintro ⟨d₂, h, hr⟩
      cases h
      exact (run_noFault (next d₁) 1 0 d₁).trans hr

theorem runs_read {next : δ → Body δ ε α} : Runs (Body.read next) d a d' ↔ Runs (next d) d a d' := by
  unfold Body.read
  rw [runs_stmt]
  constructor
  · rintro ⟨d₁, h, hr⟩
    cases h
    exact hr
  · exact fun h => ⟨d, rfl, h⟩

theorem runs_bind {b : Body δ ε α} {f : α → Body δ ε β} {c : β} :
    Runs (b.bind f) d c d' ↔ ∃ a d₁, Runs b d a d₁ ∧ Runs (f a) d₁ c d' := by
  induction b generalizing d with
  | ret a =>
    simp only [Body.bind, runs_ret]
    constructor
    · exact fun h => ⟨a, d, ⟨rfl, rfl⟩, h⟩
    · rintro ⟨a', d₁, ⟨rfl, rfl⟩, h⟩
      exact h
  | raise e =>
    simp only [Body.bind, runs_raise, false_and, exists_false]
  | stmt act next ih =>
    simp only [Body.bind, runs_stmt, ih]
    constructor
    · rintro ⟨d₁, ha, a, d₂, hb, hf⟩
      exact ⟨a, d₂, ⟨d₁, ha, hb⟩, hf⟩
    · rintro ⟨a, d₂, ⟨d₁, ha, hb⟩, hf⟩
      exact ⟨d₁, ha, a, d₂, hb, hf⟩

/-! Attempts -/

/-- What an attempt from a free ledger can leave: it was refused at `BEGIN`, undone, done, or stuck at `COMMIT`. -/
theorem attempt_cases {b : Body δ ε α} {r : Except ε α} {s' : Guarded δ}
    (h : attempt nested F b (free d) = some (r, s')) :
    (∃ e, F.begin = some e ∧ r = .error e ∧ s' = ⟨idle d, true⟩) ∨
    (F.begin = none ∧ (∃ e, r = .error e) ∧ s' = free d) ∨
    (∃ a d', F.begin = none ∧ F.commit = none ∧ r = .ok a ∧ transact b d = (.ok a, d') ∧ s' = free d') ∨
    (∃ e a d', F.begin = none ∧ F.commit = some e ∧ F.ended = false ∧ r = .error e ∧ transact b d = (.ok a, d') ∧
      s' = ⟨⟨d, some d'⟩, false⟩) := by
  unfold attempt at h
  rw [if_neg (show ¬(free d).locked = true by simp [free])] at h
  cases hb : F.begin with
  | some e =>
    simp only [hb, Option.some.injEq, Prod.mk.injEq] at h
    obtain ⟨rfl, rfl⟩ := h
    exact .inl ⟨e, rfl, rfl, rfl⟩
  | none =>
    simp only [hb, free, idle_begin] at h
    cases hr : b.run F.stmt 0 d with
    | mk res d' =>
      simp only [Conn.view, Option.getD_some, hr] at h
      cases res with
      | error e =>
        simp only [Option.some.injEq, Prod.mk.injEq] at h
        obtain ⟨rfl, rfl⟩ := h
        exact .inr (.inl ⟨rfl, ⟨e, rfl⟩, rfl⟩)
      | ok a =>
        have ht := transact_ok hr
        cases hc : F.commit with
        | none =>
          simp only [hc, Option.some.injEq, Prod.mk.injEq] at h
          obtain ⟨rfl, rfl⟩ := h
          exact .inr (.inr (.inl ⟨a, d', rfl, rfl, rfl, ht, rfl⟩))
        | some e =>
          simp only [hc, Option.some.injEq, Prod.mk.injEq] at h
          obtain ⟨rfl, rfl⟩ := h
          cases he : F.ended with
          | true => exact .inr (.inl ⟨rfl, ⟨e, rfl⟩, rfl⟩)
          | false => exact .inr (.inr (.inr ⟨e, a, d', rfl, rfl, he ▸ rfl, rfl, ht, rfl⟩))

/-- Inside a transaction that was left open nothing is done any more, and the lock stays taken. -/
theorem attempt_open {b : Body δ ε α} {committed work : δ} {r : Except ε α} {s' : Guarded δ}
    (h : attempt nested F b ⟨⟨committed, some work⟩, false⟩ = some (r, s')) :
    (∃ e, r = .error e) ∧ s' = ⟨⟨committed, some work⟩, true⟩ := by
  unfold attempt at h
  rw [if_neg (by simp)] at h
  cases hb : F.begin with
  | some e =>
    simp only [hb, Option.some.injEq, Prod.mk.injEq] at h
    exact ⟨⟨e, h.1.symm⟩, h.2.symm⟩
  | none =>
    simp only [hb, Conn.begin, Option.some.injEq, Prod.mk.injEq] at h
    exact ⟨⟨nested, h.1.symm⟩, h.2.symm⟩

/-- Without faults an attempt is the transaction. -/
theorem attempt_none (nested : ε) (b : Body δ ε α) (d : δ) :
    attempt nested .none b (free d) = some ((transact b d).1, free (transact b d).2) := by
  unfold attempt transact
  rw [if_neg (show ¬(free d).locked = true by simp [free])]
  simp only [Faults.none, free, idle_begin, Conn.view, Option.getD_some]
  cases hr : b.run noFault 0 d with
  | mk res d' => cases res <;> rfl

/-- A free ledger never blocks. -/
theorem attempt_free (nested : ε) (F : Faults ε) (b : Body δ ε α) (d : δ) : (attempt nested F b (free d)).isSome := by
  unfold attempt
  rw [if_neg (show ¬(free d).locked = true by simp [free])]
  simp only [free, idle_begin]
  split
  · rfl
  · rename_i h
    cases h
  · split
    · rfl
    · split <;> rfl

end

end Txn

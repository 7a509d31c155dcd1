import MarketFeed.Contest.Ledger
/-!
# What an operation that runs through has done (contest.py:129-227)

One lemma per body. `place` either finds the order recorded, records a rejection, or fills it; `willFill`
says on the tables before the call that it fills.
-/

namespace Contest

open Keyed Txn

variable {H : Type} {hash : ChainHash H} {cfg : Cfg} {t t' : Tables H}

/-! ## Statements -/

theorem checked_ok {params : List ℤ} {act : Tables H → Except Err (Tables H)} :
    checked params act t = .ok t' ↔ params.all bindable = true ∧ act t = .ok t' := by
  unfold checked
  split
  · rename_i h
    exact ⟨fun ha => ⟨h, ha⟩, fun ha => ha.2⟩
  · rename_i h
    constructor
    · intro ha
      cases ha
    · exact fun ha => absurd ha.1 h

theorem runs_journal {ts : ℚ} {pid : ℤ} {detail : Detail} :
    Runs (journal hash ts pid detail) t () t' ↔ bindable pid = true ∧
      t' = insertLine hash (t.lastHash hash) ts pid detail t := by
  unfold journal
  rw [runs_read]
  simp only [runs_stmt, checked_ok, runs_ret, List.all_cons, List.all_nil, Bool.and_true, true_and]
  constructor
  · rintro ⟨d, ⟨hb, ha⟩, rfl⟩
    cases ha
    exact ⟨hb, rfl⟩
  · rintro ⟨hb, rfl⟩
    exact ⟨_, ⟨hb, rfl⟩, rfl⟩

/-! ## Invitations and participants -/

theorem runs_createInvites {codes : List (String × ℚ)} (h : Runs (createInvites codes) t () t') :
    ∃ invites, t' = { t with invites } := by
  induction codes generalizing t with
  | nil => exact ⟨t.invites, (runs_ret.1 h).2⟩
  | cons c codes ih =>
    obtain ⟨code, ts⟩ := c
    obtain ⟨d, hd, h⟩ := runs_stmt.1 h
    split at hd
    · cases hd
    · cases hd
      obtain ⟨invites, rfl⟩ := ih h
      exact ⟨invites, rfl⟩

theorem runs_signup {code nickname pwHash : String} {now ts : ℚ} {pid : ℤ}
    (h : Runs (signup hash cfg code nickname pwHash now ts) t pid t') :
    pid = nextId t.participantSeq (t.participants.map Participant.id) ∧ bindable cfg.initialCash = true ∧
      lookup Account.participantId pid t.accounts = none ∧
      t' = insertLine hash (t.lastHash hash) ts pid (.deposit cfg.initialCash)
        { t with
          participants := t.participants ++ [⟨pid, nickname, pwHash, now⟩]
          participantSeq := pid
          invites := (useInvite code pid now t).invites
          accounts := t.accounts ++ [⟨pid, .int cfg.initialCash⟩] } := by
  unfold signup at h
  rw [runs_read] at h
  split at h
  · exact absurd h runs_raise
  · rw [runs_read] at h
    split at h
    · exact absurd h runs_raise
    · obtain ⟨t₁, h₁, h⟩ := runs_stmt.1 h
      obtain ⟨t₂, h₂, h⟩ := runs_stmt.1 h
      obtain ⟨t₃, h₃, h⟩ := runs_stmt.1 h
      obtain ⟨_, t₄, h₄, h⟩ := runs_bind.1 h
      obtain ⟨rfl, rfl⟩ := runs_ret.1 h
      obtain ⟨-, rfl⟩ := runs_journal.1 h₄
      obtain ⟨hb, h₃⟩ := checked_ok.1 h₃
      simp only [insertParticipant] at h₁
      split at h₁
      · cases h₁
      · cases h₁
        cases h₂
        simp only [insertAccount] at h₃
        split at h₃
        · cases h₃
        · rename_i hnew
          cases h₃
          simp only [List.all_cons, List.all_nil, Bool.and_true, Bool.and_eq_true] at hb
          exact ⟨rfl, hb.2, Option.not_isSome_iff_eq_none.1 hnew, rfl⟩

/-! ## Orders -/

/-- What the participant holds of the symbol: quantity and cost. -/
def Tables.heldBy (t : Tables H) (r : Request) : ℤ × ℤ :=
  match lookup Position.key (r.pid, r.symbol) t.positions with
  | some p => (p.qty, p.cost)
  | none => (0, 0)

/-- The order row of a request. -/
def orderRow (cfg : Cfg) (r : Request) (id : ℤ) (reason : Option Reason) (ts : ℚ) : Order :=
  ⟨id, r.pid, r.clientOrderId, r.symbol, r.side, r.qty, r.price, r.amount, r.fee cfg, r.tax cfg,
    if reason.isSome then .rejected else .filled, reason, ts⟩

/-- The journal's detail of a fill. -/
def fillDetail (cfg : Cfg) (r : Request) (id delta : ℤ) : Fill :=
  ⟨id, r.symbol, r.side, r.qty, r.price, r.amount, r.fee cfg, r.tax cfg, delta⟩

def Tables.nextOrder (t : Tables H) : ℤ := nextId t.orderSeq (t.orders.map Order.id)

/-- The tables after an order is recorded. -/
def Tables.withOrder (cfg : Cfg) (r : Request) (reason : Option Reason) (ts : ℚ) (t : Tables H) : Tables H :=
  { t with orders := t.orders ++ [orderRow cfg r t.nextOrder reason ts], orderSeq := t.nextOrder }

/-- The tables after it is filled: `delta` to the cash, the new quantity and cost, a line. -/
def Tables.withFill (hash : ChainHash H) (cfg : Cfg) (r : Request) (now ts : ℚ) (t : Tables H) : Tables H :=
  let x := fillOf cfg r (t.heldBy r).1 (t.heldBy r).2
  insertLine hash (t.lastHash hash) ts r.pid (.fill (fillDetail cfg r t.nextOrder x.1))
    { t.withOrder cfg r none now with
      accounts := (updateCash r.pid x.1 t).accounts
      positions := upsert Position.key (fun _ p => p) t.positions ⟨r.pid, r.symbol, x.2.1, x.2.2⟩ }

/-- A request the table's checks accept, with parameters that can be bound. -/
structure Request.Accepted (cfg : Cfg) (r : Request) : Prop where
  side : r.side = "buy" ∨ r.side = "sell"
  qty : 0 < r.qty
  bound : [r.pid, r.qty, r.price, r.amount, r.fee cfg, r.tax cfg].all bindable = true

instance (cfg : Cfg) (r : Request) : Decidable (r.Accepted cfg) :=
  decidable_of_iff ((r.side = "buy" ∨ r.side = "sell") ∧ 0 < r.qty ∧
      [r.pid, r.qty, r.price, r.amount, r.fee cfg, r.tax cfg].all bindable = true)
    ⟨fun h => ⟨h.1, h.2.1, h.2.2⟩, fun h => ⟨h.side, h.qty, h.bound⟩⟩

/-- The call is a new order of a participant with an account that meets no reason for a rejection. -/
def willFill (cfg : Cfg) (t : Tables H) (r : Request) : Bool :=
  (lookup Order.clientKey (r.pid, r.clientOrderId) t.orders).isNone && decide (r.Accepted cfg) &&
    (lookup Account.participantId r.pid t.accounts).any fun a => (orderReason cfg r a.cash (t.heldBy r).1).isNone

/-- An order that fills leaves the participant's cash a 64-bit integer. -/
def Tables.fits (cfg : Cfg) (t : Tables H) : Op → Bool
  | .place r _ _ =>
    !willFill cfg t r || (lookup Account.participantId r.pid t.accounts).all fun a =>
      let cash : ℚ := a.cash.val + (fillOf cfg r (t.heldBy r).1 (t.heldBy r).2).1
      decide (((-MAX_INT - 1 : ℤ) : ℚ) ≤ cash ∧ cash ≤ (MAX_INT : ℚ))
  | _ => true

theorem Accepted_of_willFill {r : Request} (h : willFill cfg t r = true) : r.Accepted cfg := by
  unfold willFill at h
  rw [Bool.and_eq_true, Bool.and_eq_true] at h
  exact of_decide_eq_true h.1.2

/-- What `fits` says of a fill. -/
theorem bindable_of_fits {r : Request} {now ts : ℚ} {account : Account} {n : ℤ}
    (hfit : t.fits cfg (.place r now ts) = true)
    (hwill : willFill cfg t r = true) (hacc : lookup Account.participantId r.pid t.accounts = some account)
    (hn : account.cash = .int n) : bindable (n + (fillOf cfg r (t.heldBy r).1 (t.heldBy r).2).1) = true := by
  simp only [Tables.fits, hwill, hacc, hn, Bool.not_true, Bool.false_or, Option.all_some, decide_eq_true_eq,
    Cash.val_int] at hfit
  exact decide_eq_true ⟨by exact_mod_cast hfit.1, by exact_mod_cast hfit.2⟩

theorem insertOrder_ok {r : Request} {reason : Option Reason} {ts : ℚ} :
    checked [r.pid, r.qty, r.price, r.amount, r.fee cfg, r.tax cfg] (insertOrder cfg r reason ts) t = .ok t' ↔
      r.Accepted cfg ∧ lookup Order.clientKey (r.pid, r.clientOrderId) t.orders = none ∧
      t' = t.withOrder cfg r reason ts := by
  rw [checked_ok]
  simp only [insertOrder]
  constructor
  · rintro ⟨hb, h⟩
    split at h
    · rename_i hc
      cases h
      exact ⟨⟨hc.1, hc.2.1, hb⟩, Option.isNone_iff_eq_none.1 hc.2.2, rfl⟩
    · cases h
  · rintro ⟨ha, hn, rfl⟩
    refine ⟨ha.bound, ?_⟩
    rw [if_pos ⟨ha.side, ha.qty, Option.isNone_iff_eq_none.2 hn⟩]
    rfl

theorem runs_fillBody {r : Request} {now ts : ℚ} {p : Placed}
    (h : Runs (fillBody hash cfg r (t.heldBy r).1 (t.heldBy r).2 ts t.nextOrder) (t.withOrder cfg r none now) p t') :
    p = .created t.nextOrder ∧ 0 ≤ (fillOf cfg r (t.heldBy r).1 (t.heldBy r).2).2.1 ∧
      t' = t.withFill hash cfg r now ts := by
  unfold fillBody at h
  simp only at h
  obtain ⟨t₁, h₁, h⟩ := runs_stmt.1 h
  obtain ⟨t₂, h₂, h⟩ := runs_stmt.1 h
  obtain ⟨_, t₃, h₃, h⟩ := runs_bind.1 h
  obtain ⟨rfl, rfl⟩ := runs_ret.1 h
  obtain ⟨-, rfl⟩ := runs_journal.1 h₃
  cases (checked_ok.1 h₁).2
  have h₂ := (checked_ok.1 h₂).2
  simp only [upsertPosition] at h₂
  split at h₂
  · rename_i hq
    cases h₂
    exact ⟨rfl, hq, rfl⟩
  · cases h₂

/-- What `place` does when it runs through. -/
theorem runs_place {r : Request} {now ts : ℚ} {p : Placed} (h : Runs (place hash cfg r now ts) t p t') :
    (∃ row, lookup Order.clientKey (r.pid, r.clientOrderId) t.orders = some row ∧ p = .recorded row ∧ t' = t) ∨
    (∃ account reason, r.Accepted cfg ∧ lookup Order.clientKey (r.pid, r.clientOrderId) t.orders = none ∧
      lookup Account.participantId r.pid t.accounts = some account ∧
      orderReason cfg r account.cash (t.heldBy r).1 = some reason ∧ p = .created t.nextOrder ∧
      t' = t.withOrder cfg r (some reason) now) ∨
    (∃ account, lookup Account.participantId r.pid t.accounts = some account ∧
      orderReason cfg r account.cash (t.heldBy r).1 = none ∧ willFill cfg t r = true ∧ p = .created t.nextOrder ∧
      0 ≤ (fillOf cfg r (t.heldBy r).1 (t.heldBy r).2).2.1 ∧ t' = t.withFill hash cfg r now ts) := by
  unfold place at h
  obtain ⟨t₁, h₁, h⟩ := runs_stmt.1 h
  cases (checked_ok.1 h₁).2
  cases hrow : lookup Order.clientKey (r.pid, r.clientOrderId) t.orders with
  | some row =>
    simp only [hrow] at h
    obtain ⟨rfl, rfl⟩ := runs_ret.1 h
    exact .inl ⟨row, rfl, rfl, rfl⟩
  | none =>
    simp only [hrow] at h
    obtain ⟨t₁, h₁, h⟩ := runs_stmt.1 h
    cases (checked_ok.1 h₁).2
    cases hacc : lookup Account.participantId r.pid t.accounts with
    | none =>
      simp only [hacc] at h
      exact absurd h runs_raise
    | some account =>
      simp only [hacc] at h
      obtain ⟨t₁, h₁, h⟩ := runs_stmt.1 h
      cases (checked_ok.1 h₁).2
      have hheld : (lookup Position.key (r.pid, r.symbol) t.positions).elim 0 Position.qty = (t.heldBy r).1 ∧
          (lookup Position.key (r.pid, r.symbol) t.positions).elim 0 Position.cost = (t.heldBy r).2 := by
        unfold Tables.heldBy
        cases lookup Position.key (r.pid, r.symbol) t.positions <;> exact ⟨rfl, rfl⟩
      simp only [hheld.1, hheld.2] at h
      obtain ⟨t₁, h₁, h⟩ := runs_stmt.1 h
      obtain ⟨hok, -, rfl⟩ := insertOrder_ok.1 h₁
      cases hreason : orderReason cfg r account.cash (t.heldBy r).1 with
      | some reason =>
        simp only [hreason, Option.isSome_some, if_true] at h
        obtain ⟨rfl, rfl⟩ := runs_ret.1 h
        exact .inr (.inl ⟨account, reason, hok, rfl, rfl, hreason, rfl, rfl⟩)
      | none =>
        simp only [hreason, Option.isSome_none, Bool.false_eq_true, if_false] at h
        obtain ⟨hp, hq, ht⟩ := runs_fillBody h
        have hwill : willFill cfg t r = true := by simp [willFill, hrow, hacc, hreason, hok]
        exact .inr (.inr ⟨account, rfl, hreason, hwill, hp, hq, ht⟩)

/-! ## A call -/

/-- Neither accounts, positions, orders nor journal differ. -/
structure SameBooks (t t' : Tables H) : Prop where
  accounts : t'.accounts = t.accounts
  positions : t'.positions = t.positions
  orders : t'.orders = t.orders
  journal : t'.journal = t.journal

/-- Only `signup` and `place` touch the books. -/
theorem runs_body {op : Op} {a : Answer} (h : Runs (op.body hash cfg) t a t') :
    SameBooks t t' ∨
    (∃ code nickname pwHash now ts pid, Runs (signup hash cfg code nickname pwHash now ts) t pid t') ∨
    (∃ r now ts p, op = .place r now ts ∧ a = .placed p ∧ Runs (place hash cfg r now ts) t p t') := by
  cases op with
  | createInvites codes =>
    obtain ⟨_, d, hr, h⟩ := runs_bind.1 h
    obtain ⟨-, rfl⟩ := runs_ret.1 h
    obtain ⟨invites, rfl⟩ := runs_createInvites hr
    exact .inl ⟨rfl, rfl, rfl, rfl⟩
  | signup code nickname pwHash now ts =>
    obtain ⟨pid, d, hr, h⟩ := runs_bind.1 h
    obtain ⟨-, rfl⟩ := runs_ret.1 h
    exact .inr (.inl ⟨code, nickname, pwHash, now, ts, pid, hr⟩)
  | place r now ts =>
    obtain ⟨p, d, hr, h⟩ := runs_bind.1 h
    obtain ⟨ha, rfl⟩ := runs_ret.1 h
    exact .inr (.inr ⟨r, now, ts, p, rfl, ha, hr⟩)
  | halt reason =>
    obtain ⟨d, hd, h⟩ := runs_stmt.1 h
    obtain ⟨-, rfl⟩ := runs_ret.1 h
    cases hd
    exact .inl ⟨rfl, rfl, rfl, rfl⟩
  | resume =>
    obtain ⟨d, hd, h⟩ := runs_stmt.1 h
    obtain ⟨-, rfl⟩ := runs_ret.1 h
    cases hd
    exact .inl ⟨rfl, rfl, rfl, rfl⟩

theorem attempt_of_label {s s' : Guarded (Tables H)} {l : Label} {r : Except Err Answer}
    (h : l.attempt hash cfg s = some (r, s')) : ∃ r', attempt .sqlite l.faults (l.op.body hash cfg) s =
      some (r', s') := by
  unfold Label.attempt at h
  split at h
  · rename_i a s₁ ha
    refine ⟨.ok a, ?_⟩
    split at h <;> cases h <;> exact ha
  · exact ⟨r, h⟩

/-- `BEGIN` raises nothing: not on its own account, and not because a transaction is open. -/
def Label.begins (s : Guarded (Tables H)) (l : Label) : Bool := l.faults.begin.isNone && s.conn.work.isNone

/-- A call leaves the connection as it was, or has done its operation on it and committed, or left that uncommitted. -/
theorem step_cases {s s' : Guarded (Tables H)} {l : Label} (h : step hash cfg s l = some s') :
    (s'.conn = s.conn ∧ (l.begins s = true → s'.locked = false)) ∨
    ∃ a t', s.conn = idle s.conn.committed ∧ transact (l.op.body hash cfg) s.conn.committed = (.ok a, t') ∧
      (s' = free t' ∨ s' = ⟨⟨s.conn.committed, some t'⟩, false⟩) := by
  obtain ⟨⟨r, s₁⟩, ha, rfl⟩ := Option.map_eq_some_iff.1 h
  obtain ⟨r', ha⟩ := attempt_of_label ha
  obtain ⟨⟨d, work⟩, locked⟩ := s
  cases locked with
  | true =>
    simp only [attempt, if_true] at ha
    cases ha
  | false =>
    cases work with
    | some w =>
      rw [(attempt_open ha).2]
      exact .inl ⟨rfl, fun hb => absurd hb (by simp [Label.begins])⟩
    | none =>
      rcases attempt_cases ha with ⟨e, he, _, rfl⟩ | ⟨_, _, rfl⟩ | ⟨a, t', _, _, _, ht, rfl⟩ | ⟨e, a, t', _, _,
        _, _, ht, rfl⟩
      · exact .inl ⟨rfl, fun hb => absurd hb (by simp [Label.begins, he])⟩
      · exact .inl ⟨rfl, fun _ => rfl⟩
      · exact .inr ⟨a, t', rfl, ht, .inl rfl⟩
      · exact .inr ⟨a, t', rfl, ht, .inr rfl⟩

/-! Calls of the concrete runs. -/

/-- An order of participant 1 at second `n`. -/
def orderOp (n : ℕ) (cid side : String) (qty price : ℤ) : Op := .place ⟨1, cid, "005930", side, qty, price⟩ n n

/-- One participant. -/
def opening : List Op := [.createInvites [("k3vP", 0)], .signup "k3vP" "mina" "" 1 1]

end Contest

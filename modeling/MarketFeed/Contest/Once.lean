import MarketFeed.Contest.Fill
import MarketFeed.Lib.Run
/-!
# An order is placed once (contest.py:15-17, :179-227)

Calls one after another, none of which meets an error of SQLite (`next`). What a call of `place` returns and
changes is said by `Inserted` and `Moves`; `Counted` ties the quantities held to the orders filled.
-/

namespace Contest

open Keyed Txn Total Lts

variable {H : Type}

/-- A call with the lock free; one that raises is rolled back. -/
def next (hash : ChainHash H) (cfg : Cfg) (t : Tables H) (op : Op) : Option (Tables H) :=
  some (transact (op.body hash cfg) t).2

/-- What a filled order adds to its participant's cash. -/
def Request.cashDelta (cfg : Cfg) (r : Request) : ℤ :=
  if r.side = "buy" then -(r.amount + r.fee cfg) else r.amount - r.fee cfg - r.tax cfg

def Order.signedQty (o : Order) : ℤ := if o.side = "buy" then o.qty else -o.qty

/-- Quantity of a symbol bought by the participants `who`. -/
def bought (who : ℤ → Bool) (symbol : String) (t : Tables H) : ℤ :=
  total (fun o => who o.participantId && decide (o.symbol = symbol) && decide (o.side = "buy")) Order.qty t.filled

def sold (who : ℤ → Bool) (symbol : String) (t : Tables H) : ℤ :=
  total (fun o => who o.participantId && decide (o.symbol = symbol) && decide (o.side = "sell")) Order.qty t.filled

/-- The call has inserted `row`, and returns it. -/
structure Inserted (cfg : Cfg) (r : Request) (now : ℚ) (oid : ℤ) (row : Order) (t t' : Tables H) : Prop where
  unseen : lookup Order.clientKey (r.pid, r.clientOrderId) t.orders = none
  asked : ∃ reason, row = orderRow cfg r oid reason now
  orders : t'.orders = t.orders ++ [row]
  returned : lookup Order.id oid t'.orders = some row
  others : t'.participants = t.participants ∧ t'.invites = t.invites ∧ t'.halted = t.halted

/-- Money and shares move: the cash of the participant by `delta`, the position of the symbol, one line of the
journal. -/
structure Moves (r : Request) (delta : ℤ) (t t' : Tables H) : Prop where
  cash : ∃ n : ℤ, lookup Account.participantId r.pid t.accounts = some ⟨r.pid, .int n⟩ ∧
    lookup Account.participantId r.pid t'.accounts = some ⟨r.pid, .int (n + delta)⟩
  accounts : ∀ pid, pid ≠ r.pid →
    lookup Account.participantId pid t'.accounts = lookup Account.participantId pid t.accounts
  position : (t'.holding (r.pid, r.symbol)).1 =
    (t.holding (r.pid, r.symbol)).1 + if r.side = "buy" then r.qty else -r.qty
  positions : ∀ k, k ≠ (r.pid, r.symbol) → lookup Position.key k t'.positions = lookup Position.key k t.positions
  journal : ∃ j, t'.journal = t.journal ++ [j]

structure Counted (t : Tables H) : Prop where
  accounts : (t.accounts.map Account.participantId).Nodup
  cash : ∀ a ∈ t.accounts, ∃ n, a.cash = .int n
  positions : ∀ p ∈ t.positions, 0 ≤ p.qty
  orders : ∀ o ∈ t.orders, bindable o.participantId = true ∧ (o.side = "buy" ∨ o.side = "sell")
  qty : ∀ k, (t.holding k).1 = total (fun o => decide ((o.participantId, o.symbol) = k)) Order.signedQty t.filled

section

variable {hash : ChainHash H} {cfg : Cfg} {t t' : Tables H} {r : Request} {now ts : ℚ}

/-! ## One call -/

theorem fillOf_cashDelta (held cost : ℤ) : (fillOf cfg r held cost).1 = r.cashDelta cfg := by
  unfold fillOf Request.cashDelta
  split <;> rfl

theorem fillOf_qty (held cost : ℤ) : (fillOf cfg r held cost).2.1 = held + if r.side = "buy" then r.qty
    else -r.qty := by
  unfold fillOf
  split
  · rfl
  · exact Int.sub_eq_add_neg

/-- An order recorded is found again, whatever else the call asks for. -/
theorem place_recorded {row : Order} (hrow : lookup Order.clientKey (r.pid, r.clientOrderId) t.orders = some row)
    (hb : bindable r.pid = true) : transact (place hash cfg r now ts) t = (.ok (.recorded row), t) := by
  refine transact_ok_iff.2 (runs_stmt.2 ⟨t, checked_ok.2 ⟨by simp [hb], rfl⟩, ?_⟩)
  rw [hrow]
  exact runs_ret.2 ⟨rfl, rfl⟩

theorem inserted_withOrder (reason : Option Reason)
    (hn : lookup Order.clientKey (r.pid, r.clientOrderId) t.orders = none) :
    Inserted cfg r now t.nextOrder (orderRow cfg r t.nextOrder reason now) t (t.withOrder cfg r reason now) where
  unseen := hn
  asked := ⟨reason, rfl⟩
  orders := rfl
  returned := by
    have hnone : lookup Order.id t.nextOrder t.orders = none := by
      rw [← Option.not_isSome_iff_eq_none, ← mem_keys_iff]
      exact fun h => absurd ((lt_nextId t.orderSeq _).2 _ h) (lt_irrefl _)
    show lookup Order.id t.nextOrder (t.orders ++ [orderRow cfg r t.nextOrder reason now]) = _
    rw [lookup_append_single, hnone]
    exact if_pos rfl
  others := ⟨rfl, rfl, rfl⟩

theorem moves_withFill {account : Account} {n : ℤ}
    (hacc : lookup Account.participantId r.pid t.accounts = some account) (hn : account.cash = .int n)
    (hb : bindable (n + (fillOf cfg r (t.heldBy r).1 (t.heldBy r).2).1) = true) :
    Moves r (r.cashDelta cfg) t (t.withFill hash cfg r now ts) := by
  rw [fillOf_cashDelta] at hb
  have haccs : (t.withFill hash cfg r now ts).accounts = (updateCash r.pid (r.cashDelta cfg) t).accounts := by
    rw [← fillOf_cashDelta (t.heldBy r).1 (t.heldBy r).2]
    rfl
  have haccount : account = ⟨r.pid, .int n⟩ := by rw [← hn, ← key_of_lookup hacc]
  have hlookup : ∀ pid, lookup Account.participantId pid (updateCash r.pid (r.cashDelta cfg) t).accounts =
      (lookup Account.participantId pid t.accounts).map fun a =>
        if a.participantId = r.pid then { a with cash := a.cash.add (r.cashDelta cfg) } else a :=
    fun pid => lookup_map (fun a => by split <;> rfl) pid t.accounts
  refine ⟨⟨n, haccount ▸ hacc, ?_⟩, ?_, ?_, ?_, ⟨_, journal_withFill⟩⟩
  · rw [haccs, hlookup, hacc, haccount, Option.map_some, if_pos rfl, Cash.add_int hb]
  · intro pid hpid
    rw [haccs, hlookup]
    cases ha : lookup Account.participantId pid t.accounts with
    | none => rfl
    | some a => rw [Option.map_some, if_neg (fun he => hpid ((key_of_lookup ha).symm.trans he))]
  · rw [holding_withFill, if_pos rfl, fillOf_qty]
    rfl
  · intro k hk
    show lookup Position.key k (upsert Position.key (fun _ p => p) t.positions _) = _
    rw [lookup_replace]
    exact if_neg fun he => hk he.symm

/-! ## Any call -/

theorem Counted.frame (h : Counted t) (ha : t'.accounts = t.accounts) (hp : t'.positions = t.positions)
    (ho : t'.orders = t.orders) : Counted t' := by
  refine ⟨ha ▸ h.accounts, ha ▸ h.cash, hp ▸ h.positions, ho ▸ h.orders, fun k => ?_⟩
  have := h.qty k
  rwa [Tables.filled, ho, Tables.holding, hp]

theorem Counted.signup (h : Counted t) {code nickname pwHash : String} {pid : ℤ}
    (hr : Runs (Contest.signup hash cfg code nickname pwHash now ts) t pid t') : Counted t' := by
  obtain ⟨-, -, hnew, ht⟩ := runs_signup hr
  have ha : t'.accounts = t.accounts ++ [⟨pid, .int cfg.initialCash⟩] := by rw [ht]; rfl
  have hp : t'.positions = t.positions := by rw [ht]; rfl
  have ho : t'.orders = t.orders := by rw [ht]; rfl
  refine ⟨?_, ?_, hp ▸ h.positions, ho ▸ h.orders, fun k => ?_⟩
  · rw [ha, List.map_append, List.nodup_append]
    refine ⟨h.accounts, List.nodup_singleton _, ?_⟩
    intro i hi i' hi' he
    rw [List.mem_singleton.1 hi'] at he
    rw [he, mem_keys_iff] at hi
    exact absurd hi (by rw [hnew]; exact Bool.false_ne_true)
  · rw [ha]
    intro a hmem
    rcases List.mem_append.1 hmem with hmem | hmem
    · exact h.cash a hmem
    · rw [List.mem_singleton.1 hmem]
      exact ⟨_, rfl⟩
  · have := h.qty k
    rwa [Tables.filled, ho, Tables.holding, hp]

theorem Counted.withOrder (h : Counted t) (hok : r.Accepted cfg) (reason : Reason) :
    Counted (t.withOrder cfg r (some reason) now) := by
  refine ⟨h.accounts, h.cash, h.positions, ?_, fun k => ?_⟩
  · intro o ho
    rcases List.mem_append.1 ho with ho | ho
    · exact h.orders o ho
    · rw [List.mem_singleton.1 ho]
      exact ⟨List.all_eq_true.1 hok.bound _ List.mem_cons_self, hok.side⟩
  · rw [filled_withOrder]
    exact (h.qty k).trans (congrArg _ (List.append_nil _).symm)

theorem Counted.withFill (h : Counted t) (hok : r.Accepted cfg) {account : Account} {n : ℤ}
    (hacc : lookup Account.participantId r.pid t.accounts = some account) (hn : account.cash = .int n)
    (hb : bindable (n + (fillOf cfg r (t.heldBy r).1 (t.heldBy r).2).1) = true)
    (hq : 0 ≤ (fillOf cfg r (t.heldBy r).1 (t.heldBy r).2).2.1) : Counted (t.withFill hash cfg r now ts) := by
  refine ⟨?_, ?_, ?_, ?_, fun k => ?_⟩
  · show ((updateCash r.pid _ t).accounts.map Account.participantId).Nodup
    rw [map_updateCash]
    exact h.accounts
  · intro a ha
    rcases mem_updateCash h.accounts hacc ha with rfl | ⟨ha, -⟩
    · exact ⟨_, by rw [hn, Cash.add_int hb]⟩
    · exact h.cash a ha
  · intro p hp
    rcases mem_upsert hp with hp | rfl | ⟨_, _, rfl⟩
    · exact h.positions p hp
    · exact hq
    · exact hq
  · intro o ho
    rcases List.mem_append.1 ho with ho | ho
    · exact h.orders o ho
    · rw [List.mem_singleton.1 ho]
      exact ⟨List.all_eq_true.1 hok.bound _ List.mem_cons_self, hok.side⟩
  · have hf : (t.withFill hash cfg r now ts).filled = t.filled ++ [orderRow cfg r t.nextOrder none now] :=
      @filled_withOrder H cfg r t now none
    have hkey : ((orderRow cfg r t.nextOrder none now).participantId, (orderRow cfg r t.nextOrder none now).symbol) =
      (r.pid, r.symbol) := rfl
    rw [hf, total_append, total_cons, total_nil, add_zero, ← h.qty k, holding_withFill, hkey]
    simp only [decide_eq_true_eq]
    by_cases hk : (r.pid, r.symbol) = k
    · rw [if_pos hk, if_pos hk, fillOf_qty, ← hk]
      rfl
    · rw [if_neg hk, if_neg hk, add_zero]

theorem Counted.body (h : Counted t) {op : Op} (hfit : t.fits cfg op = true) {a : Answer}
    (hr : Runs (op.body hash cfg) t a t') : Counted t' := by
  rcases runs_body hr with hsame | ⟨_, _, _, _, _, _, hr⟩ | ⟨r, now, ts, p, rfl, -, hr⟩
  · exact h.frame hsame.accounts hsame.positions hsame.orders
  · exact h.signup hr
  · rcases runs_place hr with ⟨_, _, _, rfl⟩ | ⟨_, reason, hok, _, _, _, _, rfl⟩ | ⟨account, hacc, _, hwill, _, hq, rfl⟩
    · exact h
    · exact h.withOrder hok reason
    · obtain ⟨n, hn⟩ := h.cash account (mem_of_lookup hacc)
      exact h.withFill (Accepted_of_willFill hwill) hacc hn (bindable_of_fits hfit hwill hacc hn) hq

/-! ## Any run -/

theorem Counted.next (h : Counted t) {op : Op} (hfit : t.fits cfg op = true) (hn : next hash cfg t op = some t') :
    Counted t' := by
  cases hn
  cases hr : transact (op.body hash cfg) t with
  | mk res t' =>
    cases res with
    | ok a => exact h.body hfit (transact_ok_iff.1 hr)
    | error e => exact (transact_error hr) ▸ h

/-- Orders are only added. -/
theorem orders_next {op : Op} (hn : next hash cfg t op = some t') : t.orders <+: t'.orders := by
  cases hn
  cases hr : transact (op.body hash cfg) t with
  | mk res t' =>
    cases res with
    | error e => exact (transact_error hr) ▸ List.prefix_refl _
    | ok a =>
      rcases runs_body (transact_ok_iff.1 hr) with hsame | ⟨_, _, _, _, _, _, hr⟩ | ⟨r, now, ts, p, rfl, -, hr⟩
      · exact hsame.orders ▸ List.prefix_refl _
      · obtain ⟨-, -, -, rfl⟩ := runs_signup hr
        exact List.prefix_refl _
      · rcases runs_place hr with ⟨_, _, _, rfl⟩ | ⟨_, _, _, _, _, _, _, rfl⟩ | ⟨_, _, _, _, _, _, rfl⟩
        · exact List.prefix_refl _
        · exact List.prefix_append _ _
        · exact List.prefix_append _ _

theorem orders_run {ok : Tables H → Op → Prop} {ls : List Op} (h : Run (Contest.next hash cfg) ok t ls t') :
    t.orders <+: t'.orders :=
  h.invariant (I := fun s => t.orders <+: s.orders) (List.prefix_refl _) fun _ _ _ hs _ hn => hs.trans (orders_next hn)

theorem lookup_of_isPrefix {α κ : Type} [DecidableEq κ] {key : α → κ} {k : κ} {rows rows' : List α} {x : α}
    (h : rows <+: rows') (hx : lookup key k rows = some x) : lookup key k rows' = some x := by
  obtain ⟨more, rfl⟩ := h
  unfold lookup at hx ⊢
  rw [List.find?_append, hx]
  rfl

theorem total_signedQty (p : Order → Bool) {os : List Order} (h : ∀ o ∈ os, o.side = "buy" ∨ o.side = "sell") :
    total p Order.signedQty os =
      total (fun o => p o && decide (o.side = "buy")) Order.qty os - total (fun o => p o && decide (o.side = "sell"))
        Order.qty os := by
  induction os with
  | nil => rfl
  | cons o os ih =>
    rw [total_cons, total_cons, total_cons, ih fun x hx => h x (List.mem_cons_of_mem o hx)]
    unfold Order.signedQty
    rcases h o List.mem_cons_self with hs | hs
    · cases p o
      · simp
      · simp [hs]
        omega
    · cases p o
      · simp
      · simp [hs]
        omega

/-- What is held was bought and not sold. -/
theorem Counted.sold_le (h : Counted t) (who : ℤ → Bool) (symbol : String) :
    sold who symbol t ≤ bought who symbol t := by
  let p : Order → Bool := fun o => who o.participantId && decide (o.symbol = symbol)
  have hsplit : total p Order.signedQty t.filled = bought who symbol t - sold who symbol t :=
    total_signedQty p fun o ho => (h.orders o (List.mem_of_mem_filter ho)).2
  have hnonneg : 0 ≤ total p Order.signedQty t.filled := by
    refine total_nonneg_of_groups Order.participantId _ fun c => ?_
    by_cases hc : who c = true
    · have hgroup : total (fun o => p o && decide (o.participantId = c)) Order.signedQty t.filled =
          (t.holding (c, symbol)).1 := by
        rw [h.qty]
        refine total_congr fun o _ => ?_
        by_cases ho : o.participantId = c
        · simp [p, ho, hc]
        · simp [ho]
      rw [hgroup]
      unfold Tables.holding
      cases hl : lookup Position.key (c, symbol) t.positions with
      | none => exact le_refl 0
      | some x => exact h.positions x (mem_of_lookup hl)
    · rw [total_eq_zero]
      intro o _
      by_cases ho : o.participantId = c
      · simp [p, ho, hc]
      · simp [ho]
  omega

end

/-- **Orders are placed once**: after a run from the empty ledger, a request whose key is recorded gets that row back
now and ever after, and changes nothing; one that records a rejection moves nothing; one that fills moves the
participant's cash, one position and adds a line; one that raises changes nothing; and nobody has sold what was not
bought. The cash has to stay a 64-bit integer. -/
theorem placed_once (hash : ChainHash H) (cfg : Cfg) {ops : List Op} {t : Tables H}
    (hrun : Run (next hash cfg) (fun t op => t.fits cfg op = true) .empty ops t) (r : Request) (now ts : ℚ)
    (hfit : t.fits cfg (.place r now ts) = true) :
    (∀ row ops' t', lookup Order.clientKey (r.pid, r.clientOrderId) t.orders = some row →
      Run (next hash cfg) anyStep t ops' t' → transact (place hash cfg r now ts) t' = (.ok (.recorded row), t')) ∧
    (∀ oid t', transact (place hash cfg r now ts) t = (.ok (.created oid), t') →
      ∃ row, Inserted cfg r now oid row t t' ∧
        ((row.state = .rejected ∧ t'.accounts = t.accounts ∧ t'.positions = t.positions ∧ t'.journal = t.journal) ∨
          (row.state = .filled ∧ Moves r (r.cashDelta cfg) t t'))) ∧
    (∀ e t', transact (place hash cfg r now ts) t = (.error e, t') → t' = t) ∧
    ∀ who symbol, sold who symbol t ≤ bought who symbol t := by
  have h : Counted t := by
    refine hrun.invariant (I := Counted) ⟨List.nodup_nil, fun a ha => (by cases ha), fun p hp => (by cases hp),
      fun o ho => (by cases ho), fun k => rfl⟩ ?_
    exact fun s op s' hs hok hn => hs.next hok hn
  refine ⟨?_, ?_, fun e t' he => transact_error he, h.sold_le⟩
  · intro row ops' t' hrow hlater
    have hb := (h.orders row (mem_of_lookup hrow)).1
    have hpid : row.participantId = r.pid := congrArg Prod.fst (key_of_lookup hrow)
    exact place_recorded (lookup_of_isPrefix (orders_run hlater) hrow) (hpid ▸ hb)
  · intro oid t' hp
    rcases runs_place (transact_ok_iff.1 hp) with ⟨_, _, hc, _⟩ | ⟨_, reason, _, hn, _, _, hc, rfl⟩ |
      ⟨account, hacc, _, hwill, hc, _, rfl⟩
    · cases hc
    · cases hc
      exact ⟨_, inserted_withOrder (some reason) hn, .inl ⟨rfl, rfl, rfl, rfl⟩⟩
    · cases hc
      obtain ⟨n, hn⟩ := h.cash account (mem_of_lookup hacc)
      have hnew : lookup Order.clientKey (r.pid, r.clientOrderId) t.orders = none := by
        unfold willFill at hwill
        rw [Bool.and_eq_true, Bool.and_eq_true] at hwill
        exact Option.isNone_iff_eq_none.1 hwill.1.1
      obtain ⟨hunseen, hasked, horders, hreturned, -⟩ := @inserted_withOrder H cfg t r now none hnew
      exact ⟨_, ⟨hunseen, hasked, horders, hreturned, rfl, rfl, rfl⟩,
        .inr ⟨rfl, moves_withFill hacc hn (bindable_of_fits hfit hwill hacc hn)⟩⟩

/-- The key of a buy again, on a sale of something else. -/
theorem placed_once_again : ∃ t row, Run (next linkHash defaultCfg) anyStep .empty
      (opening ++ [orderOp 2 "a" "buy" 3 70100, orderOp 3 "b" "buy" 1000000 70100, orderOp 4 "c" "sell" 2 70333]) t ∧
    row.qty = 3 ∧ transact (place linkHash defaultCfg ⟨1, "a", "000660", "sell", 9, 1⟩ 5 5) t =
      (.ok (.recorded row), t) ∧
    ∀ who symbol, sold who symbol t ≤ bought who symbol t := by
  obtain ⟨t, ht, hp⟩ := (Option.any_eq_true _ _).1
    (show ((exec (next linkHash defaultCfg) (fun t op => t.fits defaultCfg op = true) .empty
        (opening ++ [orderOp 2 "a" "buy" 3 70100, orderOp 3 "b" "buy" 1000000 70100, orderOp 4 "c" "sell" 2 70333])).any
      fun t => t.fits defaultCfg (.place ⟨1, "a", "000660", "sell", 9, 1⟩ 5 5) &&
        (lookup Order.clientKey (1, "a") t.orders).any fun row => decide (row.qty = 3)) = true by decide +kernel)
  rw [Bool.and_eq_true] at hp
  obtain ⟨row, hrow, hq⟩ := (Option.any_eq_true _ _).1 hp.2
  have hrun := run_of_exec ht
  obtain ⟨hagain, -, -, hsold⟩ := placed_once linkHash defaultCfg hrun ⟨1, "a", "000660", "sell", 9, 1⟩ 5 5 hp.1
  exact ⟨t, row, hrun.mono fun _ _ _ => trivial, of_decide_eq_true hq, hagain row [] t hrow (.nil t), hsold⟩

/-- The second sale near 2 ^ 63 fills, and adds to the cash something other than its proceeds. -/
theorem sale_overflows : ∃ t, Run (next linkHash defaultCfg) anyStep .empty
      (opening ++ [orderOp 2 "a" "buy" 1 1, orderOp 3 "b" "sell" 1 9223372036854775807, orderOp 4 "c" "buy" 1 1]) t ∧
    let r : Request := ⟨1, "d", "005930", "sell", 1, 9223372036854775807⟩
    let t' := (transact (place linkHash defaultCfg r 5 5) t).2
    (lookup Order.clientKey (1, "d") t'.orders).map Order.state = some .filled ∧
      (lookup Account.participantId 1 t'.accounts).map (fun a => a.cash.val) ≠
        (lookup Account.participantId 1 t.accounts).map fun a => (a.cash.val + r.cashDelta defaultCfg : ℚ) := by
  obtain ⟨t, ht, hp⟩ := (Option.any_eq_true _ _).1
    (show ((exec (next linkHash defaultCfg) anyStep .empty
        (opening ++ [orderOp 2 "a" "buy" 1 1, orderOp 3 "b" "sell" 1 9223372036854775807, orderOp 4 "c" "buy" 1 1])).any
      fun t =>
        let r : Request := ⟨1, "d", "005930", "sell", 1, 9223372036854775807⟩
        let t' := (transact (place linkHash defaultCfg r 5 5) t).2
        decide ((lookup Order.clientKey (1, "d") t'.orders).map Order.state = some .filled ∧
          (lookup Account.participantId 1 t'.accounts).map (fun a => a.cash.val) ≠
            (lookup Account.participantId 1 t.accounts).map fun a => (a.cash.val + r.cashDelta defaultCfg : ℚ))) =
              true by
      decide +kernel)
  exact ⟨t, run_of_exec ht, of_decide_eq_true hp⟩

end Contest

import MarketFeed.Contest.Fill
import MarketFeed.Lib.Run
/-!
# The contest ledger is sound (contest.py:9-15, :150-227, :279-321)

`Books` is what every operation keeps: the tables are exactly the journal's, the chain holds, cash,
quantities and costs are not negative. It needs the cash to stay an integer: `Label.fits` says of an
order that fills that the participant's new cash is below 2 ^ 63, where SQLite goes over to doubles.
-/

namespace Contest

open Keyed Txn Total Lts

variable {H : Type}

structure Books (hash : ChainHash H) (t : Tables H) : Prop where
  unique : t.Unique
  chained : Chained hash hash.genesis t.journal
  checked : Checked t
  unchecked : Unchecked t
  cash : ∀ a ∈ t.accounts, ∃ n : ℤ, a.cash = .int n ∧ 0 ≤ n ∧ n ≤ MAX_INT
  positions : ∀ p ∈ t.positions, 0 ≤ p.qty ∧ 0 ≤ p.cost ∧ (p.qty = 0 → p.cost = 0)

section

variable {hash : ChainHash H} {cfg : Cfg} {t t' : Tables H}

theorem books_empty (hash : ChainHash H) : Books hash (.empty : Tables H) where
  unique := ⟨List.nodup_nil, List.nodup_nil, List.nodup_nil⟩
  chained := trivial
  checked := ⟨fun a ha => (by cases ha), fun _ => rfl, fun _ => rfl, fun _ _ _ ho => (by cases ho)⟩
  unchecked := ⟨fun _ => rfl, fun _ => rfl, fun _ _ _ ho => (by cases ho)⟩
  cash := fun a ha => by cases ha
  positions := fun p hp => by cases hp

/-- An operation that changes neither accounts, positions, orders nor journal. -/
theorem Books.frame (h : Books hash t) (ha : t'.accounts = t.accounts) (hp : t'.positions = t.positions)
    (ho : t'.filled = t.filled) (hids : (t'.orders.map Order.id).Nodup) (hj : t'.journal = t.journal) :
    Books hash t' := by
  have hh : t'.holding = t.holding := by
    funext k
    rw [Tables.holding, hp, Tables.holding]
  refine ⟨⟨ha ▸ h.unique.accounts, hp ▸ h.unique.positions, hids⟩, hj ▸ h.chained, ⟨?_, ?_, ?_, ?_⟩, ⟨?_, ?_, ?_⟩,
    ha ▸ h.cash, hp ▸ h.positions⟩
  · rw [ha, hj]
    exact h.checked.cash
  · rw [hh, hj]
    exact h.checked.qty
  · rw [ho, hj]
    exact h.checked.filled
  · rw [ho, hj]
    exact h.checked.orders
  · rw [ha, hj]
    exact h.unchecked.accounts
  · rw [hh, hj]
    exact h.unchecked.cost
  · rw [ho, hj]
    exact h.unchecked.orders

/-! ## The chain -/

theorem chained_append {prev : H} {js : List (Line H)} (h : Chained hash prev js) {j : Line H}
    (hp : j.prevHash = (js.getLast?.map Line.hash).getD prev)
    (hj : j.hash = hash.chain j.prevHash j.ts j.participantId j.detail) : Chained hash prev (js ++ [j]) := by
  induction js generalizing prev with
  | nil =>
    have hp : j.prevHash = prev := hp
    exact ⟨hp, by rw [hj, hp], trivial⟩
  | cons x xs ih =>
    obtain ⟨h1, h2, h3⟩ := h
    refine ⟨h1, h2, ih h3 ?_⟩
    rw [hp]
    cases xs with
    | nil => rfl
    | cons y ys =>
      rw [List.getLast?_cons_cons]
      cases hl : (y :: ys).getLast? with
      | none => simp at hl
      | some z => rfl

theorem chained_newLine (h : Chained hash hash.genesis t.journal) (ts : ℚ) (pid : ℤ) (detail : Detail) :
    Chained hash hash.genesis (t.journal ++ [newLine hash ts pid detail t]) :=
  chained_append h rfl rfl

/-- Who has no line that moves money has none. -/
theorem cashOf_eq_zero {pid : ℤ} {js : List (Line H)} (h : js.any (Line.moves pid) = false) : cashOf pid js = 0 := by
  induction js with
  | nil => rfl
  | cons j js ih =>
    rw [List.any_cons, Bool.or_eq_false_iff] at h
    have htail := ih h.2
    have hhead := h.1
    unfold cashOf at htail ⊢
    rw [total_cons, htail, add_zero]
    split
    · rename_i hpid
      unfold Line.moves at hhead
      rw [hpid, Bool.true_and] at hhead
      cases hd : j.detail with
      | deposit n => simp [hd] at hhead
      | fill f => simp [hd] at hhead
      | other kind => rfl
    · rfl

theorem moves_append (pid : ℤ) (js : List (Line H)) (j : Line H) :
    (js ++ [j]).any (Line.moves pid) = (js.any (Line.moves pid) || j.moves pid) := by
  rw [List.any_append, List.any_cons, List.any_nil, Bool.or_false]

/-! ## A participant signs up -/

theorem Books.signup (h : Books hash t) (hc : 0 ≤ cfg.initialCash)
    {code nickname pwHash : String} {now ts : ℚ} {pid : ℤ}
    (hr : Runs (Contest.signup hash cfg code nickname pwHash now ts) t pid t') : Books hash t' := by
  obtain ⟨-, hb, hnew, ht⟩ := runs_signup hr
  have hja : t'.accounts = t.accounts ++ [⟨pid, .int cfg.initialCash⟩] := by rw [ht]; rfl
  have hjp : t'.positions = t.positions := by rw [ht]; rfl
  have hjo : t'.orders = t.orders := by rw [ht]; rfl
  have hj : t'.journal = t.journal ++ [newLine hash ts pid (.deposit cfg.initialCash) t] := by rw [ht]; rfl
  have hfresh : ∀ a ∈ t.accounts, a.participantId ≠ pid := by
    rintro a ha rfl
    have := @lookup_isSome_of_mem _ _ _ Account.participantId _ _ ha
    rw [hnew] at this
    cases this
  have hzero : cashOf pid t.journal = 0 := cashOf_eq_zero (by rw [← h.unchecked.accounts, hnew]; rfl)
  have hfilled : t'.filled = t.filled := by rw [Tables.filled, hjo, Tables.filled]
  have hholding : t'.holding = t.holding := by
    funext k
    rw [Tables.holding, hjp, Tables.holding]
  -- a deposit is no fill
  have hhold : ∀ k, holdingOf k t'.journal = holdingOf k t.journal := fun k => by rw [hj, holdingOf_append]; rfl
  have hline : ∀ oid, fillLine oid t'.journal = fillLine oid t.journal := fun oid => by rw [hj, fillLine_append]; rfl
  refine ⟨⟨?_, hjp ▸ h.unique.positions, hjo ▸ h.unique.orders⟩, hj ▸ chained_newLine h.chained _ _ _, ⟨?_, ?_, ?_, ?_⟩,
    ⟨?_, ?_, ?_⟩, ?_, hjp ▸ h.positions⟩
  · rw [hja, List.map_append, List.nodup_append]
    refine ⟨h.unique.accounts, List.nodup_singleton _, ?_⟩
    intro i hi i' hi' he
    obtain ⟨a, ha, rfl⟩ := List.mem_map.1 hi
    rw [List.map_singleton, List.mem_singleton] at hi'
    exact hfresh a ha (he.trans hi')
  · rw [hja, hj]
    intro a ha
    rw [cashOf_append]
    rcases List.mem_append.1 ha with ha | ha
    · rw [if_neg (fun he => hfresh a ha he.symm), add_zero]
      exact h.checked.cash a ha
    · rw [List.mem_singleton.1 ha, hzero, zero_add]
      exact congrArg Int.cast (if_pos rfl).symm
  · intro k
    rw [hholding, hhold]
    exact h.checked.qty k
  · intro oid
    rw [hfilled, hline]
    exact h.checked.filled oid
  · intro oid o x ho hx
    rw [hfilled] at ho
    rw [hline] at hx
    exact h.checked.orders oid o x ho hx
  · intro i
    rw [hja, hj, moves_append, lookup_append_single, ← h.unchecked.accounts i]
    by_cases hi : pid = i
    · simp [hi, Line.moves, newLine]
    · simp [hi, Line.moves, newLine]
  · intro k
    rw [hholding, hhold]
    exact h.unchecked.cost k
  · intro oid o x ho hx
    rw [hfilled] at ho
    rw [hline] at hx
    exact h.unchecked.orders oid o x ho hx
  · rw [hja]
    intro a ha
    rcases List.mem_append.1 ha with ha | ha
    · exact h.cash a ha
    · rw [List.mem_singleton.1 ha]
      exact ⟨cfg.initialCash, rfl, hc, (of_decide_eq_true hb).2⟩

/-! ## An order -/

theorem Books.rejected (h : Books hash t) (r : Request) (reason : Reason) (now : ℚ) :
    Books hash (t.withOrder cfg r (some reason) now) :=
  h.frame rfl rfl ((filled_withOrder (some reason)).trans (List.append_nil _)) (nodup_withOrder h.unique.orders _) rfl

/-- A fill whose cash stays below 2 ^ 63. -/
theorem Books.filled (h : Books hash t) (hf : -1000000 ≤ cfg.feePpm) (hs : cfg.feePpm + cfg.taxPpm ≤ 1000000)
    {r : Request}
    {now ts : ℚ} {account : Account} (hacc : lookup Account.participantId r.pid t.accounts = some account)
    (hr : orderReason cfg r account.cash (t.heldBy r).1 = none)
    (hfit : t.fits cfg (.place r now ts) = true) (hwill : willFill cfg t r = true) :
    Books hash (t.withFill hash cfg r now ts) := by
  have ha := Accepted_of_willFill hwill
  obtain ⟨hprice, hbuy, hsell⟩ := orderReason_none hr
  have hamount : 0 ≤ r.amount := (amount_pos ha.qty hprice).le
  obtain ⟨n, hn, hn0, -⟩ := h.cash account (mem_of_lookup hacc)
  have hheld : 0 ≤ (t.heldBy r).1 ∧ 0 ≤ (t.heldBy r).2 := by
    unfold Tables.heldBy
    cases hp : lookup Position.key (r.pid, r.symbol) t.positions with
    | none => exact ⟨le_refl 0, le_refl 0⟩
    | some p =>
      obtain ⟨hq, hc, _⟩ := h.positions p (mem_of_lookup hp)
      exact ⟨hq, hc⟩
  have hpos := fillOf_position ha.side ha.qty hprice hsell hf hheld.1 hheld.2
  have hcash := @fillOf_cash cfg r n (t.heldBy r).1 (t.heldBy r).2 hn0 ha.side hamount
    (fun hb => by have := hbuy hb; rw [hn, Cash.val_int] at this; exact_mod_cast this) hs
  have hbind := bindable_of_fits hfit hwill hacc hn
  generalize hx : fillOf cfg r (t.heldBy r).1 (t.heldBy r).2 = x at hbind hpos hcash
  have hchain : Chained hash hash.genesis (t.withFill hash cfg r now ts).journal := chained_newLine h.chained _ _ _
  have hj : (t.withFill hash cfg r now ts).journal =
      t.journal ++ [newLine hash ts r.pid (.fill (fillDetail cfg r t.nextOrder x.1)) t] := hx ▸ journal_withFill
  have haccs : (t.withFill hash cfg r now ts).accounts = (updateCash r.pid x.1 t).accounts := hx ▸ rfl
  have hposs : (t.withFill hash cfg r now ts).positions =
      upsert Position.key (fun _ p => p) t.positions ⟨r.pid, r.symbol, x.2.1, x.2.2⟩ := hx ▸ rfl
  have haccount : ∀ a ∈ (t.withFill hash cfg r now ts).accounts,
      a = ⟨r.pid, .int (n + x.1)⟩ ∨ (a ∈ t.accounts ∧ a.participantId ≠ r.pid) := by
    rw [haccs, ← Cash.add_int hbind, ← hn]
    exact fun a hmem => mem_updateCash h.unique.accounts hacc hmem
  have hkeys : (t.withFill hash cfg r now ts).accounts.map Account.participantId = t.accounts.map
      Account.participantId := by
    rw [haccs, map_updateCash]
  refine ⟨⟨hkeys ▸ h.unique.accounts, hposs ▸ nodup_upsert h.unique.positions _,
    nodup_withOrder h.unique.orders none⟩, hchain,
    ⟨?_, ?_, ?_, ?_⟩, ⟨?_, ?_, ?_⟩, ?_, ?_⟩
  · intro a hmem
    rw [hj, cashOf_append]
    rcases haccount a hmem with rfl | ⟨ha', hpid⟩
    · have hold := h.checked.cash account (mem_of_lookup hacc)
      rw [hn, Cash.val_int, key_of_lookup hacc] at hold
      have hold : n = cashOf r.pid t.journal := by exact_mod_cast hold
      rw [Cash.val_int, ← hold]
      exact congrArg (fun m : ℤ => ((n + m : ℤ) : ℚ)) (if_pos rfl).symm
    · rw [if_neg (fun he => hpid he.symm), add_zero]
      exact h.checked.cash a ha'
  · exact fun k => congrArg Prod.fst
      (holding_journal_withFill (fun k => Prod.ext (h.checked.qty k) (h.unchecked.cost k)) k)
  · intro oid
    rw [lookup_filled_withFill, fillLine_withFill]
    split
    · rfl
    · exact h.checked.filled oid
  · intro oid o y ho hy
    rw [lookup_filled_withFill] at ho
    rw [fillLine_withFill] at hy
    by_cases hid : t.nextOrder = oid
    · rw [if_pos hid] at ho hy
      cases ho
      cases hy
      exact decide_eq_true ⟨rfl, rfl, rfl, rfl, rfl⟩
    · rw [if_neg hid] at ho hy
      exact h.checked.orders oid o y ho hy
  · intro i
    rw [hj, moves_append, Bool.eq_iff_iff, ← mem_keys_iff, hkeys, mem_keys_iff, Bool.or_eq_true,
      ← h.unchecked.accounts i]
    constructor
    · exact .inl
    · rintro (hi | hi)
      · exact hi
      · have hpid : r.pid = i := of_decide_eq_true (Bool.and_eq_true_iff.1 hi).1
        rw [← hpid, hacc]
        rfl
  · exact fun k => congrArg Prod.snd
      (holding_journal_withFill (fun k => Prod.ext (h.checked.qty k) (h.unchecked.cost k)) k)
  · intro oid o y ho hy
    rw [lookup_filled_withFill] at ho
    rw [fillLine_withFill] at hy
    by_cases hid : t.nextOrder = oid
    · rw [if_pos hid] at ho hy
      cases ho
      cases hy
      exact ⟨rfl, rfl, rfl⟩
    · rw [if_neg hid] at ho hy
      exact h.unchecked.orders oid o y ho hy
  · intro a hmem
    rcases haccount a hmem with rfl | ⟨ha', -⟩
    · exact ⟨n + x.1, rfl, hcash, (of_decide_eq_true hbind).2⟩
    · exact h.cash a ha'
  · rw [hposs]
    intro p hp
    rcases mem_upsert hp with hp | rfl | ⟨_, _, rfl⟩
    · exact h.positions p hp
    · exact hpos
    · exact hpos

/-! ## Any call -/

theorem Books.body (h : Books hash t) (hc : 0 ≤ cfg.initialCash) (hf : -1000000 ≤ cfg.feePpm)
    (hs : cfg.feePpm + cfg.taxPpm ≤ 1000000) {op : Op} (hfit : t.fits cfg op = true) {a : Answer}
    (hr : Runs (op.body hash cfg) t a t') : Books hash t' := by
  rcases runs_body hr with hsame | ⟨_, _, _, _, _, _, hr⟩ | ⟨r, now, ts, p, rfl, -, hr⟩
  · have hfilled : t'.filled = t.filled := by rw [Tables.filled, hsame.orders, Tables.filled]
    exact h.frame hsame.accounts hsame.positions hfilled (hsame.orders ▸ h.unique.orders) hsame.journal
  · exact h.signup hc hr
  · rcases runs_place hr with ⟨row, _, _, rfl⟩ | ⟨account, reason, _, _, _, _, _, rfl⟩ | ⟨account, hacc, hreason,
      hwill, _, _, rfl⟩
    · exact h
    · exact h.rejected r reason now
    · exact h.filled hf hs hacc hreason hfit hwill

/-! ## Any run -/

/-- The committed tables and those of a transaction left open. -/
def Sound (hash : ChainHash H) (s : Guarded (Tables H)) : Prop :=
  Books hash s.conn.committed ∧ ∀ w, s.conn.work = some w → Books hash w

theorem Sound.view {s : Guarded (Tables H)} (h : Sound hash s) : Books hash s.conn.view := by
  unfold Conn.view
  cases hw : s.conn.work with
  | none => exact h.1
  | some w => exact h.2 w hw

theorem Sound.step (hc : 0 ≤ cfg.initialCash) (hf : -1000000 ≤ cfg.feePpm) (hs : cfg.feePpm + cfg.taxPpm ≤ 1000000)
    {s s' : Guarded (Tables H)} {l : Label} (h : Sound hash s) (hfit : s.conn.view.fits cfg l.op = true)
    (hstep : step hash cfg s l = some s') : Sound hash s' := by
  rcases step_cases hstep with ⟨he, -⟩ | ⟨a, t', hidle, hok, hs'⟩
  · unfold Sound
    rw [he]
    exact h
  · have hview : s.conn.view = s.conn.committed := by rw [hidle]; rfl
    have hbooks : Books hash t' := h.1.body hc hf hs (hview ▸ hfit) (transact_ok_iff.1 hok)
    rcases hs' with rfl | rfl
    · exact ⟨hbooks, fun w hw => (by cases hw)⟩
    · refine ⟨h.1, ?_⟩
      rintro w ⟨⟩
      exact hbooks

end

/-- `integrity`, which takes the lock; `none` where it waits for it for ever. -/
def check [DecidableEq H] (hash : ChainHash H) (s : Guarded (Tables H)) : Option (List Break) :=
  if s.locked then none else some (integrity hash s.conn.view)

/-- **Soundness**: in a run from the empty ledger in which `BEGIN` never fails and no fill takes a participant's cash
out of 64 bits, whatever else fails, the check finds nothing, no cash, quantity or cost is negative, and a position of
nothing costs nothing. -/
theorem integrity_sound [DecidableEq H] (hash : ChainHash H) (cfg : Cfg) (hc : 0 ≤ cfg.initialCash)
    (hf : -1000000 ≤ cfg.feePpm) (hs : cfg.feePpm + cfg.taxPpm ≤ 1000000) {ls : List Label} {s : Guarded (Tables H)}
    (hrun : Run (step hash cfg) (fun s l => (l.begins s && s.conn.view.fits cfg l.op) = true) (free .empty) ls s) :
    check hash s = some [] ∧ (∀ a ∈ s.conn.view.accounts, 0 ≤ a.cash.val) ∧
      ∀ p ∈ s.conn.view.positions, 0 ≤ p.qty ∧ 0 ≤ p.cost ∧ (p.qty = 0 → p.cost = 0) := by
  have hinv : Sound hash s ∧ s.locked = false := by
    refine hrun.invariant (I := fun s => Sound hash s ∧ s.locked = false)
      ⟨⟨books_empty hash, fun w hw => (by cases hw)⟩, rfl⟩ ?_
    rintro s l s' ⟨h, -⟩ hok hstep
    rw [Bool.and_eq_true] at hok
    refine ⟨h.step hc hf hs hok.2 hstep, ?_⟩
    rcases step_cases hstep with ⟨-, hlock⟩ | ⟨_, _, _, _, rfl | rfl⟩
    · exact hlock hok.1
    · rfl
    · rfl
  have h := hinv.1.view
  refine ⟨?_, ?_, h.positions⟩
  · rw [check, hinv.2, (integrity_nil_iff h.unique).2 ⟨h.chained, h.checked⟩]
    rfl
  · intro a ha
    obtain ⟨n, hn, hn0, -⟩ := h.cash a ha
    rw [hn, Cash.val_int]
    exact_mod_cast hn0

/-- A buy that fills, one refused for want of cash, a sale of all of it, one call that fails at the insertion of its
order. -/
def tradeDay : List Label :=
  opening.map quiet ++ [quiet (orderOp 2 "a" "buy" 3 70100), quiet (orderOp 3 "b" "buy" 1000000 70100),
    quiet (orderOp 4 "c" "sell" 2 70333),
    ⟨orderOp 5 "d" "sell" 1 70333, ⟨none, fun i => if i = 3 then some .sqlite else none, none, false⟩, none⟩,
    quiet (orderOp 6 "d" "sell" 1 70333)]

theorem integrity_sound_day : ∃ s, Run (step linkHash defaultCfg) anyStep (free .empty) tradeDay s ∧
    s.conn.view.orders.length = 4 ∧ check linkHash s = some [] ∧ (∀ a ∈ s.conn.view.accounts, 0 ≤ a.cash.val) ∧
      ∀ p ∈ s.conn.view.positions, 0 ≤ p.qty ∧ 0 ≤ p.cost ∧ (p.qty = 0 → p.cost = 0) := by
  obtain ⟨s, hrun, hn⟩ : ∃ s, Run (step linkHash defaultCfg)
      (fun s l => (l.begins s && s.conn.view.fits defaultCfg l.op) = true)
    (free .empty) tradeDay s ∧ s.conn.view.orders.length = 4 := exists_run (by decide +kernel)
  exact ⟨s, hrun.mono fun _ _ _ => trivial, hn,
    integrity_sound linkHash defaultCfg (by decide) (by decide) (by decide) hrun⟩

/-- Two sales at a price near 2 ^ 63: the cash becomes a double, the journal's sum stays exact. -/
def dearSales : List Label :=
  opening.map quiet ++ [quiet (orderOp 2 "a" "buy" 1 1), quiet (orderOp 3 "b" "sell" 1 9223372036854775807),
    quiet (orderOp 4 "c" "buy" 1 1), quiet (orderOp 5 "d" "sell" 1 9223372036854775807)]

theorem integrity_unsound : ∃ s, Run (step linkHash defaultCfg) anyStep (free .empty) dearSales s ∧
    ¬check linkHash s = some [] :=
  exists_run (by decide +kernel)

end Contest

import MarketFeed.Desk.Moves
/-!
# One open order per key, in every reachable state

The lock makes the checks of a submit last: while a submit holds it, no other row is inserted, and
nobody else opens a row (`Ledger/OneOpen.lean`). So a submit that has passed its checks finds its key
without an open order when it inserts, and from then on its row is the newest one and pending until
the submit itself marks it (`Holds`).
-/

namespace OrderDesk

open OrderLedger Lts

variable {lim : Limits} {db : Db}

/-- The day and the row of a submit that has recorded its order. -/
def Stage.placed : Stage → Option (String × Nat)
  | .ordering day id _ => some (day, id)
  | .sending day id _ _ => some (day, id)
  | _ => none

/-- The row `r` is this submit's: the newest row, still pending. -/
structure OwnRow (l : Ledger) (q : Request) (day : String) (id : Nat) (r : Order) : Prop where
  mem : r ∈ l.orders
  id_eq : r.id = id
  cid_eq : r.clientOrderId = q.clientOrderId
  key_eq : r.key = q.key day
  pending : r.state = .pendingSubmit
  newest : r.id = l.orderSeq

/-- What the ledger holds for the submit that has the lock. -/
structure Holds (l : Ledger) (h : Holder) : Prop where
  before : ∀ day, h.stage.unrecorded = some day →
    l.openOrder (h.req.key day) = none ∧ l.byClientId h.req.clientOrderId = none
  after : ∀ day id, h.stage.placed = some (day, id) → ∃ r, OwnRow l h.req day id r

structure Inv (d : Desk) : Prop where
  wf : Wf d.ledger
  oneOpen : OneOpen d.ledger
  holds : ∀ h, d.holder = some h → Holds d.ledger h

/-! ## Scripts of others -/

theorem byClientId_none {l : Ledger} {cid : String} :
    l.byClientId cid = none ↔ ∀ o ∈ l.orders, o.clientOrderId ≠ cid := by
  simp [Ledger.byClientId]

theorem byClientId_none_script {l : Ledger} {cid : String} (h : l.byClientId cid = none) {ss : List Stmt}
    (hi : ∀ s ∈ ss, s.isInsertOrder = false) : (l.execAll ss).byClientId cid = none := by
  rw [byClientId_none] at h ⊢
  intro o ho
  rw [execAll_orders hi] at ho
  obtain ⟨x, hx, rfl⟩ := List.mem_map.1 ho
  rw [rowAfter_clientOrderId]
  exact h x hx

/-- A script of another coroutine: it updates unsettled rows only. -/
theorem holds_script {l : Ledger} (hw : Wf l) {h : Holder} (hh : Holds l h) {ss : List Stmt}
    (hi : ∀ s ∈ ss, s.isInsertOrder = false) (ht : Targets Order.unsettled l ss) : Holds (l.execAll ss) h := by
  constructor
  · intro day hd
    obtain ⟨h1, h2⟩ := hh.before day hd
    exact ⟨openOrder_none_script hw h1 hi (ht.mono fun _ => isOpen_of_unsettled), byClientId_none_script h2 hi⟩
  · intro day id hp
    obtain ⟨r, hr⟩ := hh.after day id hp
    have hsame : rowAfter ss r = r := rowAfter_of_not hw ht hr.mem (by
      rintro (hu | hu) <;> simp [hr.pending, fillableStates] at hu)
    refine ⟨r, ⟨?_, hr.id_eq, hr.cid_eq, hr.key_eq, hr.pending, ?_⟩⟩
    · rw [execAll_orders hi]
      exact List.mem_map.2 ⟨r, hr.mem, hsame⟩
    · rw [execAll_orderSeq hi]
      exact hr.newest

theorem inv_script {d : Desk} (hd : Inv d) {ss : List Stmt} {p : Option Proc} {sent : List Sent}
    (hi : ∀ s ∈ ss, s.isInsertOrder = false) (ht : Targets Order.unsettled d.ledger ss)
    (hp : p.bind (·.holder) = none ∨ p.bind (·.holder) = d.holder) : Inv (d.after ss p sent) := by
  refine ⟨wf_execAll hd.wf ss, oneOpen_script hd.wf hd.oneOpen hi (ht.mono fun _ => isOpen_of_unsettled),
    fun h hh => ?_⟩
  have hh : p.bind (·.holder) = some h := hh
  rcases hp with hp | hp
  · rw [hp] at hh; cases hh
  · rw [hp] at hh
    exact holds_script hd.wf (hd.holds h hh) hi ht

/-! ## Recording an order -/

/-- The row `new_order` inserts. -/
def Request.row (q : Request) (l : Ledger) (now : Time) (day : String) (unit : Int) : Order :=
  ⟨l.orderSeq + 1, q.clientOrderId, day, q.symbol, q.side, q.qty, q.price, if unit = 0 then q.price else unit,
    .pendingSubmit, none, none, 0, 0, now, now⟩

/-- At every cut the row is there or not. -/
theorem place_cut {l : Ledger} {q : Request} (hnew : l.byClientId q.clientOrderId = none) {pre : List Stmt}
    (hpre : ∀ s ∈ pre, ∃ k t, s = .insertTotalsBaseline k t) (now : Time) (day : String) (unit : Int) (k : Nat) :
    let l' := l.execAll ((pre ++ l.newOrderStmts now q.clientOrderId (q.key day) q.qty q.price unit).take k)
    (l'.orders = l.orders ∧ l'.orderSeq = l.orderSeq) ∨
      (l'.orders = l.orders ++ [q.row l now day unit] ∧ l'.orderSeq = l.orderSeq + 1) := by
  have hfresh := byClientId_none.1 hnew
  refine Script.cut_invariant (I := fun l' : Ledger => (l'.orders = l.orders ∧ l'.orderSeq = l.orderSeq) ∨
    (l'.orders = l.orders ++ [q.row l now day unit] ∧ l'.orderSeq = l.orderSeq + 1)) (.inl ⟨rfl, rfl⟩) ?_ k
  intro l' s hs hl
  obtain ⟨o, ho, hc, _⟩ | ⟨_, _, hst⟩ := newOrder_cases l now q.clientOrderId (q.key day) q.qty q.price unit
  · exact absurd hc (hfresh o ho)
  rw [hst] at hs
  simp only [List.mem_append, List.mem_cons, List.not_mem_nil, or_false] at hs
  rcases hs with hs | rfl | rfl
  · obtain ⟨k', t, rfl⟩ := hpre s hs
    have hsame : (l'.exec (.insertTotalsBaseline k' t)).orders = l'.orders ∧
        (l'.exec (.insertTotalsBaseline k' t)).orderSeq = l'.orderSeq := by
      simp only [Ledger.exec]; split <;> exact ⟨rfl, rfl⟩
    rw [hsame.1, hsame.2]
    exact hl
  · right
    rcases hl with ⟨ho, hseq⟩ | ⟨ho, hseq⟩
    · rw [exec_insertOrder (by rw [ho]; exact hfresh), ho, hseq]
      exact ⟨rfl, rfl⟩
    · rw [@exec_insertOrder_taken l' q.clientOrderId (q.row l now day unit) (by simp [ho]) rfl]
      exact ⟨ho, hseq⟩
  · exact hl

/-- The whole script records the row. -/
theorem place_full {l : Ledger} {q : Request} (hnew : l.byClientId q.clientOrderId = none) {pre : List Stmt}
    (hpre : ∀ s ∈ pre, ∃ k t, s = .insertTotalsBaseline k t) (now : Time) (day : String) (unit : Int) :
    let l' := l.execAll (pre ++ l.newOrderStmts now q.clientOrderId (q.key day) q.qty q.price unit)
    l'.orders = l.orders ++ [q.row l now day unit] ∧ l'.orderSeq = l.orderSeq + 1 := by
  have hcut := place_cut hnew hpre now day unit
    (pre ++ l.newOrderStmts now q.clientOrderId (q.key day) q.qty q.price unit).length
  rw [List.take_length] at hcut
  refine hcut.resolve_left fun hno => ?_
  obtain ⟨o, ho, hc, _⟩ | ⟨hfresh, _, hst⟩ := newOrder_cases l now q.clientOrderId (q.key day) q.qty q.price unit
  · exact byClientId_none.1 hnew o ho hc
  have hpre' : ∀ s ∈ pre, s.isInsertOrder = false := fun s hs => by obtain ⟨_, _, rfl⟩ := hpre s hs; rfl
  have hseq : (l.execAll pre).orderSeq = l.orderSeq := execAll_orderSeq hpre'
  have hord : (l.execAll pre).orders = l.orders := by
    rw [execAll_orders hpre']
    refine (List.map_congr_left fun r _ => rowAfter_of_no_target fun s hs => ?_).trans (List.map_id _)
    obtain ⟨_, _, rfl⟩ := hpre s hs
    simp [Stmt.target]
  have hgrow := hno.2
  rw [hst, execAll_append, execAll_cons, execAll_cons, execAll_nil,
    exec_insertOrder (by rw [hord]; exact hfresh)] at hgrow
  have hgrow : (l.execAll pre).orderSeq + 1 = l.orderSeq := hgrow
  omega

theorem Inv.passed {d : Desk} (hd : Inv d) {q : Request} {day : String} (hp : d.passed q day) :
    d.ledger.openOrder (q.key day) = none ∧ d.ledger.byClientId q.clientOrderId = none := by
  obtain ⟨_, h1, _, h3⟩ | ⟨stage, hh, hs⟩ := hp
  · exact ⟨h3, h1⟩
  · exact (hd.holds _ hh).before day hs

/-- What `submit` writes in the end marks its own row or nothing. -/
theorem finish_cases (db : Db) (now : Time) (id : Nat) (result : Py Accepted) :
    finish db now id result = [] ∨ ∃ st ∈ [OrderState.accepted, .rejected, .unknown], ∃ odno msg,
      finish db now id result = OrderLedger.markStmts now id st odno msg := by
  have hmark : ∀ st odno message, db.markStmts now id st odno message = [] ∨
      ∃ o m, db.markStmts now id st odno message = OrderLedger.markStmts now id st o m := by
    intro st odno message
    unfold Db.markStmts
    split
    · split
      · exact .inr ⟨_, _, rfl⟩
      · exact .inl rfl
    · exact .inl rfl
  cases result with
  | ok r => exact (hmark .accepted r.odno r.msg).imp (fun h => h) fun ⟨o, m, h⟩ => ⟨_, by simp, o, m, h⟩
  | error f =>
    cases f with
    | rejected code msg =>
      exact (hmark .rejected .null (rejectedText code msg)).imp (fun h => h) fun ⟨o, m, h⟩ => ⟨_, by simp, o, m, h⟩
    | uncertain text => exact .inr ⟨.unknown, by simp, _, _, rfl⟩
    | raised e => exact .inl rfl

/-! ## Every move keeps the invariant -/

theorem quiet_stmts {l : Ledger} {c : Call} (hc : quietCall c = true) (k : Nat) :
    (∀ s ∈ (c.stmts l).take k, s.isInsertOrder = false) ∧ Targets Order.unsettled l ((c.stmts l).take k) := by
  constructor
  · intro s hs
    exact stmt_isInsertOrder (by rintro _ _ _ _ _ _ rfl; cases hc) (List.mem_of_mem_take hs)
  · exact (call_targets l (by rintro _ _ _ _ _ rfl; cases hc) (by rintro _ rfl; cases hc)).take k

theorem inv_move {d : Desk} (hd : Inv d) {lbl : Label} {ss : List Stmt} {p : Option Proc} {sent : List Sent}
    (hm : Move db d lbl ss (p.bind (·.holder)) sent) : Inv (d.after ss p sent) := by
  generalize hh : p.bind (·.holder) = h at hm
  have hholder : (d.after ss p sent).holder = h := hh
  cases hm with
  | quiet hc hk => exact inv_script hd (quiet_stmts hc _).1 (quiet_stmts hc _).2 (by rwa [hh])
  | close hk =>
    refine inv_script hd (fun s hs => ?_) ((call_targets d.ledger (c := .closeDay _ _ _) (by simp) (by simp)).take _)
      (hk.imp (hh.trans ·) fun h => hh.trans h.1)
    exact stmt_isInsertOrder (c := .closeDay _ _ _) (by simp) (List.mem_of_mem_take hs)
  | boot hnone =>
    refine ⟨wf_execAll hd.wf _, oneOpen_script hd.wf hd.oneOpen (fun s hs => ?_) ?_, fun x hx => ?_⟩
    · exact stmt_isInsertOrder (c := .recoverPending _) (by simp) (List.mem_of_mem_take hs)
    · exact ((recoverPending_targets d.ledger _).mono fun _ => isOpen_of_pendingSubmit).take _
    · rw [hholder] at hx; cases hx
  | suspend hp hs =>
    rename_i q day₀ stage
    refine ⟨hd.wf, hd.oneOpen, fun x hx => ?_⟩
    rw [hholder] at hx
    cases hx
    refine ⟨fun day hday => ?_, fun day id hpl => ?_⟩
    · obtain rfl : day = day₀ := Option.some.inj (hday.symm.trans hs)
      exact hd.passed hp
    · cases stage <;> simp [Stage.unrecorded, Stage.placed] at hs hpl
  | place hp hpre =>
    rename_i q day pre now unit
    obtain ⟨hopen, hnew⟩ := hd.passed hp
    obtain ⟨hord, hseq⟩ := place_full hnew hpre now day unit
    refine ⟨wf_execAll hd.wf _, oneOpen_append hd.oneOpen hord hopen, fun x hx => ?_⟩
    rw [hholder] at hx
    cases hx
    refine ⟨(fun day hday => nomatch hday), fun day' id hpl => ?_⟩
    cases hpl
    have hid : d.ledger.newOrderId q.clientOrderId = d.ledger.orderSeq + 1 := by rw [Ledger.newOrderId, hnew]
    exact ⟨q.row d.ledger now day unit, ⟨by rw [Desk.after, hord]; simp, hid.symm, rfl, rfl, rfl, hseq.symm⟩⟩
  | placeCut hp hpre =>
    rename_i q day pre now unit k
    obtain ⟨hopen, hnew⟩ := hd.passed hp
    refine ⟨wf_execAll hd.wf _, ?_, fun x hx => by rw [hholder] at hx; cases hx⟩
    obtain ⟨hord, _⟩ | ⟨hord, _⟩ := place_cut hnew hpre now day unit k
    · intro a ha b hb
      simp only [Desk.after, hord] at ha hb
      exact hd.oneOpen a ha b hb
    · exact oneOpen_append hd.oneOpen hord hopen
  | send hs =>
    refine ⟨hd.wf, hd.oneOpen, fun x hx => ?_⟩
    rw [hholder] at hx
    cases hx
    exact ⟨(fun day hday => nomatch hday), (hd.holds _ hs).after⟩
  | repeated hs =>
    refine ⟨hd.wf, hd.oneOpen, fun x hx => ?_⟩
    rw [hholder] at hx
    cases hx
    exact ⟨(fun day hday => nomatch hday), (hd.holds _ hs).after⟩
  | finish hs =>
    rename_i q day id j retried now result k
    obtain ⟨r, hr⟩ := (hd.holds _ hs).after day id rfl
    obtain rfl := hr.id_eq
    have hstmts : (∀ s ∈ finish db now r.id result, s.isInsertOrder = false) ∧
        TargetsOpen d.ledger (finish db now r.id result) := by
      obtain h0 | ⟨st, _, odno, msg, h0⟩ := finish_cases db now r.id result
      · rw [h0]; exact ⟨by simp, targets_of_none (by simp)⟩
      · rw [h0]
        refine ⟨by simp [OrderLedger.markStmts, Stmt.isInsertOrder], (mark_targets hr.mem now st odno msg).mono ?_⟩
        rintro x rfl
        exact isOpen_of_pendingSubmit hr.pending
    refine ⟨wf_execAll hd.wf _, oneOpen_script hd.wf hd.oneOpen (fun s hs => hstmts.1 s (List.mem_of_mem_take hs))
      (hstmts.2.take k), fun x hx => by rw [hholder] at hx; cases hx⟩

theorem inv_step {d d' : Desk} (hd : Inv d) {lbl : Label} (h : step lim db d lbl = some d') : Inv d' := by
  obtain ⟨ss, p, sent, rfl, hm⟩ | ⟨j, s, v, _, _, rfl⟩ := step_moves h
  · exact inv_move hd hm
  · exact ⟨hd.wf, hd.oneOpen, hd.holds⟩

theorem inv_init : Inv .init :=
  ⟨wf_empty, by simp [OneOpen, Desk.init, Ledger.empty], by simp [Desk.holder, Desk.init]⟩

/-- **One open order per key**, whatever the interleaving of submits, reconciliation, notices, the close of
the day, crashes and restarts. -/
theorem one_open_order_per_key {ls : List Label} {d : Desk} (h : Run (step lim db) anyStep .init ls d) (k : Key) :
    ((d.ledger.rowsOf k).filter (·.isOpen)).length ≤ 1 := by
  have hinv : Inv d := h.invariant inv_init fun s a s' hI _ hs => inv_step hI hs
  exact hinv.oneOpen.count hinv.wf k

/-- A limit order goes all the way to its acceptance. -/
def acceptedOrder : List Label :=
  [.boot 0 none, .run (.arrive ⟨"c1", "005930", .buy, 1, 70000⟩), .run (.enter 0 "20260720" 1),
   .run (.totalled ⟨0, 0, 0⟩ 2), .run .send, .verdict 0 (.accepted "0000000101"),
   .run (.answer (.ok [(py "rt_cd", .str (py "0")), (py "output", .object [(py "ODNO", .str (py "0000000101"))])]) 3)]

/-- A second order of the same key, and a restart in the middle of it. -/
def restartedOrder : List Label :=
  acceptedOrder ++ [.run (.arrive ⟨"c2", "005930", .buy, 1, 71000⟩), .run (.enter 0 "20260720" 4), .die, .boot 5 none]

theorem one_open_order_per_key_restarted : ∃ d, Run (step ⟨1000000, 10000000⟩ roomyDb) anyStep .init restartedOrder d ∧
    ((d.ledger.rowsOf ⟨"20260720", "005930", .buy⟩).filter (·.isOpen)).length ≤ 1 := by
  obtain ⟨d, h⟩ : ∃ d, exec (step ⟨1000000, 10000000⟩ roomyDb) anyStep .init restartedOrder = some d :=
    Option.isSome_iff_exists.1 (by decide)
  exact ⟨d, run_of_exec h, one_open_order_per_key (run_of_exec h) _⟩

end OrderDesk

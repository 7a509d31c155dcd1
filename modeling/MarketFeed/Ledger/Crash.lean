import MarketFeed.Lib.Run
import MarketFeed.Ledger.Fills
/-!
# Crashes between two statements (ledger.py:104-114, :287-335, :375-405)

A crash inside an operation leaves the first `k` of its statements; the ledger is then reopened
and used again, in particular with the same notices and totals. Two equations are at stake:

* `Balanced`: an order's `filled_qty` and `filled_amt` are the sums over its rows in `fills`.
  `INSERT INTO fills` and the `UPDATE orders` after it commit separately.
* `ExpiredCounted`: the orders `close_day` expired are the ones its summary counts. The `EXPIRED`
  updates commit before the `INSERT INTO day_close`, and a second `close_day` sees only the orders
  that are still fillable.

`SafeCut` names the crash points between neither pair; the two equations hold in every run whose
crashes are safe, and each unsafe kind of cut breaks one of them for good.
-/

namespace OrderLedger

open Script Lts

/-! ## Safe cuts -/

/-- `_set_state(…, EXPIRED, …)`: only `close_day` issues it. -/
def Stmt.isExpire : Stmt → Bool
  | .setState _ .expired _ => true
  | _ => false

def Stmt.isDayClose : Stmt → Bool
  | .insertDayClose _ => true
  | _ => false

/-- No order was expired, or the day's summary is written too. -/
def EndsClosed (ss : List Stmt) : Prop := (∃ s ∈ ss, s.isExpire) → ∃ s ∈ ss, s.isDayClose

instance (ss : List Stmt) : Decidable (EndsClosed ss) := by unfold EndsClosed; infer_instance

/-- A crash after `k` statements separates neither pair of dependent writes. -/
def SafeCut (ss : List Stmt) (k : Nat) : Prop := EndsPaired (ss.take k) ∧ EndsClosed (ss.take k)

instance (ss : List Stmt) (k : Nat) : Decidable (SafeCut ss k) := by unfold SafeCut; infer_instance

/-! ## Expired orders and the day's summary -/

/-- The orders a script moves to `EXPIRED`, as the operation read them. -/
def expiredBy (l : Ledger) (ss : List Stmt) : List Order :=
  ss.filterMap fun
    | .setState id .expired _ => l.order id
    | _ => none

/-- A ledger file together with the orders `close_day` has expired in it so far. -/
structure CrashState where
  ledger : Ledger
  expired : List Order
  deriving DecidableEq

def expiredOf (os : List Order) (date : String) : List Order := os.filter (·.tradeDate == date)

/-- Every expired order is in the closed day's summary: the summary counts all of that day's. -/
def ExpiredCounted (st : CrashState) : Prop :=
  ∀ o ∈ st.expired, ∃ row ∈ st.ledger.dayClose, row.tradeDate = o.tradeDate ∧
    row.summary.expiredOrders = (expiredOf st.expired o.tradeDate).length ∧
    row.summary.expiredQty = roomOf (expiredOf st.expired o.tradeDate)

instance (st : CrashState) : Decidable (ExpiredCounted st) := by unfold ExpiredCounted; infer_instance

theorem expiredBy_eq_nil {l : Ledger} {ss : List Stmt} (h : ∀ s ∈ ss, s.isExpire = false) : expiredBy l ss = [] := by
  refine List.filterMap_eq_nil_iff.2 fun s hs => ?_
  have := h s hs
  split
  · simp [Stmt.isExpire] at this
  · rfl

theorem execAll_dayClose_of_none {l : Ledger} {ss : List Stmt} (h : ∀ s ∈ ss, s.isDayClose = false) :
    (l.execAll ss).dayClose = l.dayClose := by
  refine runScript_frame Ledger.dayClose fun l s hs => exec_dayClose fun row he => ?_
  have := h s hs
  simp [he, Stmt.isDayClose] at this

/-- Only `close_day` expires orders or writes a summary. -/
theorem stmt_not_closing {l : Ledger} {c : Call} (hc : ∀ now d n, c ≠ .closeDay now d n) {s : Stmt}
    (hs : s ∈ c.stmts l) : s.isExpire = false ∧ s.isDayClose = false := by
  have hi := issues_of_mem hs
  cases c with
  | closeDay now d n => exact absurd rfl (hc now d n)
  | _ =>
    cases s with
    | setState id st now => cases st <;> first | exact ⟨rfl, rfl⟩ | cases hi
    | insertDayClose row => cases hi
    | _ => exact ⟨rfl, rfl⟩

/-- The whole `EXPIRED` script expires exactly the orders that could still fill. -/
theorem expiredBy_expireStmts {l : Ledger} (hw : Wf l) (now : Time) {rows : List Order}
    (hrows : ∀ o ∈ rows, o ∈ l.orders) : expiredBy l (expireStmts now rows) = expirable rows := by
  induction rows with
  | nil => rfl
  | cons o rows ih =>
    have ih := ih fun x hx => hrows x (by simp [hx])
    by_cases hf : o.state ∈ fillableStates
    · have he : expirable (o :: rows) = o :: expirable rows := by simp [expirable, hf]
      have hs : expireStmts now (o :: rows) = .setState o.id .expired now ::
          .insertEvent ⟨now, some o.id, .orderExpired (o.qty - o.filledQty)⟩ :: expireStmts now rows := by
        simp [expireStmts, he]
      rw [hs, he, ← ih]
      simp [expiredBy, hw.order_eq (hrows o (by simp))]
    · have he : expirable (o :: rows) = expirable rows := by simp [expirable, hf]
      rw [he, ← ih]
      simp [expireStmts, he]

/-- A cut `close_day` has expired nothing, or has written the summary of all it expired. -/
theorem closeDay_cut {l : Ledger} (hw : Wf l) (now : Time) (date : String) (n k : Nat)
    (he : EndsClosed ((l.closeDay now date n).1.take k)) :
    (expiredBy l ((l.closeDay now date n).1.take k) = [] ∧
      (l.execAll ((l.closeDay now date n).1.take k)).dayClose = l.dayClose) ∨
    (l.dayCloseOf date = none ∧
      expiredBy l ((l.closeDay now date n).1.take k) = expirable (l.ordersOf date closeLimit) ∧
      (l.execAll ((l.closeDay now date n).1.take k)).dayClose =
        l.dayClose ++ [⟨date, now, summarize (l.ordersOf date closeLimit)⟩]) := by
  obtain h0 | ⟨hd, _, _, hs⟩ := closeDay_cases l now date n
  · left
    rw [h0, List.take_nil]
    exact ⟨rfl, rfl⟩
  · rw [hs] at he ⊢
    generalize hrows : l.ordersOf date closeLimit = rows at he ⊢
    have hE : ∀ s ∈ expireStmts now rows, s.isDayClose = false := fun s hs => by
      obtain ⟨_, _, _, rfl⟩ | ⟨_, rfl⟩ := expireStmts_stmt hs <;> rfl
    by_cases hk : k ≤ (expireStmts now rows).length
    · left
      rw [List.take_append_of_le_length hk] at he ⊢
      have hnone : ∀ s ∈ (expireStmts now rows).take k, s.isDayClose = false :=
        fun s hs => hE s (List.mem_of_mem_take hs)
      refine ⟨expiredBy_eq_nil fun s hs => ?_, execAll_dayClose_of_none hnone⟩
      by_contra hx
      obtain ⟨t, ht, htc⟩ := he ⟨s, hs, by simpa using hx⟩
      rw [hnone t ht] at htc
      cases htc
    · right
      obtain ⟨j, rfl⟩ : ∃ j, k = (expireStmts now rows).length + (j + 1) :=
        ⟨k - (expireStmts now rows).length - 1, by omega⟩
      have hmem : ∀ o ∈ rows, o ∈ l.orders := fun o ho => (mem_ordersOf (by rw [hrows]; exact ho)).1
      rw [List.take_length_add_append, List.take_succ_cons]
      generalize hrest : [Stmt.insertEvent ⟨now, none, .dayClosed date (summarize rows)⟩].take j = rest
      have hev : ∀ s ∈ rest, s.isExpire = false ∧ s.isDayClose = false := fun s hs => by
        obtain rfl := List.mem_singleton.1 (List.mem_of_mem_take (by rw [hrest]; exact hs))
        exact ⟨rfl, rfl⟩
      refine ⟨hd, ?_, ?_⟩
      · have hr : expiredBy l rest = [] := expiredBy_eq_nil fun s hs => (hev s hs).1
        have hE := expiredBy_expireStmts hw now hmem
        simp only [expiredBy] at hr hE ⊢
        rw [List.filterMap_append, List.filterMap_cons, hE, hr, List.append_nil]
      · rw [execAll_append, execAll_cons, execAll_dayClose_of_none fun s hs => (hev s hs).2]
        rw [exec_insertDayClose, execAll_dayClose_of_none hE]
        intro r hr
        rw [execAll_dayClose_of_none hE] at hr
        exact dayCloseOf_none hd hr

/-- One cut operation keeps every expired order counted. -/
theorem expiredCounted_cut {st : CrashState} (hw : Wf st.ledger) (h : ExpiredCounted st) (c : Call) {k : Nat}
    (he : EndsClosed ((c.stmts st.ledger).take k)) :
    ExpiredCounted ⟨st.ledger.execAll ((c.stmts st.ledger).take k),
      st.expired ++ expiredBy st.ledger ((c.stmts st.ledger).take k)⟩ := by
  have hsame : expiredBy st.ledger ((c.stmts st.ledger).take k) = [] →
      (st.ledger.execAll ((c.stmts st.ledger).take k)).dayClose = st.ledger.dayClose →
      ExpiredCounted ⟨st.ledger.execAll ((c.stmts st.ledger).take k),
        st.expired ++ expiredBy st.ledger ((c.stmts st.ledger).take k)⟩ := by
    intro h1 h2
    rw [h1, List.append_nil]
    unfold ExpiredCounted
    simp only [h2]
    exact h
  cases c with
  | closeDay now date n =>
    simp only [Call.stmts] at he hsame ⊢
    obtain ⟨h1, h2⟩ | ⟨hd, h1, h2⟩ := closeDay_cut hw now date n k he
    · exact hsame h1 h2
    · rw [h1]
      -- the summary just written is the first of its day, so the log holds no earlier order of it
      have hnew : expiredOf st.expired date = [] := List.filter_eq_nil_iff.2 fun o ho hod => by
        obtain ⟨row, hrow, hrd, _⟩ := h o ho
        exact dayCloseOf_none hd hrow (hrd.trans (by simpa using hod))
      have hdate : ∀ o ∈ expirable (st.ledger.ordersOf date closeLimit), o.tradeDate = date := fun o ho =>
        (mem_ordersOf (List.mem_of_mem_filter ho)).2
      have hexp : expiredOf (expirable (st.ledger.ordersOf date closeLimit)) date =
          expirable (st.ledger.ordersOf date closeLimit) :=
        List.filter_eq_self.2 fun o ho => by simpa using hdate o ho
      intro o ho
      unfold ExpiredCounted at h
      simp only [h2, List.mem_append, List.mem_singleton] at ho ⊢
      by_cases hod : o.tradeDate = date
      · refine ⟨_, .inr rfl, hod.symm, ?_⟩
        have hall : expiredOf (st.expired ++ expirable (st.ledger.ordersOf date closeLimit)) o.tradeDate =
            expirable (st.ledger.ordersOf date closeLimit) := by
          rw [hod, expiredOf, List.filter_append]
          exact (congrArg₂ _ hnew hexp).trans (List.nil_append _)
        rw [hall]
        exact ⟨rfl, rfl⟩
      · have hold : o ∈ st.expired := ho.resolve_right fun hx => hod (hdate o hx)
        obtain ⟨row, hrow, hrd, hcount⟩ := h o hold
        refine ⟨row, .inl hrow, hrd, ?_⟩
        have hall : expiredOf (st.expired ++ expirable (st.ledger.ordersOf date closeLimit)) o.tradeDate =
            expiredOf st.expired o.tradeDate := by
          have hnil : expiredOf (expirable (st.ledger.ordersOf date closeLimit)) o.tradeDate = [] :=
            List.filter_eq_nil_iff.2 fun x hx hxd =>
              hod ((by simpa using hxd : x.tradeDate = o.tradeDate).symm.trans (hdate x hx))
          rw [expiredOf, List.filter_append]
          exact (congrArg _ hnil).trans (List.append_nil _)
        rw [hall]
        exact hcount
  | _ =>
    exact hsame (expiredBy_eq_nil fun s hs => (stmt_not_closing (by simp) (List.mem_of_mem_take hs)).1)
      (execAll_dayClose_of_none fun s hs => (stmt_not_closing (by simp) (List.mem_of_mem_take hs)).2)

/-! ## Runs -/

/-- A call, and the number of its statements committed when the process dies in it, if it does. -/
structure Attempt where
  call : Call
  crash : Option Nat
  deriving DecidableEq

/-- The statements that commit. -/
def Attempt.issued (a : Attempt) (l : Ledger) : List Stmt :=
  match a.crash with
  | none => a.call.stmts l
  | some k => (a.call.stmts l).take k

/-- One call on the file as it stands; what follows a crash is the reopened file. -/
def crashStep (st : CrashState) (a : Attempt) : Option CrashState :=
  some ⟨st.ledger.execAll (a.issued st.ledger), st.expired ++ expiredBy st.ledger (a.issued st.ledger)⟩

/-- Where the process may die: not after an `INSERT INTO fills`, not between the first `EXPIRED` and
the `INSERT INTO day_close`. -/
def safeCrash (st : CrashState) (a : Attempt) : Prop := ∀ k ∈ a.crash, SafeCut (a.call.stmts st.ledger) k

instance (st : CrashState) (a : Attempt) : Decidable (safeCrash st a) := by unfold safeCrash; infer_instance

/-- A new file. -/
def CrashState.init : CrashState := ⟨.empty, []⟩

/-- A completed call separates no pair of dependent writes. -/
theorem safeCut_completed (l : Ledger) (c : Call) : SafeCut (c.stmts l) (c.stmts l).length := by
  unfold SafeCut
  rw [List.take_length]
  refine ⟨call_endsPaired l c, ?_⟩
  cases c with
  | closeDay now date n =>
    obtain h | ⟨_, _, _, h⟩ := closeDay_cases l now date n
    · simp [EndsClosed, Call.stmts, h]
    · intro _
      exact ⟨.insertDayClose ⟨date, now, summarize (l.ordersOf date closeLimit)⟩, by simp [Call.stmts, h], rfl⟩
  | _ =>
    rintro ⟨s, hs, hx⟩
    have := (stmt_not_closing (by simp) hs).1
    simp [hx] at this

theorem crashStep_keeps {st st' : CrashState} {a : Attempt} (hb : Books st.ledger) (hx : ExpiredCounted st)
    (ha : safeCrash st a) (hs : crashStep st a = some st') : Books st'.ledger ∧ ExpiredCounted st' := by
  obtain ⟨k, hk, hcut⟩ : ∃ k, a.issued st.ledger = (a.call.stmts st.ledger).take k ∧
      SafeCut (a.call.stmts st.ledger) k := by
    unfold Attempt.issued
    cases hc : a.crash with
    | none => exact ⟨_, List.take_length.symm, safeCut_completed _ _⟩
    | some k => exact ⟨k, rfl, ha k hc⟩
  cases hs
  rw [hk]
  exact ⟨books_cut hb a.call hcut.1, expiredCounted_cut hb.wf hx a.call hcut.2⟩

/-- One buy of ten at the broker, with its day baseline. -/
def openedOrder : List Attempt :=
  [⟨.setTotalsBaseline ⟨"20260720", "005930", .buy⟩ ⟨0, 0, 0⟩, none⟩,
   ⟨.newOrder 0 "c1" ⟨"20260720", "005930", .buy⟩ 10 100 0, none⟩,
   ⟨.mark 1 1 .accepted (some "0000000101") none, none⟩]

/-- The notice of one share, cut at `k`, then the same notice and totals again. -/
def noticeCutAt (k : Nat) : List Attempt :=
  openedOrder ++
    [⟨.applyNotice 2 "20260720" "0000000101" 1 100 "n1", some k⟩,
     ⟨.applyNotice 3 "20260720" "0000000101" 1 100 "n1", none⟩,
     ⟨.applyTotals 4 ⟨"20260720", "005930", .buy⟩ ⟨10, 1, 100⟩, none⟩]

/-- The close of the day, cut at `k`, then again. -/
def closeCutAt (k : Nat) : List Attempt :=
  openedOrder ++ [⟨.closeDay 5 "20260720" 0, some k⟩, ⟨.closeDay 6 "20260720" 0, none⟩]

end OrderLedger

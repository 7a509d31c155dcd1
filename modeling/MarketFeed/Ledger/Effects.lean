import Mathlib.Tactic.Common
import MarketFeed.Ledger.Ops
/-!
# What the statements can do to each table

One lemma per table and statement kind, then the same for a script: rows of `orders` are only ever
appended by `insertOrder` and rewritten in place by `onRow` (`execAll_orders`), the other tables
only grow. `Wf` (ids increase and stay below the sequence, client ids are distinct) is kept by
every single statement, hence at every cut.
-/

namespace OrderLedger

open Script

/-! ## Rows of `orders` -/

/-- The order a statement updates. -/
def Stmt.target : Stmt → Option Nat
  | .markOrder id .. | .setState id .. | .updateFill id .. => some id
  | _ => none

def Stmt.isInsertOrder : Stmt → Bool
  | .insertOrder .. => true
  | _ => false

/-- A row keeps its identity, and all of it under a statement about another order. -/
theorem onRow_keeps (s : Stmt) (r : Order) :
    ((s.onRow r).id = r.id ∧ (s.onRow r).clientOrderId = r.clientOrderId ∧ (s.onRow r).key = r.key) ∧
      (s.target ≠ some r.id → s.onRow r = r) := by
  refine ⟨?_, fun h => ?_⟩
  · cases s <;> simp only [Stmt.onRow, Order.key, and_self] <;> split <;> exact ⟨rfl, rfl, rfl⟩
  · cases s <;> simp_all [Stmt.onRow, Stmt.target, eq_comm]

theorem onRow_of_target_ne {s : Stmt} {r : Order} (h : s.target ≠ some r.id) : s.onRow r = r := (onRow_keeps s r).2 h

@[simp] theorem onRow_id (s : Stmt) (r : Order) : (s.onRow r).id = r.id := (onRow_keeps s r).1.1

@[simp] theorem onRow_clientOrderId (s : Stmt) (r : Order) : (s.onRow r).clientOrderId = r.clientOrderId :=
  (onRow_keeps s r).1.2.1

@[simp] theorem onRow_key (s : Stmt) (r : Order) : (s.onRow r).key = r.key := (onRow_keeps s r).1.2.2

theorem exec_orders {l : Ledger} {s : Stmt} (h : s.isInsertOrder = false) :
    (l.exec s).orders = l.orders.map s.onRow := by
  have hid : ∀ s' : Stmt, s'.target = none → l.orders.map s'.onRow = l.orders := fun s' hs' =>
    (List.map_congr_left fun r _ => onRow_of_target_ne (by simp [hs'])).trans (List.map_id _)
  cases s with
  | insertOrder => simp [Stmt.isInsertOrder] at h
  | insertNotice n => rw [hid _ rfl]; simp only [Ledger.exec]; split <;> rfl
  | insertTotalsBaseline k t => rw [hid _ rfl]; simp only [Ledger.exec]; split <;> rfl
  | insertDayClose row => rw [hid _ rfl]; simp only [Ledger.exec]; split <;> rfl
  | insertFill | insertHolding | insertHoldingsTaken | insertEvent => rw [hid _ rfl]; rfl
  | markOrder | setState | updateFill => rfl

/-- `INSERT INTO orders` with a new client id. -/
theorem exec_insertOrder {l : Ledger} {cid : String} (h : ∀ o ∈ l.orders, o.clientOrderId ≠ cid) (date sym : String)
    (side : Side) (qty price est : Int) (now : Time) :
    l.exec (.insertOrder cid date sym side qty price est now) =
      { l with
        orders := l.orders ++ [⟨l.orderSeq + 1, cid, date, sym, side, qty, price, est, .pendingSubmit, none, none, 0, 0,
          now, now⟩]
        orderSeq := l.orderSeq + 1 } := by
  have hno : l.orders.any (·.clientOrderId == cid) = false := by
    rw [List.any_eq_false]
    intro o ho
    simpa using h o ho
  exact if_neg (by simp [hno])

/-- … and with one that is taken. -/
theorem exec_insertOrder_taken {l : Ledger} {cid : String} {o : Order} (ho : o ∈ l.orders) (hc : o.clientOrderId = cid)
    (date sym : String) (side : Side) (qty price est : Int) (now : Time) :
    l.exec (.insertOrder cid date sym side qty price est now) = l := by
  have hyes : l.orders.any (·.clientOrderId == cid) = true := List.any_eq_true.2 ⟨o, ho, by simpa using hc⟩
  exact if_pos hyes

/-- A row after a script, seen on its own. -/
def rowAfter (ss : List Stmt) (r : Order) : Order := runScript (fun r s => s.onRow r) r ss

@[simp] theorem rowAfter_nil (r : Order) : rowAfter [] r = r := rfl

@[simp] theorem rowAfter_cons (s : Stmt) (ss : List Stmt) (r : Order) :
    rowAfter (s :: ss) r = rowAfter ss (s.onRow r) := rfl

theorem rowAfter_append (ss ts : List Stmt) (r : Order) :
    rowAfter (ss ++ ts) r = rowAfter ts (rowAfter ss r) := runScript_append _ _ _ _

@[simp] theorem rowAfter_id (ss : List Stmt) (r : Order) : (rowAfter ss r).id = r.id :=
  runScript_frame (·.id) fun r s _ => onRow_id s r

@[simp] theorem rowAfter_clientOrderId (ss : List Stmt) (r : Order) :
    (rowAfter ss r).clientOrderId = r.clientOrderId :=
  runScript_frame (·.clientOrderId) fun r s _ => onRow_clientOrderId s r

@[simp] theorem rowAfter_key (ss : List Stmt) (r : Order) : (rowAfter ss r).key = r.key :=
  runScript_frame Order.key fun r s _ => onRow_key s r

theorem rowAfter_of_no_target {r : Order} :
    ∀ {ss : List Stmt}, (∀ s ∈ ss, s.target ≠ some r.id) → rowAfter ss r = r
  | [], _ => rfl
  | s :: ss, h => by
    rw [rowAfter_cons, onRow_of_target_ne (h s (by simp)),
      rowAfter_of_no_target fun t ht => h t (by simp [ht])]

theorem execAll_nil (l : Ledger) : l.execAll [] = l := rfl

theorem execAll_cons (l : Ledger) (s : Stmt) (ss : List Stmt) :
    l.execAll (s :: ss) = (l.exec s).execAll ss := rfl

theorem execAll_append (l : Ledger) (ss ts : List Stmt) :
    l.execAll (ss ++ ts) = (l.execAll ss).execAll ts := runScript_append _ _ _ _

/-- **Scripts act row by row.** Without an `insertOrder`, every row is rewritten on its own. -/
theorem execAll_orders : ∀ {ss : List Stmt} {l : Ledger}, (∀ s ∈ ss, s.isInsertOrder = false) →
    (l.execAll ss).orders = l.orders.map (rowAfter ss)
  | [], l, _ => (List.map_id _).symm
  | s :: ss, l, h => by
    rw [execAll_cons, execAll_orders fun t ht => h t (by simp [ht]), exec_orders (h s (by simp)), List.map_map]
    rfl

theorem execAll_orderSeq {ss : List Stmt} {l : Ledger} (h : ∀ s ∈ ss, s.isInsertOrder = false) :
    (l.execAll ss).orderSeq = l.orderSeq := by
  refine runScript_frame Ledger.orderSeq fun l s hs => ?_
  have := h s hs
  cases s <;> simp only [Stmt.isInsertOrder, Bool.true_eq_false, Ledger.exec] at this ⊢ <;> split <;> rfl

/-- A row stays, under its client id and key. -/
theorem execAll_keeps_row {l : Ledger} {r : Order} (hr : r ∈ l.orders) (ss : List Stmt) :
    ∃ r' ∈ (l.execAll ss).orders, r'.clientOrderId = r.clientOrderId ∧ r'.key = r.key := by
  have h0 : ∃ r' ∈ l.orders, r'.clientOrderId = r.clientOrderId ∧ r'.key = r.key := ⟨r, hr, rfl, rfl⟩
  refine runScript_invariant (I := fun l : Ledger => ∃ r' ∈ l.orders, r'.clientOrderId = r.clientOrderId ∧
    r'.key = r.key) h0 ?_
  rintro l s _ ⟨x, hx, hc, hk⟩
  cases hs : s.isInsertOrder with
  | false =>
    rw [exec_orders hs]
    exact ⟨s.onRow x, List.mem_map_of_mem hx, by rw [onRow_clientOrderId, hc], by rw [onRow_key, hk]⟩
  | true =>
    cases s <;> simp only [Stmt.isInsertOrder, Bool.false_eq_true] at hs
    simp only [Ledger.exec]
    split
    · exact ⟨x, hx, hc, hk⟩
    · exact ⟨x, List.mem_append_left _ hx, hc, hk⟩

/-! ## The tables that only grow -/

def Stmt.fills : Stmt → List Fill
  | .insertFill f => [f]
  | _ => []

@[simp] theorem exec_fills (l : Ledger) (s : Stmt) : (l.exec s).fills = l.fills ++ s.fills := by
  cases s <;> simp only [Ledger.exec, Stmt.fills, List.append_nil] <;> split <;> rfl

theorem execAll_fills : ∀ (ss : List Stmt) (l : Ledger), (l.execAll ss).fills = l.fills ++ ss.flatMap Stmt.fills
  | [], l => by simp [execAll_nil]
  | s :: ss, l => by rw [execAll_cons, execAll_fills ss, exec_fills]; simp

theorem exec_dayClose {l : Ledger} {s : Stmt} (h : ∀ row, s ≠ .insertDayClose row) :
    (l.exec s).dayClose = l.dayClose := by
  cases s <;> simp only [Ledger.exec] <;> first | rfl | (split <;> rfl) | exact absurd rfl (h _)

theorem exec_insertDayClose {l : Ledger} {row : DayClose} (h : ∀ r ∈ l.dayClose, r.tradeDate ≠ row.tradeDate) :
    (l.exec (.insertDayClose row)).dayClose = l.dayClose ++ [row] := by
  have hfresh : l.dayClose.any (·.tradeDate == row.tradeDate) = false := by
    rw [List.any_eq_false]
    intro r hr
    simpa using h r hr
  simp only [Ledger.exec, hfresh, Bool.false_eq_true, if_false]

theorem execAll_noticeFills_sub {l : Ledger} {n : NoticeFill} (hn : n ∈ l.noticeFills) (ss : List Stmt) :
    n ∈ (l.execAll ss).noticeFills := by
  refine runScript_invariant (I := fun l : Ledger => n ∈ l.noticeFills) hn fun l s _ h => ?_
  cases s <;> simp only [Ledger.exec] <;> first | exact h | (split <;> first | exact h | exact List.mem_append_left _ h)

theorem exec_totalsBaseline {l : Ledger} {s : Stmt} (h : ∀ k t, s ≠ .insertTotalsBaseline k t) :
    (l.exec s).totalsBaseline = l.totalsBaseline := by
  cases s <;> simp only [Ledger.exec] <;> first | rfl | (split <;> rfl) | exact absurd rfl (h _ _)

/-! ## Well-formed ledgers -/

/-- Ids increase, stay at or below the sequence, and client ids are distinct. -/
structure Wf (l : Ledger) : Prop where
  sorted : l.orders.Pairwise fun a b => a.id < b.id
  bounded : ∀ o ∈ l.orders, o.id ≤ l.orderSeq
  clientIds : l.orders.Pairwise fun a b => a.clientOrderId ≠ b.clientOrderId

theorem wf_empty : Wf .empty := ⟨by simp [Ledger.empty], by simp [Ledger.empty], by simp [Ledger.empty]⟩

theorem wf_map {l l' : Ledger} {f : Order → Order} (h : Wf l) (hid : ∀ o, (f o).id = o.id)
    (hcid : ∀ o, (f o).clientOrderId = o.clientOrderId) (ho : l'.orders = l.orders.map f)
    (hs : l'.orderSeq = l.orderSeq) : Wf l' := by
  refine ⟨?_, ?_, ?_⟩
  · rw [ho, List.pairwise_map]; simpa [hid] using h.sorted
  · rw [ho, hs]; simpa [hid] using h.bounded
  · rw [ho, List.pairwise_map]; simpa [hcid] using h.clientIds

theorem wf_exec {l : Ledger} (h : Wf l) (s : Stmt) : Wf (l.exec s) := by
  cases hs : s.isInsertOrder with
  | false =>
    refine wf_map h (onRow_id s) (onRow_clientOrderId s) (exec_orders hs) ?_
    exact @execAll_orderSeq [s] l (by simpa using hs)
  | true =>
    cases s <;> simp only [Stmt.isInsertOrder, Bool.false_eq_true] at hs
    simp only [Ledger.exec]
    split
    · exact h
    · rename_i cid _ _ _ _ _ _ _ hnew
      refine ⟨?_, ?_, ?_⟩
      · refine List.pairwise_append.2 ⟨h.sorted, by simp, fun a ha b hb => ?_⟩
        have := h.bounded a ha
        simp only [List.mem_singleton] at hb
        subst hb; simp only; omega
      · intro o ho
        simp only [List.mem_append, List.mem_singleton] at ho
        rcases ho with ho | rfl
        · have := h.bounded o ho; simp only; omega
        · simp
      · refine List.pairwise_append.2 ⟨h.clientIds, by simp, fun a ha b hb => ?_⟩
        simp only [List.mem_singleton] at hb
        subst hb
        intro hc
        exact hnew (List.any_eq_true.2 ⟨a, ha, by simpa using hc⟩)

theorem wf_execAll {l : Ledger} (h : Wf l) (ss : List Stmt) : Wf (l.execAll ss) :=
  runScript_invariant h fun _ s _ hl => wf_exec hl s

/-- An id names one row. -/
theorem Wf.eq_of_id {l : Ledger} (h : Wf l) {a b : Order} (ha : a ∈ l.orders) (hb : b ∈ l.orders)
    (hid : a.id = b.id) : a = b := by
  have hp : (l.orders.map (·.id)).Nodup := by
    rw [List.nodup_iff_pairwise_ne, List.pairwise_map]
    exact h.sorted.imp fun hlt => by omega
  exact List.inj_on_of_nodup_map hp ha hb hid

/-- A client order id names one row. -/
theorem Wf.eq_of_clientOrderId {l : Ledger} (h : Wf l) {a b : Order} (ha : a ∈ l.orders) (hb : b ∈ l.orders)
    (hc : a.clientOrderId = b.clientOrderId) : a = b := by
  have hp : (l.orders.map (·.clientOrderId)).Nodup := by
    rw [List.nodup_iff_pairwise_ne, List.pairwise_map]; exact h.clientIds
  exact List.inj_on_of_nodup_map hp ha hb hc

theorem Wf.order_eq {l : Ledger} (h : Wf l) {o : Order} (ho : o ∈ l.orders) : l.order o.id = some o := by
  unfold Ledger.order
  cases hf : l.orders.find? (·.id == o.id) with
  | none => exact absurd (List.find?_eq_none.1 hf o ho) (by simp)
  | some r =>
    have hr : r.id = o.id := by simpa using List.find?_some hf
    rw [h.eq_of_id (List.mem_of_find?_eq_some hf) ho hr]

theorem mem_rowsOf {l : Ledger} {k : Key} {o : Order} : o ∈ l.rowsOf k ↔ o ∈ l.orders ∧ o.key = k := by
  simp [Ledger.rowsOf]

end OrderLedger

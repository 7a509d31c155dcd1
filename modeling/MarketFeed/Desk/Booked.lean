import MarketFeed.Ledger.Quantities
import MarketFeed.Desk.Calls
/-!
# Fill bookkeeping over whole runs (ledger.py:141-158, :239-335, :375-405)

The counters of a row are written by notices and by reconciliation, its state also by the submit it belongs
to, by the recovery after a restart and by the close of the day. Whatever the order of these, every row is
`Coherent` in every reachable state, also after a crash inside an operation. The sums over `fills` need one
thing more, that the process does not die between a fill and its counter (`Desk.paired`).
-/

namespace OrderDesk

open OrderLedger Lts

variable {lim : Limits} {db : Db}

/-- The process does not die between an `INSERT INTO fills` and its `UPDATE orders`. -/
def Desk.paired (lim : Limits) (db : Db) (d : Desk) : Label → Bool
  | .crash a k => d.proc.all fun p => (act lim db d p a).all fun seg => decide (EndsPaired (seg.1.take k))
  | _ => true

/-- Requests pass their checks, and operations run to their end or are cut outside a pair. -/
def Recorded (lim : Limits) (db : Db) (d : Desk) (lbl : Label) : Prop :=
  lbl.Brings Request.Formed ∧ d.paired lim db lbl = true

instance (d : Desk) (lbl : Label) : Decidable (Recorded lim db d lbl) := by unfold Recorded; infer_instance

structure Booked (d : Desk) : Prop where
  inv : Inv d
  formed : ∀ p, d.proc = some p → p.All Request.Formed
  coherent : ∀ o ∈ d.ledger.orders, o.Coherent
  books : Books d.ledger

theorem booked_init : Booked .init :=
  ⟨inv_init, fun _ h => (nomatch h), fun _ h => (nomatch h), books_empty⟩

/-- One call of the desk, cut anywhere. -/
theorem coherent_call {d : Desk} (hd : Inv d) {p : Proc} (hp : d.proc = some p) (hf : p.All Request.Formed) {a : Act}
    {l : Ledger} {c : Call} (hcall : Calls lim d p a l c) (k : Nat) (hl : Wf l ∧ ∀ o ∈ l.orders, o.Coherent) :
    Wf (l.execAll ((c.stmts l).take k)) ∧ ∀ o ∈ (l.execAll ((c.stmts l).take k)).orders, o.Coherent := by
  obtain ⟨hw, hc⟩ := hl
  refine ⟨wf_execAll hw _, fun o ho => ?_⟩
  cases hcall with
  | newOrder hsame hpr =>
    rename_i q day now unit
    have hq : q.Formed := hpr.elim (fun h => h.1.asked hf) fun h => hf.2 _ h
    exact coherent_newOrder hc now q.clientOrderId (q.key day) hq.qty q.price unit k ho
  | mark hh hst =>
    have hholder : d.holder = p.holder := by rw [Desk.holder, hp]; rfl
    obtain ⟨own, hown⟩ := (hd.holds _ (hholder.trans hh)).after _ _ rfl
    obtain rfl := hown.id_eq
    refine coherent_mark hw hc hown.mem hown.pending ?_ ?_ _ _ _ k ho <;> rintro rfl <;> simp at hst
  | _ => exact coherent_rows hw hc (by simp) (by simp) k o ho

theorem booked_step {d d' : Desk} (hd : Booked d) {lbl : Label} (hok : Recorded lim db d lbl)
    (h : step lim db d lbl = some d') : Booked d' := by
  refine ⟨inv_step hd.inv h, step_all hd.formed hok.1 h, ?_, ?_⟩
  · refine (step_ledger (I := fun l => Wf l ∧ ∀ o ∈ l.orders, o.Coherent) h ⟨hd.inv.wf, hd.coherent⟩
      (fun p a l c k hp _ hl hcall => coherent_call hd.inv hp (hd.formed p hp) hcall k hl) fun now k => ?_).2
    exact ⟨wf_execAll hd.inv.wf _,
      coherent_rows hd.inv.wf hd.coherent (c := .recoverPending now) (by simp) (by simp) k⟩
  · cases stepped h with
    | @run a p p' ss sent hp ha =>
      have hissued := (act_issued ha).1
      have := hissued.books hd.books (k := ss.length) (by rw [List.take_length]; exact hissued.endsPaired)
      rwa [List.take_length] at this
    | @crash a k p p' ss sent hp ha =>
      have hpair := hok.2
      simp only [Desk.paired, hp, ha, Option.all_some, decide_eq_true_eq] at hpair
      exact (act_issued ha).1.books hd.books hpair
    | die => exact hd.books
    | @boot now dies k p hnone _ =>
      refine books_cut hd.books (.recoverPending now) (endsPaired_of_plain fun s hs => ?_)
      exact @plain_stmts d.ledger (.recoverPending now) (by simp) (by simp) s (List.mem_of_mem_take hs)
    | verdict => exact hd.books

/-- An order of three takes one share by a notice and another by the day totals, then the process restarts. -/
def partlyFilledOrder : List Label :=
  [.boot 0 none, .run (.arrive ⟨"c1", "005930", .buy, 3, 70000⟩), .run (.enter 0 "20260720" 1),
   .run (.totalled ⟨0, 0, 0⟩ 2), .run .send, .verdict 0 (.accepted "0000000101"),
   .run (.answer (.ok [(py "rt_cd", .str (py "0")), (py "output", .object [(py "ODNO", .str (py "0000000101"))])]) 3),
   .run (.notice 4 "20260720" "101" 1 70000 "n1"), .run (.startReconcile "20260720"), .run (.gotHoldings [] 5),
   .run (.gotTotals ⟨3, 2, 140000⟩ 6), .die, .boot 7 none]

end OrderDesk

import MarketFeed.Lib.Total
import MarketFeed.Ledger.States
import MarketFeed.Desk.AtMostOnce
/-!
# The desk beside a truthful broker (order_desk.py:268-392, ledger.py:239-273)

The ledger tells an order that got through from one that did not by the broker's day totals. Here the
broker has its own account, the verdicts on the requests (`Desk.atBroker`), and `Permitted` says what
the desk may count on: a reply tells the verdict, the totals of a key are what was ordered before the
desk came to it (`outside`) and what the broker has accepted of the key's rows (`Desk.taken`), and no
request is accepted after its row was given up as NOT_SENT.

`Honest` is then an invariant: live rows are at the broker, REJECTED and NOT_SENT rows are not. With one
open order per key, what the broker has of a key beyond its live rows is the one UNKNOWN row or nothing
(`Honest.extra_eq`), so `apply_totals` decides every UNKNOWN row rightly (`Turn`).
-/

namespace OrderDesk

open OrderLedger Lts Total

variable {lim : Limits} {db : Db} {outside : Key → Int}

/-! ## What the desk may count on -/

/-- The broker has accepted a request of this client id. -/
def Desk.atBroker (d : Desk) (cid : String) : Bool := d.sent.any fun s => s.clientOrderId == cid && s.verdict.isAccepted

/-- What the broker has accepted of the rows of a key. -/
def Desk.taken (d : Desk) (k : Key) : Int :=
  total (fun r => d.atBroker r.clientOrderId) (·.qty) (d.ledger.rowsOf k)

/-- The reply tells the verdict, if it tells anything. -/
def speaks (v : Verdict) : Py Fields → Bool
  | .ok _ => v.isAccepted
  | .error (.rejected _ _) => !v.counts
  | .error _ => true

/-- The totals of a key as the broker has them. -/
def Desk.tells (outside : Key → Int) (d : Desk) (k : Key) (totals : Totals) : Bool :=
  decide (totals.ordQty = outside k + d.taken k)

/-- What the broker says in a segment is so, and a request has passed the check of its quantity
(order_desk.py:279). -/
def Act.truthful (outside : Key → Int) (d : Desk) (p : Proc) : Act → Bool
  | .arrive q => decide (0 < q.qty)
  | .totalled totals _ =>
    match p.holder with
    | some ⟨q, .baselining day _⟩ => d.tells outside (q.key day) totals
    | _ => true
  | .answer result _ =>
    match p.holder with
    | some ⟨_, .sending _ _ _ j⟩ => (d.sent[j]?).all fun s => speaks s.verdict result
    | _ => true
  | .gotTotals totals _ =>
    match p.recon with
    | .totals day (k :: _) _ => d.tells outside ⟨day, k.1, k.2⟩ totals
    | _ => true
  | _ => true

/-- No request is accepted after its row was given up. -/
def Desk.inTime (d : Desk) : Label → Bool
  | .verdict j (.accepted _) =>
    (d.sent[j]?).all fun s => !d.ledger.orders.any fun r => r.clientOrderId == s.clientOrderId && r.state == .notSent
  | _ => true

def Desk.truthful (outside : Key → Int) (d : Desk) : Label → Bool
  | .run a | .crash a _ => d.proc.all fun p => a.truthful outside d p
  | _ => true

/-- A step beside a truthful broker that takes nothing in late. -/
def Permitted (outside : Key → Int) (d : Desk) (lbl : Label) : Prop := d.truthful outside lbl = true ∧
    d.inTime lbl = true

instance (d : Desk) (lbl : Label) : Decidable (Permitted outside d lbl) := by unfold Permitted; infer_instance

theorem atBroker_iff {d : Desk} {cid : String} :
    d.atBroker cid = true ↔ ∃ s ∈ d.sent, s.clientOrderId = cid ∧ s.verdict.isAccepted = true := by
  simp [Desk.atBroker]

theorem atBroker_false_iff {d : Desk} {cid : String} :
    d.atBroker cid = false ↔ ∀ s ∈ d.sent, s.clientOrderId = cid → s.verdict.isAccepted = false := by
  simp [Desk.atBroker]

/-! ## The invariant -/

def Proc.sized (p : Proc) : Prop := (∀ q ∈ p.waiting, 0 < q.qty) ∧ ∀ h, p.holder = some h → 0 < h.req.qty

structure Honest (outside : Key → Int) (d : Desk) : Prop where
  once : Once d
  sized : ∀ r ∈ d.ledger.orders, 0 < r.qty
  asked : ∀ p, d.proc = some p → p.sized
  own : ∀ q day id retried j, d.holder = some ⟨q, .sending day id retried j⟩ →
    ∃ s, d.sent[j]? = some s ∧ s.clientOrderId = q.clientOrderId
  live : ∀ r ∈ d.ledger.orders, r.state ∈ liveStates → d.atBroker r.clientOrderId = true
  rejected : ∀ r ∈ d.ledger.orders, r.state = .rejected →
    ∀ s ∈ d.sent, s.clientOrderId = r.clientOrderId → s.verdict.counts = false
  notSent : ∀ r ∈ d.ledger.orders, r.state = .notSent → d.atBroker r.clientOrderId = false
  based : ∀ r ∈ d.ledger.orders, (d.ledger.baseline r.key).isSome = true
  told : ∀ e ∈ d.ledger.totalsBaseline, e.2.ordQty = outside e.1

theorem honest_init : Honest outside .init := by
  refine ⟨once_init, ?_, ?_, ?_, ?_, ?_, ?_, ?_, ?_⟩ <;> simp [Desk.init, Desk.holder, Ledger.empty]

/-- With one open order per key, an UNKNOWN row is the only one of its key. -/
theorem Inv.unknownOf_eq {d : Desk} (hd : Inv d) {u : Order} (hu : u ∈ d.ledger.orders) (hst : u.state = .unknown) :
    unknownOf (d.ledger.rowsOf u.key) = [u] := by
  have hnodup : (unknownOf (d.ledger.rowsOf u.key)).Nodup := (List.Nodup.of_map _ (hd.wf.rowsOf_ids u.key)).filter _
  apply List.perm_singleton.1
  apply (List.perm_ext_iff_of_nodup hnodup (List.nodup_singleton u)).2
  intro x
  rw [mem_unknownOf, mem_rowsOf, List.mem_singleton]
  constructor
  · rintro ⟨⟨hx, hk⟩, hxst⟩
    exact hd.oneOpen x hx u hu hk (isOpen_of_unknown hxst) (isOpen_of_unknown hst)
  · rintro rfl
    exact ⟨⟨hu, rfl⟩, hst⟩

/-- **What the broker has beyond the live rows** of a key with an UNKNOWN row is that row, or nothing. -/
theorem Honest.extra_eq {d : Desk} (hd : Honest outside d) {u : Order} (hu : u ∈ d.ledger.orders)
    (hst : u.state = .unknown) {base broker : Totals} (hb : d.ledger.baseline u.key = some base)
    (ht : d.tells outside u.key broker = true) :
    d.ledger.extra u.key base broker = if d.atBroker u.clientOrderId then u.qty else 0 := by
  have hone := hd.once.inv.unknownOf_eq hu hst
  have hbase : base.ordQty = outside u.key := hd.told _ (baseline_mem hb)
  have hbroker : broker.ordQty = outside u.key + d.taken u.key := by simpa [Desk.tells] using ht
  let live : Order → Bool := fun r => decide (r.state ∈ liveStates)
  let unk : Order → Bool := fun r => decide (r.state = .unknown)
  let there : Order → Bool := fun r => d.atBroker r.clientOrderId
  -- the live rows are all at the broker
  have hlive : total (fun r => there r && live r) (·.qty)
      (d.ledger.rowsOf u.key) = sumQty (liveOf (d.ledger.rowsOf u.key)) := by
    rw [@total_congr _ _ _ _ live]
    · rfl
    · intro r hr
      by_cases hl : r.state ∈ liveStates
      · simp [there, live, hl, hd.live r (mem_rowsOf.1 hr).1 hl]
      · simp [live, hl]
  -- of the others, only the UNKNOWN one may be
  have hrest : total (fun r => there r && !live r) (·.qty) (d.ledger.rowsOf u.key) =
      total there (·.qty) (unknownOf (d.ledger.rowsOf u.key)) := by
    rw [unknownOf, total_filter]
    refine total_congr fun r hr => ?_
    obtain ⟨hro, hrk⟩ := mem_rowsOf.1 hr
    cases hs : r.state with
    | pendingSubmit =>
      have hru := hd.once.inv.oneOpen r hro u hu hrk (isOpen_of_pendingSubmit hs) (isOpen_of_unknown hst)
      rw [hru, hst] at hs
      cases hs
    | rejected =>
      have hno : d.atBroker r.clientOrderId = false := by
        rw [atBroker_false_iff]
        intro s hs' hc
        by_contra hacc
        have := hd.rejected r hro hs s hs' hc
        rw [counts_of_isAccepted (by simpa using hacc)] at this
        cases this
      simp [there, hno]
    | notSent => simp [there, hd.notSent r hro hs]
    | unknown => simp [there, live, hs, liveStates]
    | accepted | partlyFilled | filled | expired => simp [live, hs, liveStates]
  have htaken : d.taken u.key = sumQty (liveOf (d.ledger.rowsOf u.key)) + if d.atBroker u.clientOrderId then u.qty
      else 0 := by
    have hsplit := total_split there live (·.qty) (d.ledger.rowsOf u.key)
    rw [hlive, hrest, hone, total_cons, total_nil, Int.add_zero] at hsplit
    exact hsplit
  rw [Ledger.extra, hbroker, hbase, htaken]
  omega

end OrderDesk

import MarketFeed.Ledger.Issued
import MarketFeed.Desk.OneOrder
/-!
# The ledger calls of a segment (order_desk.py:268-392)

`Calls lim d p a l c`: the segment `a` may call `c` when the ledger is at `l`. Every segment issues such
calls and nothing else (`act_issued`), a restart calls `recover_pending`. `new_order` is called with a
unit price that passed both limits, in this segment or before the wait for the day totals; `mark` is
called on the submit's own row.

What every request satisfies when it arrives it satisfies for as long as the process remembers it
(`step_all`).
-/

namespace OrderDesk

open OrderLedger Lts

variable {lim : Limits} {db : Db} {P : Request → Prop}

/-! ## The requests in memory -/

/-- The checks of a request on its own: `1 <= qty` and `0 <= price` (order_desk.py:279). -/
structure Request.Formed (q : Request) : Prop where
  qty : 0 < q.qty
  price : 0 ≤ q.price

instance (q : Request) : Decidable q.Formed :=
  decidable_of_iff (0 < q.qty ∧ 0 ≤ q.price) ⟨fun h => ⟨h.1, h.2⟩, fun h => ⟨h.qty, h.price⟩⟩

/-- Every request of the process satisfies `P`. -/
def Proc.All (P : Request → Prop) (p : Proc) : Prop := (∀ q ∈ p.waiting, P q) ∧ ∀ h, p.holder = some h → P h.req

/-- The request a step brings satisfies `P`. -/
def Label.Brings (P : Request → Prop) : Label → Prop
  | .run (.arrive q) => P q
  | .crash (.arrive q) _ => P q
  | _ => True

instance [DecidablePred P] (lbl : Label) : Decidable (lbl.Brings P) := by
  unfold Label.Brings
  split <;> infer_instance

theorem Proc.all_fresh : Proc.fresh.All P := ⟨fun _ h => (nomatch h), fun _ h => (nomatch h)⟩

theorem Proc.all_withStage {p : Proc} (h : ∀ q ∈ p.waiting, P q) {q : Request} (hq : P q) (stage : Option Stage) :
    (p.withStage q stage).All P := by
  refine ⟨h, fun x hx => ?_⟩
  obtain ⟨st, _, rfl⟩ := Option.map_eq_some_iff.1 hx
  exact hq

theorem act_all {d : Desk} {p : Proc} (hs : p.All P) {a : Act} (ha : (Label.run a).Brings P)
    {ss : List Stmt} {p' : Proc}
    {sent : List Sent} (h : act lim db d p a = some (ss, p', sent)) : p'.All P := by
  have herase : ∀ i, ∀ q ∈ p.waiting.eraseIdx i, P q := fun i q hq => hs.1 q (List.mem_of_mem_eraseIdx hq)
  cases a with
  | arrive q =>
    cases h
    refine ⟨fun x hx => ?_, hs.2⟩
    rcases List.mem_append.1 hx with hx | hx
    · exact hs.1 x hx
    · rw [List.mem_singleton.1 hx]
      exact ha
  | enter i day now =>
    simp only [act] at h
    split at h
    · rename_i q _ hget
      cases h
      exact Proc.all_withStage (herase i) (hs.1 q (List.mem_of_getElem? hget)) _
    · cases h
  | priced | totalled | send =>
    simp only [act] at h
    split at h
    · rename_i heq
      cases h
      exact Proc.all_withStage hs.1 (hs.2 _ heq) _
    · cases h
  | answer result now =>
    simp only [act] at h
    split at h
    · rename_i heq
      split at h
      · split at h
        · split at h <;> cases h <;> exact Proc.all_withStage hs.1 (hs.2 _ heq) _
        · cases h
      · cases h
    · cases h
  | leave =>
    simp only [act] at h
    split at h
    · cases h
      exact ⟨hs.1, fun x hx => by cases hx⟩
    · cases h
  | abandon i =>
    cases h
    exact ⟨herase i, hs.2⟩
  | startReconcile | gotBalance =>
    simp only [act] at h
    split at h
    · split at h <;> cases h <;> exact hs
    · cases h
  | gotHoldings | gotTotals =>
    simp only [act] at h
    split at h
    · cases h
      exact hs
    · cases h
  | reconcileFailed | notice =>
    cases h
    exact hs

/-- **What holds of every arrival holds of every request in memory.** -/
theorem step_all {d d' : Desk} (hd : ∀ p, d.proc = some p → p.All P) {lbl : Label} (hb : lbl.Brings P)
    (h : step lim db d lbl = some d') : ∀ p, d'.proc = some p → p.All P := by
  intro x hx
  cases stepped h with
  | run hp ha =>
    cases hx
    exact act_all (hd _ hp) hb ha
  | crash | die => cases hx
  | boot _ hp =>
    obtain rfl | rfl := hp <;> cases hx
    exact Proc.all_fresh
  | verdict => exact hd x hx

/-! ## The calls -/

/-- `notional` is within the limit per order and within what is left of the day's (order_desk.py:294-301). -/
def Request.within (lim : Limits) (l : Ledger) (q : Request) (day : String) (unit : Int) : Prop :=
  unit * q.qty ≤ lim.orderMaxKrw ∧ l.notionalToday day + unit * q.qty ≤ lim.orderDailyMaxKrw

/-- The segment `a` has the unit price of `q` at hand: the price of the request, or the quote it waited for. -/
inductive Pricing (p : Proc) : Act → Request → String → Int → Prop
  | limit {i : Nat} {q : Request} {day : String} {now : Time} : q ∈ p.waiting → q.price ≠ 0 →
    Pricing p (.enter i day now) q day q.price
  | market {q : Request} {day : String} {unit : Int} {now : Time} : p.holder = some ⟨q, .pricing day⟩ →
    Pricing p (.priced unit now) q day unit

theorem Pricing.asked {p : Proc} {a : Act} {q : Request} {day : String} {unit : Int} (h : Pricing p a q day unit)
    (hs : p.All P) : P q := by
  cases h with
  | limit hq => exact hs.1 q hq
  | market hh => exact hs.2 _ hh

/-- The calls of the segment `a`, which finds the ledger of `d`. -/
inductive Calls (lim : Limits) (d : Desk) (p : Proc) (a : Act) : Ledger → Call → Prop
  | newOrder {l : Ledger} {q : Request} {day : String} {now : Time} {unit : Int} : l.orders = d.ledger.orders →
    ((Pricing p a q day unit ∧ q.within lim d.ledger day unit) ∨ p.holder = some ⟨q, .baselining day unit⟩) →
    Calls lim d p a l (.newOrder now q.clientOrderId (q.key day) q.qty q.price unit)
  | mark {q : Request} {day : String} {id : Nat} {retried : Bool} {j : Nat} {now : Time} {st : OrderState}
    {odno message : Option String} : p.holder = some ⟨q, .sending day id retried j⟩ →
    st ∈ [OrderState.accepted, .rejected, .unknown] → Calls lim d p a d.ledger (.mark now id st odno message)
  | setTotalsBaseline {l : Ledger} {k : Key} {totals : Totals} : Calls lim d p a l (.setTotalsBaseline k totals)
  | setHoldingsBaseline {l : Ledger} {day : String} {holdings : List (String × Int)} {now : Time} :
    p.recon = .holdings day → a = .gotHoldings holdings now → Calls lim d p a l (.setHoldingsBaseline now day holdings)
  | applyTotals {l : Ledger} {k : Key} {totals : Totals} {now : Time} : Calls lim d p a l (.applyTotals now k totals)
  | applyNotice {l : Ledger} {now : Time} {date odno : String} {qty price : Int} {key : String} :
    a = .notice now date odno qty price key → Calls lim d p a l (.applyNotice now date odno qty price key)
  | closeDay {l : Ledger} {now : Time} {date : String} {n : Nat} : Calls lim d p a l (.closeDay now date n)

/-- A submit waits for the day totals with a unit price that passed both limits. -/
def Proc.Baselines (lim : Limits) (d : Desk) (p : Proc) (a : Act) (p' : Proc) : Prop :=
  ∀ q day unit, p'.holder = some ⟨q, .baselining day unit⟩ →
    p.holder = p'.holder ∨ (Pricing p a q day unit ∧ q.within lim d.ledger day unit)

section
variable {d : Desk} {p : Proc} {a : Act}

/-- From the unit price on, a submit is refused, waits for the totals, or records its order. -/
theorem issued_priced {q : Request} {day : String} {unit : Int} (hp : Pricing p a q day unit) (now : Time) :
    Issued (Calls lim d p a) d.ledger (q.priced lim d.ledger now day unit).1 ∧
    ∀ stage, (q.priced lim d.ledger now day unit).2 = some stage → ∀ day' unit', stage = .baselining day' unit' →
      Pricing p a q day' unit' ∧ q.within lim d.ledger day' unit' := by
  unfold Request.priced
  simp only
  split
  · exact ⟨.nothing, fun _ h => by cases h⟩
  · split
    · exact ⟨.nothing, fun _ h => by cases h⟩
    · rename_i hone hday
      have hw : q.within lim d.ledger day unit := ⟨by omega, by omega⟩
      cases d.ledger.baseline (q.key day) with
      | none =>
        refine ⟨.nothing, fun stage hs day' unit' he => ?_⟩
        cases hs
        cases he
        exact ⟨hp, hw⟩
      | some base =>
        refine ⟨.one (Calls.newOrder rfl (.inl ⟨hp, hw⟩)), fun stage hs day' unit' he => ?_⟩
        cases hs
        cases he

theorem issued_finish {q : Request} {day : String} {id : Nat} {retried : Bool} {j : Nat}
    (hh : p.holder = some ⟨q, .sending day id retried j⟩) (now : Time) (result : Py Accepted) :
    Issued (Calls lim d p a) d.ledger (finish db now id result) := by
  obtain h0 | ⟨st, hst, odno, message, h0⟩ := finish_cases db now id result
  · rw [h0]
    exact .nothing
  · rw [h0]
    exact .one (Calls.mark hh hst)

/-- A lock that is kept, given up, or left at another `await`. -/
theorem baselines_of_ne {p' : Proc} (h : p'.holder = p.holder ∨
    ∀ q day unit, p'.holder ≠ some ⟨q, .baselining day unit⟩) :
    p.Baselines lim d a p' := by
  intro q day unit hh
  rcases h with h | h
  · exact .inl h.symm
  · exact absurd hh (h q day unit)

theorem baselines_priced {q : Request} {day : String} {unit : Int} (hp : Pricing p a q day unit) (now : Time)
    {p₀ : Proc} :
    p.Baselines lim d a (p₀.withStage q (q.priced lim d.ledger now day unit).2) := by
  intro q' day' unit' hh
  obtain ⟨stage, hs, he⟩ := Option.map_eq_some_iff.1 hh
  cases he
  exact .inr ((issued_priced hp now).2 _ hs _ _ rfl)

/-- **What a segment writes is what its calls write.** -/
theorem act_issued {ss : List Stmt} {p' : Proc} {sent : List Sent} (h : act lim db d p a = some (ss, p', sent)) :
    Issued (Calls lim d p a) d.ledger ss ∧ p.Baselines lim d a p' := by
  cases a with
  | arrive | abandon | reconcileFailed =>
    cases h
    exact ⟨.nothing, baselines_of_ne (.inl rfl)⟩
  | enter i day now =>
    simp only [act] at h
    split at h
    · rename_i q _ hget
      cases h
      unfold Request.enter
      have hfree : p.Baselines lim d (.enter i day now) ({ p with waiting := p.waiting.eraseIdx i }.withStage q none) :=
        baselines_of_ne (.inr fun _ _ _ h => by cases h)
      split
      · exact ⟨.nothing, hfree⟩
      · split
        · exact ⟨.nothing, hfree⟩
        · split
          · exact ⟨.nothing, hfree⟩
          · split
            · rename_i hprice
              have hp : Pricing p (.enter i day now) q day q.price := .limit (List.mem_of_getElem? hget) hprice
              exact ⟨(issued_priced hp now).1, baselines_priced hp now⟩
            · exact ⟨.nothing, baselines_of_ne (.inr fun _ _ _ h => by cases h)⟩
    · cases h
  | priced unit now =>
    simp only [act] at h
    split at h
    · rename_i q day heq
      cases h
      have hp : Pricing p (.priced unit now) q day unit := .market heq
      exact ⟨(issued_priced hp now).1, baselines_priced hp now⟩
    · cases h
  | totalled totals now =>
    simp only [act] at h
    split at h
    · rename_i q day unit heq
      cases h
      refine ⟨Issued.call Calls.setTotalsBaseline ?_, baselines_of_ne (.inr fun _ _ _ h => by cases h)⟩
      -- the baseline changes nothing that `new_order` reads
      obtain ⟨hrows, hsame⟩ : (d.ledger.call (.setTotalsBaseline (q.key day) totals)).orders = d.ledger.orders ∧
          (d.ledger.call (.setTotalsBaseline (q.key day) totals)).newOrderStmts now q.clientOrderId (q.key day)
            q.qty q.price
            unit = d.ledger.newOrderStmts now q.clientOrderId (q.key day) q.qty q.price unit := by
        show (d.ledger.exec (.insertTotalsBaseline (q.key day) totals)).orders = _ ∧
          (d.ledger.exec (.insertTotalsBaseline (q.key day) totals)).newOrderStmts now q.clientOrderId (q.key day) q.qty
            q.price unit = _
        simp only [Ledger.exec]
        split <;> exact ⟨rfl, rfl⟩
      have hissued : Issued (Calls lim d p (.totalled totals now))
          (d.ledger.call (.setTotalsBaseline (q.key day) totals))
          (Call.stmts (d.ledger.call (.setTotalsBaseline (q.key day) totals))
            (.newOrder now q.clientOrderId (q.key day) q.qty q.price unit)) := .one (Calls.newOrder hrows (.inr heq))
      rwa [Call.stmts, hsame] at hissued
    · cases h
  | send =>
    simp only [act] at h
    split at h
    · cases h
      exact ⟨.nothing, baselines_of_ne (.inr fun _ _ _ h => by cases h)⟩
    · cases h
  | answer result now =>
    simp only [act] at h
    split at h
    · rename_i q day id retried j heq
      split at h
      · split at h
        · split at h <;> cases h
          · exact ⟨.nothing, baselines_of_ne (.inr fun _ _ _ h => by cases h)⟩
          · exact ⟨issued_finish heq _ _, baselines_of_ne (.inr fun _ _ _ h => by cases h)⟩
        · cases h
      · cases h
    · cases h
  | leave =>
    simp only [act] at h
    split at h
    · cases h
      exact ⟨.nothing, baselines_of_ne (.inr fun _ _ _ h => by cases h)⟩
    · cases h
  | startReconcile day =>
    simp only [act] at h
    split at h
    · split at h <;> cases h <;> exact ⟨.nothing, baselines_of_ne (.inl rfl)⟩
    · cases h
  | gotHoldings holdings now =>
    simp only [act] at h
    split at h
    · rename_i day heq
      cases h
      exact ⟨.one (Calls.setHoldingsBaseline heq rfl), baselines_of_ne (.inl rfl)⟩
    · cases h
  | gotTotals totals now =>
    simp only [act] at h
    split at h
    · cases h
      exact ⟨.one Calls.applyTotals, baselines_of_ne (.inl rfl)⟩
    · cases h
  | gotBalance holdings now closing =>
    simp only [act] at h
    split at h
    · cases closing with
      | none => cases h; exact ⟨.nothing, baselines_of_ne (.inl rfl)⟩
      | some date => cases h; exact ⟨.one Calls.closeDay, baselines_of_ne (.inl rfl)⟩
    · cases h
  | notice now date odno qty price key =>
    cases h
    exact ⟨.one (Calls.applyNotice rfl), baselines_of_ne (.inl rfl)⟩

end

/-- The segment of a step, run to its end or cut. -/
inductive Label.OfAct (a : Act) : Label → Prop
  | run : Label.OfAct a (.run a)
  | crash {k : Nat} : Label.OfAct a (.crash a k)

/-- **What every cut call keeps, every step keeps.** -/
theorem step_ledger {I : Ledger → Prop} {d d' : Desk} {lbl : Label} (h : step lim db d lbl = some d') (h0 : I d.ledger)
    (hcall : ∀ p a l c k, d.proc = some p → lbl.OfAct a → I l → Calls lim d p a l c →
      I (l.execAll ((c.stmts l).take k)))
    (hboot : ∀ now k, I (d.ledger.execAll ((d.ledger.recoverPendingStmts now).take k))) : I d'.ledger := by
  cases stepped h with
  | @run a p p' ss sent hp ha =>
    have := (act_issued ha).1.invariant h0 (fun l c k => hcall p a l c k hp .run) ss.length
    rwa [List.take_length] at this
  | @crash a k p p' ss sent hp ha => exact (act_issued ha).1.invariant h0 (fun l c k => hcall p a l c k hp .crash) k
  | die => exact h0
  | boot => exact hboot _ _
  | verdict => exact h0

end OrderDesk

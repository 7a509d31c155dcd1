import MarketFeed.Desk.Truth
import MarketFeed.Desk.Calls
/-!
# What a step may do to a row beside a truthful broker

`Deed d ss`: a segment writes `ss`, with what the broker has said for it. Every step of a permitted run
issues a deed, whole or cut (`step_deed`), and the state a deed gives a row is one of `Turn`
(`Deed.turn`). From there `Honest` is an invariant (`honest_step`).
-/

namespace OrderDesk

open OrderLedger Lts Total

variable {lim : Limits} {db : Db} {outside : Key → Int}

/-- `reconcile_once` waits for the totals of this key. -/
def Desk.examines (d : Desk) (k : Key) : Prop :=
  ∃ p keys found, d.proc = some p ∧ p.recon = .totals k.tradeDate ((k.symbol, k.side) :: keys) found

/-- What a segment writes. -/
inductive Deed (db : Db) (outside : Key → Int) (d : Desk) : List Stmt → Prop
  | nothing : Deed db outside d []
  | record {q : Request} {day : String} {pre : List Stmt} {now : Time} {unit : Int} : d.passed q day → 0 < q.qty →
    ((pre = [] ∧ (d.ledger.baseline (q.key day)).isSome = true) ∨
      ∃ t, pre = [.insertTotalsBaseline (q.key day) t] ∧ d.tells outside (q.key day) t = true) →
    Deed db outside d (pre ++ d.ledger.newOrderStmts now q.clientOrderId (q.key day) q.qty q.price unit)
  | answered {q : Request} {day : String} {id : Nat} {retried : Bool} {j : Nat} {s : Sent} {result : Py Fields}
      {now : Time} :
    d.holder = some ⟨q, .sending day id retried j⟩ → d.sent[j]? = some s → speaks s.verdict result = true →
    Deed db outside d (finish db now id (result.bind readOrder))
  | totals {k : Key} {totals : Totals} {now : Time} : d.examines k → d.tells outside k totals = true →
    Deed db outside d (d.ledger.applyTotalsStmts now k totals)
  | holdings {day : String} {holdings : List (String × Int)} {now : Time} :
    Deed db outside d (d.ledger.setHoldingsBaselineStmts now day holdings)
  | notice {date odno : String} {qty price : Int} {key : String} {now : Time} :
    Deed db outside d (d.ledger.applyNotice now date odno qty price key).1
  | close {date : String} {n : Nat} {now : Time} : Deed db outside d (d.ledger.closeDay now date n).1
  | recovered {now : Time} : Deed db outside d (d.ledger.recoverPendingStmts now)

/-! ## Every step is a deed -/

theorem deed_priced {d : Desk} {q : Request} {day : String} (hp : d.passed q day) (hq : 0 < q.qty) (now : Time)
    (unit : Int) :
    Deed db outside d (q.priced lim d.ledger now day unit).1 := by
  unfold Request.priced
  simp only
  split
  · exact .nothing
  · split
    · exact .nothing
    · cases hb : d.ledger.baseline (q.key day) with
      | none => exact .nothing
      | some base => exact @Deed.record db outside d q day [] now unit hp hq (.inl ⟨rfl, by simp [hb]⟩)

theorem deed_enter {d : Desk} {q : Request} (hh : d.holder = none) (hq : 0 < q.qty) (day : String) (now : Time) :
    Deed db outside d (q.enter lim d.ledger now day).1 := by
  unfold Request.enter
  split
  · exact .nothing
  · split
    · exact .nothing
    · split
      · exact .nothing
      · rename_i h1 h2 h3
        split
        · exact deed_priced (.inl ⟨hh, by simpa using h1, by simpa using h2, by simpa using h3⟩) hq now q.price
        · exact .nothing

/-- Requests of positive quantity stay so in memory, a truthful arrival with them. -/
theorem act_sized {d : Desk} {p : Proc} (hs : p.sized) {a : Act} (ht : a.truthful outside d p = true)
    {ss : List Stmt} {p' : Proc}
    {sent : List Sent} (h : act lim db d p a = some (ss, p', sent)) : p'.sized := by
  have hbrings : (Label.run a).Brings (fun q => 0 < q.qty) := by
    cases a with
    | arrive q => simpa [Act.truthful, Label.Brings] using ht
    | _ => trivial
  exact act_all hs hbrings h

theorem act_deed {d : Desk} {p : Proc} (hp : d.proc = some p) (hs : p.sized)
    {a : Act} (ht : a.truthful outside d p = true)
    {ss : List Stmt} {p' : Proc} {sent : List Sent} (h : act lim db d p a = some (ss, p', sent)) :
    Deed db outside d ss := by
  have hh : d.holder = p.holder := by rw [Desk.holder, hp]; rfl
  cases a with
  | enter i day now =>
    simp only [act] at h
    split at h
    · rename_i q hnone hget
      cases h
      exact deed_enter (hh.trans hnone) (hs.1 q (List.mem_of_getElem? hget)) day now
    · cases h
  | priced unit now =>
    simp only [act] at h
    split at h
    · rename_i q day heq
      cases h
      exact deed_priced (.inr ⟨_, hh.trans heq, rfl⟩) (hs.2 _ heq) now unit
    · cases h
  | totalled totals now =>
    simp only [act] at h
    split at h
    · rename_i q day unit heq
      cases h
      refine .record (.inr ⟨_, hh.trans heq, rfl⟩) (hs.2 _ heq) (.inr ⟨totals, rfl, ?_⟩)
      simpa [Act.truthful, heq] using ht
    · cases h
  | answer result now =>
    simp only [act] at h
    split at h
    · rename_i q day id retried j heq
      split at h
      · rename_i s hj
        split at h
        · split at h
          · cases h
            exact .nothing
          · cases h
            refine .answered (hh.trans heq) hj ?_
            simpa [Act.truthful, heq, hj] using ht
        · cases h
      · cases h
    · cases h
  | startReconcile day =>
    simp only [act] at h
    split at h
    · split at h <;> cases h <;> exact .nothing
    · cases h
  | gotHoldings holdings now =>
    simp only [act] at h
    split at h
    · cases h
      exact .holdings
    · cases h
  | gotTotals totals now =>
    simp only [act] at h
    split at h
    · rename_i day k keys found heq
      cases h
      refine .totals ⟨p, keys, found, hp, heq⟩ ?_
      simpa [Act.truthful, heq] using ht
    · cases h
  | gotBalance holdings now closing =>
    simp only [act] at h
    split at h
    · cases closing with
      | none => cases h; exact .nothing
      | some date => cases h; exact .close
    · cases h
  | send | leave =>
    simp only [act] at h
    split at h
    · cases h
      exact .nothing
    · cases h
  | notice now date odno qty price key => cases h; exact .notice
  | arrive | abandon | reconcileFailed => cases h; exact .nothing

/-- The ledger after a permitted step: a deed, perhaps cut. -/
theorem step_deed {d d' : Desk} (hd : Honest outside d) {lbl : Label} (ht : d.truthful outside lbl = true)
    (h : step lim db d lbl = some d') :
    (∃ ss n, Deed db outside d ss ∧ d'.ledger = d.ledger.execAll (ss.take n)) ∧ ∀ p, d'.proc = some p → p.sized := by
  cases stepped h with
  | @run a p p' ss sent hp ha =>
    have hta : a.truthful outside d p = true := by simpa [Desk.truthful, hp] using ht
    refine ⟨⟨ss, ss.length, act_deed hp (hd.asked p hp) hta ha, ?_⟩, fun x hx => ?_⟩
    · rw [List.take_length]
      rfl
    · cases hx
      exact act_sized (hd.asked p hp) hta ha
  | @crash a k p p' ss sent hp ha =>
    have hta : a.truthful outside d p = true := by simpa [Desk.truthful, hp] using ht
    exact ⟨⟨ss, k, act_deed hp (hd.asked p hp) hta ha, rfl⟩, fun x hx => by cases hx⟩
  | die => exact ⟨⟨[], 0, .nothing, rfl⟩, fun x hx => by cases hx⟩
  | boot _ hp =>
    refine ⟨⟨_, _, .recovered, rfl⟩, fun x hx => ?_⟩
    obtain rfl | rfl := hp
    · cases hx
    · cases hx
      exact ⟨by simp [Proc.fresh], by simp [Proc.fresh]⟩
  | verdict => exact ⟨⟨[], 0, .nothing, rfl⟩, hd.asked⟩

/-! ## What a deed makes of a row -/

/-- The state a deed may give the row `r`. -/
inductive Turn (d : Desk) (r : Order) : OrderState → Prop
  | lost : r.state = .pendingSubmit → Turn d r .unknown
  | accepted : r.state = .pendingSubmit → d.atBroker r.clientOrderId = true → Turn d r .accepted
  | rejected : r.state = .pendingSubmit →
    (∀ s ∈ d.sent, s.clientOrderId = r.clientOrderId → s.verdict.counts = false) → Turn d r .rejected
  | filled {st : OrderState} : r.state ∈ fillableStates → st ∈ liveStates → Turn d r st
  | found {st : OrderState} : r.state = .unknown → d.examines r.key → d.atBroker r.clientOrderId = true →
    st ∈ liveStates → Turn d r st
  | missing : r.state = .unknown → d.examines r.key → d.atBroker r.clientOrderId = false → Turn d r .notSent

/-- What `submit` marks in the end, by what the reply was. -/
theorem finish_sets {now : Time} {id : Nat} {result : Py Fields} {s : Stmt}
    (hs : s ∈ finish db now id (result.bind readOrder)) {id' : Nat} {st : OrderState} (h : s.sets = some (id', st)) :
    id' = id ∧ ((st = .accepted ∧ ∃ f, result = .ok f) ∨
      (st = .rejected ∧ ∃ code msg, result = .error (.rejected code msg)) ∨ st = .unknown) := by
  have hmark : ∀ st' odno message, s ∈ OrderLedger.markStmts now id st' odno message → id' = id ∧ st = st' := by
    intro st' odno message hs
    simp only [OrderLedger.markStmts, List.mem_cons, List.not_mem_nil, or_false] at hs
    rcases hs with rfl | rfl <;> cases h
    exact ⟨rfl, rfl⟩
  have hdb : ∀ st' odno message, s ∈ db.markStmts now id st' odno message → id' = id ∧ st = st' := by
    intro st' odno message hs
    unfold Db.markStmts at hs
    split at hs
    · split at hs
      · exact hmark _ _ _ hs
      · simp at hs
    · simp at hs
  cases result with
  | error f =>
    cases f with
    | rejected code msg =>
      obtain ⟨h1, h2⟩ := hdb _ _ _ hs
      exact ⟨h1, .inr (.inl ⟨h2, code, msg, rfl⟩)⟩
    | uncertain text =>
      obtain ⟨h1, h2⟩ := hmark _ _ _ hs
      exact ⟨h1, .inr (.inr h2)⟩
    | raised e => cases hs
  | ok f =>
    cases hr : readOrder f with
    | ok a =>
      simp only [Except.bind, hr] at hs
      obtain ⟨h1, h2⟩ := hdb _ _ _ hs
      exact ⟨h1, .inl ⟨h2, f, rfl⟩⟩
    | error e =>
      simp only [Except.bind, hr] at hs
      cases e with
      | rejected code msg =>
        -- `readOrder` raises no `Rejected`
        exfalso
        unfold readOrder at hr
        split at hr
        · cases hr
        · split at hr
          · cases hr
          · split at hr
            · split at hr <;> cases hr
            · cases hr
      | uncertain text =>
        obtain ⟨h1, h2⟩ := hmark _ _ _ hs
        exact ⟨h1, .inr (.inr h2)⟩
      | raised e => cases hs

theorem Deed.turn {d : Desk} (hd : Honest outside d) {ss : List Stmt} (h : Deed db outside d ss) {r : Order}
    (hr : r ∈ d.ledger.orders) {s : Stmt} (hs : s ∈ ss) {st : OrderState} (hset : s.sets = some (r.id, st)) :
    Turn d r st := by
  have hw := hd.once.inv.wf
  cases h with
  | nothing => cases hs
  | @record q day pre now unit _ _ hpre =>
    exfalso
    rcases List.mem_append.1 hs with hs | hs
    · obtain ⟨rfl, _⟩ | ⟨t, rfl, _⟩ := hpre
      · cases hs
      · rw [List.mem_singleton.1 hs] at hset
        cases hset
    · obtain ⟨_, _, _, heq, _⟩ | ⟨_, _, heq⟩ :=
        newOrder_cases d.ledger now q.clientOrderId (q.key day) q.qty q.price unit
      · simp [heq] at hs
      · simp only [heq, List.mem_cons, List.not_mem_nil, or_false] at hs
        rcases hs with rfl | rfl <;> cases hset
  | @answered q day id retried j t result now hh hj hspeak =>
    obtain ⟨hid, hst⟩ := finish_sets hs hset
    -- the row marked is the submit's own
    obtain ⟨x, hx⟩ := (hd.once.inv.holds _ hh).after day id rfl
    obtain rfl : x = r := hw.eq_of_id hx.mem hr (hx.id_eq.trans hid.symm)
    obtain ⟨t', hj', hcid⟩ := hd.own q day id retried j hh
    obtain rfl : t = t' := Option.some.inj (hj.symm.trans hj')
    obtain ⟨rfl, f, rfl⟩ | ⟨rfl, code, msg, rfl⟩ | rfl := hst
    · exact .accepted hx.pending (atBroker_iff.2 ⟨t, List.mem_of_getElem? hj, hcid.trans hx.cid_eq.symm, hspeak⟩)
    · refine .rejected hx.pending fun u hu huc => ?_
      obtain ⟨i, hi⟩ := List.getElem?_of_mem hu
      by_contra hcount
      have hij := hd.once.sending q day id retried j hh i u hi (huc.trans hx.cid_eq) (by simpa using hcount)
      rw [hij, hj] at hi
      obtain rfl := Option.some.inj hi
      simp only [speaks, Bool.not_eq_true'] at hspeak
      exact hcount hspeak
    · exact .lost hx.pending
  | @totals k totals now hex ht =>
    cases hb : d.ledger.baseline k with
    | none => simp [Ledger.applyTotalsStmts, Ledger.totalsPlan, hb] at hs
    | some base =>
      obtain ⟨x, hx, hid, hcase⟩ := applyTotals_sets hb hs hset
      obtain ⟨hxo, rfl⟩ := mem_rowsOf.1 hx
      obtain rfl := hw.eq_of_id hxo hr hid
      obtain ⟨hf, hst⟩ | ⟨hu, hpos, hst⟩ | ⟨hu, hneg, rfl⟩ := hcase
      · exact .filled hf hst
      · rw [hd.extra_eq hr hu hb ht] at hpos
        refine .found hu hex ?_ hst
        by_contra hno
        simp [hno] at hpos
      · rw [hd.extra_eq hr hu hb ht] at hneg
        refine .missing hu hex ?_
        have hq := hd.sized x hr
        by_contra hyes
        simp only [Bool.not_eq_false] at hyes
        rw [hyes, if_pos rfl] at hneg
        omega
  | holdings =>
    have hi := setHoldingsBaseline_stmt hs
    cases s with
    | markOrder | setState | updateFill => simp [Call.issues] at hi
    | _ => cases hset
  | notice =>
    obtain ⟨x, hx, hid, hf, hst⟩ := applyNotice_sets hs hset
    obtain rfl := hw.eq_of_id hx hr hid
    exact .filled hf hst
  | close =>
    obtain ⟨x, hx, hid, hf, hst⟩ := closeDay_sets hs hset
    obtain rfl := hw.eq_of_id hx hr hid
    exact .filled hf hst
  | recovered =>
    obtain ⟨x, hx, hid, hp, rfl⟩ := recoverPending_sets hs hset
    obtain rfl := hw.eq_of_id hx hr hid
    exact .lost hp

/-- The row `r'` is what a deed has made of `r`. -/
structure Becomes (d : Desk) (r r' : Order) : Prop where
  id_eq : r'.id = r.id
  cid_eq : r'.clientOrderId = r.clientOrderId
  key_eq : r'.key = r.key
  qty_eq : r'.qty = r.qty
  created_eq : r'.createdTs = r.createdTs
  state : r'.state = r.state ∨ Turn d r r'.state

theorem Becomes.refl (d : Desk) (r : Order) : Becomes d r r := ⟨rfl, rfl, rfl, rfl, rfl, .inl rfl⟩

/-- A row just recorded, of a key with a baseline. -/
def Fresh (l : Ledger) (r : Order) : Prop := r.state = .pendingSubmit ∧ 0 < r.qty ∧ (l.baseline r.key).isSome = true

/-- Every row goes on, and no other is there but the one just recorded. -/
def Follows (d : Desk) (l : Ledger) : Prop :=
  (∀ r ∈ d.ledger.orders, ∃ r' ∈ l.orders, Becomes d r r') ∧
  ∀ r' ∈ l.orders, (∃ r ∈ d.ledger.orders, Becomes d r r') ∨ Fresh l r'

theorem follows_same {d : Desk} {l : Ledger} (h : l.orders = d.ledger.orders) : Follows d l := by
  unfold Follows
  rw [h]
  exact ⟨fun r hr => ⟨r, hr, .refl d r⟩, fun r hr => .inl ⟨r, hr, .refl d r⟩⟩

theorem follows_record {d : Desk} {l : Ledger} {r : Order} (h : l.orders = d.ledger.orders ++ [r]) (hf : Fresh l r) :
    Follows d l := by
  unfold Follows
  rw [h]
  refine ⟨fun x hx => ⟨x, List.mem_append_left _ hx, .refl d x⟩, fun x hx => ?_⟩
  rcases List.mem_append.1 hx with hx | hx
  · exact .inl ⟨x, hx, .refl d x⟩
  · obtain rfl := List.mem_singleton.1 hx
    exact .inr hf

theorem Deed.follows {d : Desk} (hd : Honest outside d) {ss : List Stmt} (h : Deed db outside d ss) (n : Nat) :
    Follows d (d.ledger.execAll (ss.take n)) := by
  have hscript : (∀ s ∈ ss, s.isInsertOrder = false) → Follows d (d.ledger.execAll (ss.take n)) := by
    intro hi
    have hbecomes : ∀ r ∈ d.ledger.orders, Becomes d r (rowAfter (ss.take n) r) := by
      intro r hr
      refine ⟨by simp, by simp, by simp, by simp, by simp, ?_⟩
      obtain ⟨_, hsame⟩ | ⟨s, hs, hset⟩ := rowAfter_cases (ss.take n) r
      · exact .inl (by rw [hsame])
      · exact .inr (h.turn hd hr (List.mem_of_mem_take hs) hset)
    unfold Follows
    rw [execAll_orders fun s hs => hi s (List.mem_of_mem_take hs)]
    refine ⟨fun r hr => ⟨_, List.mem_map_of_mem hr, hbecomes r hr⟩, fun r' hr' => ?_⟩
    obtain ⟨r, hr, rfl⟩ := List.mem_map.1 hr'
    exact .inl ⟨r, hr, hbecomes r hr⟩
  cases h with
  | nothing => exact hscript (by simp)
  | @record q day pre now unit hp hq hpre =>
    have hins : ∀ s ∈ pre, ∃ k t, s = .insertTotalsBaseline k t := by
      obtain ⟨rfl, _⟩ | ⟨t, rfl, _⟩ := hpre
      · simp
      · simp
    obtain ⟨ho, _⟩ | ⟨ho, _⟩ := place_cut (hd.once.inv.passed hp).2 hins now day unit n
    · exact follows_same ho
    · refine follows_record ho ⟨rfl, hq, ?_⟩
      show (Ledger.baseline _ (q.key day)).isSome = true
      obtain ⟨rfl, hb⟩ | ⟨t, rfl, _⟩ := hpre
      · exact baseline_isSome_execAll hb _
      · -- the row is there, so the baseline before it is too
        cases n with
        | zero => simp [execAll_nil] at ho
        | succ n => exact baseline_isSome_execAll (baseline_isSome_insert d.ledger (q.key day) t) _
  | answered =>
    refine hscript fun s hs => ?_
    obtain h0 | ⟨st, _, odno, msg, h0⟩ := finish_cases db _ _ _
    · rw [h0] at hs
      cases hs
    · rw [h0] at hs
      simp only [OrderLedger.markStmts, List.mem_cons, List.not_mem_nil, or_false] at hs
      rcases hs with rfl | rfl <;> rfl
  | totals => exact hscript fun s hs => stmt_isInsertOrder (c := .applyTotals _ _ _) (by simp) hs
  | holdings => exact hscript fun s hs => stmt_isInsertOrder (c := .setHoldingsBaseline _ _ _) (by simp) hs
  | notice => exact hscript fun s hs => stmt_isInsertOrder (c := .applyNotice _ _ _ _ _ _) (by simp) hs
  | close => exact hscript fun s hs => stmt_isInsertOrder (c := .closeDay _ _ _) (by simp) hs
  | recovered => exact hscript fun s hs => stmt_isInsertOrder (c := .recoverPending _) (by simp) hs

/-- A baseline is what the broker told. -/
theorem Deed.told {d : Desk} {ss : List Stmt} (h : Deed db outside d ss) {k : Key} {t : Totals}
    (hs : .insertTotalsBaseline k t ∈ ss) : d.tells outside k t = true := by
  have hother : ∀ c : Call, (∀ k' t', c ≠ .setTotalsBaseline k' t') → .insertTotalsBaseline k t ∈ c.stmts d.ledger →
      False := by
    intro c hc hmem
    have hi := issues_of_mem hmem
    cases c with
    | setTotalsBaseline k' t' => exact hc k' t' rfl
    | _ => simp [Call.issues] at hi
  cases h with
  | nothing => cases hs
  | @record q day pre now unit _ _ hpre =>
    rcases List.mem_append.1 hs with hs | hs
    · obtain ⟨rfl, _⟩ | ⟨t', rfl, ht⟩ := hpre
      · cases hs
      · cases List.mem_singleton.1 hs
        exact ht
    · exact (hother (.newOrder _ _ _ _ _ _) (by simp) hs).elim
  | answered =>
    obtain h0 | ⟨st, _, odno, msg, h0⟩ := finish_cases db _ _ _
    · rw [h0] at hs
      cases hs
    · simp [h0, OrderLedger.markStmts] at hs
  | totals => exact (hother (.applyTotals _ _ _) (by simp) hs).elim
  | holdings => exact (hother (.setHoldingsBaseline _ _ _) (by simp) hs).elim
  | notice => exact (hother (.applyNotice _ _ _ _ _ _) (by simp) hs).elim
  | close => exact (hother (.closeDay _ _ _) (by simp) hs).elim
  | recovered => exact (hother (.recoverPending _) (by simp) hs).elim

/-! ## The invariant is kept -/

/-- How a step changes the requests: not at all, by sending the one of the submit that holds the lock, or
by a verdict; the last two leave the ledger. -/
theorem sent_cases {d d' : Desk} {lbl : Label} (h : step lim db d lbl = some d') :
    (d'.sent = d.sent ∧ ∀ q day id retried j, d'.holder = some ⟨q, .sending day id retried j⟩ →
      d.holder = some ⟨q, .sending day id retried j⟩) ∨
    (∃ q day id retried recorded closed, d.holder = some ⟨q, .ordering day id retried⟩ ∧
      d'.holder = some ⟨q, .sending day id retried d.sent.length⟩ ∧
      d'.ledger = d.ledger ∧ d'.sent = d.sent ++ [⟨q.clientOrderId, .underway, recorded, closed⟩]) ∨
    ∃ j s v, lbl = .verdict j v ∧ d.sent[j]? = some s ∧ s.verdict = .underway ∧ d'.ledger = d.ledger ∧
      d'.holder = d.holder ∧ d'.sent = d.sent.set j { s with verdict := v } := by
  have hmove : ∀ {ss p sent lbl'}, Move db d lbl' ss (p.bind (·.holder)) sent → d' = d.after ss p sent →
      (d'.sent = d.sent ∧ ∀ q day id retried j, d'.holder = some ⟨q, .sending day id retried j⟩ →
        d.holder = some ⟨q, .sending day id retried j⟩) ∨
      (∃ q day id retried recorded closed, d.holder = some ⟨q, .ordering day id retried⟩ ∧
        d'.holder = some ⟨q, .sending day id retried d.sent.length⟩ ∧
        d'.ledger = d.ledger ∧ d'.sent = d.sent ++ [⟨q.clientOrderId, .underway, recorded, closed⟩]) := by
    rintro ss p sent lbl' hm rfl
    have hholder : (d.after ss p sent).holder = p.bind (·.holder) := rfl
    rw [hholder]
    generalize p.bind (·.holder) = x at hm
    cases hm with
    | quiet _ hk =>
      refine .inl ⟨rfl, fun q day id retried j hx => ?_⟩
      rcases hk with rfl | rfl
      · cases hx
      · exact hx
    | close hk =>
      refine .inl ⟨rfl, fun q day id retried j hx => ?_⟩
      obtain rfl | ⟨rfl, _⟩ := hk
      · cases hx
      · exact hx
    | suspend _ hs =>
      refine .inl ⟨rfl, fun q day id retried j hx => ?_⟩
      cases hx
      cases hs
    | send hs => exact .inr ⟨_, _, _, _, _, _, hs, rfl, rfl, rfl⟩
    | boot | place | placeCut | repeated | finish => exact .inl ⟨rfl, fun q day id retried j hx => by cases hx⟩
  cases stepped h with
  | @run a p p' ss sent hp ha => exact (@hmove ss (some p') sent _ (act_moves hp ha).1 rfl).imp id .inl
  | @crash a k p p' ss sent hp ha => exact (@hmove _ none _ _ ((act_moves hp ha).2 k) rfl).imp id .inl
  | die => exact .inl ⟨rfl, fun q day id retried j hx => by cases hx⟩
  | boot _ hp => obtain rfl | rfl := hp <;> exact .inl ⟨rfl, fun q day id retried j hx => by cases hx⟩
  | @verdict j v s hs hu => exact .inr (.inr ⟨j, s, v, rfl, hs, hu, rfl, rfl, rfl⟩)

/-- An accepted request stays accepted. -/
theorem atBroker_step {d d' : Desk} {lbl : Label} (h : step lim db d lbl = some d') {cid : String}
    (hc : d.atBroker cid = true) : d'.atBroker cid = true := by
  obtain ⟨s, hs, hcid, hacc⟩ := atBroker_iff.1 hc
  obtain ⟨hsent, _⟩ | ⟨q, day, id, retried, recorded, closed, _, _, _, hsent⟩ | ⟨j, t, v, _, hj, hu, _, _, hsent⟩ :=
    sent_cases h
  · exact atBroker_iff.2 ⟨s, hsent ▸ hs, hcid, hacc⟩
  · exact atBroker_iff.2 ⟨s, hsent ▸ List.mem_append_left _ hs, hcid, hacc⟩
  · refine atBroker_iff.2 ⟨s, ?_, hcid, hacc⟩
    obtain ⟨i, hi⟩ := List.getElem?_of_mem hs
    have hne : j ≠ i := by
      rintro rfl
      obtain rfl := Option.some.inj (hj.symm.trans hi)
      rw [hu] at hacc
      cases hacc
    rw [hsent]
    apply List.mem_of_getElem? (i := i)
    rw [List.getElem?_set_ne hne]
    exact hi

theorem step_follows {d d' : Desk} (hd : Honest outside d) {lbl : Label} (ht : d.truthful outside lbl = true)
    (h : step lim db d lbl = some d') : Follows d d'.ledger := by
  obtain ⟨⟨ss, n, hdeed, hledger⟩, _⟩ := step_deed hd ht h
  rw [hledger]
  exact hdeed.follows hd n

/-- The request a submit waits for is its own. -/
theorem own_step {d d' : Desk} (hd : Honest outside d) {lbl : Label} (h : step lim db d lbl = some d') {q : Request}
    {day : String} {id j : Nat} {retried : Bool} (hh : d'.holder = some ⟨q, .sending day id retried j⟩) :
    ∃ s, d'.sent[j]? = some s ∧ s.clientOrderId = q.clientOrderId := by
  obtain ⟨hsent, hsame⟩ | ⟨q', day', id', retried', _, _, _, hh', _, hsent⟩ | ⟨i, t, v, _, hi, _, _, hsame, hsent⟩ :=
    sent_cases h
  · rw [hsent]
    exact hd.own q day id retried j (hsame q day id retried j hh)
  · rw [hh'] at hh
    cases hh
    exact ⟨_, by rw [hsent, List.getElem?_append_right (Nat.le_refl _), Nat.sub_self]; rfl, rfl⟩
  · obtain ⟨s, hs, hc⟩ := hd.own q day id retried j (hsame ▸ hh)
    rw [hsent]
    by_cases hij : i = j
    · subst hij
      obtain rfl := Option.some.inj (hi.symm.trans hs)
      exact ⟨{ t with verdict := v }, List.getElem?_set_self (List.getElem?_eq_some_iff.1 hi).1, hc⟩
    · exact ⟨s, by rw [List.getElem?_set_ne hij]; exact hs, hc⟩

/-- A live row is at the broker: it was live, or found there. -/
theorem live_step {d d' : Desk} (hd : Honest outside d) {lbl : Label} (ht : d.truthful outside lbl = true)
    (h : step lim db d lbl = some d') {r' : Order} (hr' : r' ∈ d'.ledger.orders) (hl : r'.state ∈ liveStates) :
    d'.atBroker r'.clientOrderId = true := by
  obtain ⟨r, hr, hb⟩ | hf := (step_follows hd ht h).2 r' hr'
  · rw [hb.cid_eq]
    apply atBroker_step h
    obtain hst | hturn := hb.state
    · exact hd.live r hr (hst ▸ hl)
    · generalize r'.state = st at hturn hl
      cases hturn with
      | lost | rejected | missing => simp [liveStates] at hl
      | accepted _ hat => exact hat
      | filled hf _ => exact hd.live r hr (live_of_fillable hf)
      | found _ _ hat _ => exact hat
  · rw [hf.1] at hl
    simp [liveStates] at hl

/-- No request of a REJECTED row may still get through. -/
theorem rejected_step {d d' : Desk} (hd : Honest outside d) {lbl : Label} (ht : d.truthful outside lbl = true)
    (h : step lim db d lbl = some d') {r' : Order} (hr' : r' ∈ d'.ledger.orders) (hrej : r'.state = .rejected) :
    ∀ s ∈ d'.sent, s.clientOrderId = r'.clientOrderId → s.verdict.counts = false := by
  have hold : d'.ledger = d.ledger → ∀ s ∈ d.sent, s.clientOrderId = r'.clientOrderId → s.verdict.counts = false :=
    fun heq => hd.rejected r' (heq ▸ hr') hrej
  obtain ⟨hsent, _⟩ | ⟨q, day, id, retried, _, _, hh, _, heq, hsent⟩ | ⟨j, t, v, _, hj, hu, heq, _, hsent⟩ :=
    sent_cases h
  · rw [hsent]
    obtain ⟨r, hr, hb⟩ | hf := (step_follows hd ht h).2 r' hr'
    · rw [hb.cid_eq]
      obtain hst | hturn := hb.state
      · exact hd.rejected r hr (hst ▸ hrej)
      · rw [hrej] at hturn
        cases hturn with
        | rejected _ hno => exact hno
        | filled _ hl | found _ _ _ hl => simp [liveStates] at hl
    · rw [hf.1] at hrej
      cases hrej
  · -- the row of the request that goes out is pending
    rw [hsent]
    intro s hs hc
    rcases List.mem_append.1 hs with hs | hs
    · exact hold heq s hs hc
    · obtain rfl := List.mem_singleton.1 hs
      obtain ⟨x, hx⟩ := (hd.once.inv.holds _ hh).after day id rfl
      have hxr := hd.once.inv.wf.eq_of_clientOrderId hx.mem (heq ▸ hr') (hx.cid_eq.trans hc)
      rw [← hxr, hx.pending] at hrej
      cases hrej
  · rw [hsent]
    intro s hs hc
    rcases List.mem_or_eq_of_mem_set hs with hs | rfl
    · exact hold heq s hs hc
    · have := hold heq t (List.mem_of_getElem? hj) hc
      rw [hu] at this
      cases this

/-- A row given up stays away from the broker, as long as nothing is taken in late. -/
theorem notSent_step {d d' : Desk} (hd : Honest outside d) {lbl : Label} (hok : Permitted outside d lbl)
    (h : step lim db d lbl = some d') {r' : Order} (hr' : r' ∈ d'.ledger.orders) (hns : r'.state = .notSent) :
    d'.atBroker r'.clientOrderId = false := by
  have hold : d'.ledger = d.ledger → d.atBroker r'.clientOrderId = false := fun heq => hd.notSent r' (heq ▸ hr') hns
  obtain ⟨hsent, _⟩ | ⟨q, day, id, retried, _, _, hh, _, heq, hsent⟩ | ⟨j, t, v, hlbl, hj, hu, heq, _, hsent⟩ :=
    sent_cases h
  · have hat : ∀ cid, d'.atBroker cid = d.atBroker cid := fun cid => by rw [Desk.atBroker, Desk.atBroker, hsent]
    rw [hat]
    obtain ⟨r, hr, hb⟩ | hf := (step_follows hd hok.1 h).2 r' hr'
    · rw [hb.cid_eq]
      obtain hst | hturn := hb.state
      · exact hd.notSent r hr (hst ▸ hns)
      · rw [hns] at hturn
        cases hturn with
        | missing _ _ hno => exact hno
        | filled _ hl | found _ _ _ hl => simp [liveStates] at hl
    · rw [hf.1] at hns
      cases hns
  · rw [atBroker_false_iff, hsent]
    intro s hs hc
    rcases List.mem_append.1 hs with hs | hs
    · exact atBroker_false_iff.1 (hold heq) s hs hc
    · rw [List.mem_singleton.1 hs]
      rfl
  · rw [atBroker_false_iff, hsent]
    intro s hs hc
    rcases List.mem_or_eq_of_mem_set hs with hs | rfl
    · exact atBroker_false_iff.1 (hold heq) s hs hc
    · have hin := hok.2
      rw [hlbl] at hin
      cases v with
      | accepted odno =>
        simp only [Desk.inTime, hj, Option.all_some, Bool.not_eq_true', List.any_eq_false] at hin
        have hc : t.clientOrderId = r'.clientOrderId := hc
        exact absurd (by simp [hns, hc]) (hin r' (heq ▸ hr'))
      | underway | rejected | throttled => rfl

/-- A new baseline is what was ordered outside: a key without one has no rows yet. -/
theorem told_deed {d : Desk} (hd : Honest outside d) {ss : List Stmt} (hdeed : Deed db outside d ss) (n : Nat)
    {e : Key × Totals} (he : e ∈ (d.ledger.execAll (ss.take n)).totalsBaseline) : e.2.ordQty = outside e.1 := by
  obtain hold | ⟨hin, hnone⟩ := mem_execAll_totalsBaseline he
  · exact hd.told e hold
  · have ht := hdeed.told (List.mem_of_mem_take hin)
    have hempty : d.ledger.rowsOf e.1 = [] := by
      refine List.filter_eq_nil_iff.2 fun r hr hk => ?_
      have hsome := hd.based r hr
      rw [show r.key = e.1 by simpa using hk, hnone] at hsome
      cases hsome
    simpa [Desk.tells, Desk.taken, hempty] using ht

/-- **The ledger tells the truth.** -/
theorem honest_step {d d' : Desk} (hd : Honest outside d) {lbl : Label} (hok : Permitted outside d lbl)
    (h : step lim db d lbl = some d') : Honest outside d' := by
  obtain ⟨⟨ss, n, hdeed, hledger⟩, hasked⟩ := step_deed hd hok.1 h
  have hfollows := (step_follows hd hok.1 h).2
  refine ⟨once_step hd.once h, fun r' hr' => ?_, hasked, fun q day id retried j => own_step hd h,
    fun r' hr' => live_step hd hok.1 h hr', fun r' hr' => rejected_step hd hok.1 h hr',
    fun r' hr' => notSent_step hd hok h hr', fun r' hr' => ?_, fun e he => told_deed hd hdeed n (hledger ▸ he)⟩
  · obtain ⟨r, hr, hb⟩ | hf := hfollows r' hr'
    · rw [hb.qty_eq]
      exact hd.sized r hr
    · exact hf.2.1
  · obtain ⟨r, hr, hb⟩ | hf := hfollows r' hr'
    · rw [hb.key_eq, hledger]
      exact baseline_isSome_execAll (hd.based r hr) _
    · exact hf.2.2

/-- In every permitted run. -/
theorem honest_run {ls : List Label} {d d' : Desk} (h : Run (step lim db) (Permitted outside) d ls d')
    (hd : Honest outside d) :
    Honest outside d' :=
  h.invariant hd fun _ _ _ hI hok hs => honest_step hI hok hs

end OrderDesk

import Mathlib.Data.List.Dedup
import MarketFeed.Desk.Deeds
/-!
# Which reconcile rounds resolve an UNKNOWN order (ledger.py:184-188, :239-273, order_desk.py:332-342)

`recover_pending` looks at every row, `reconcile_once` only at the rows of its own date. Beside a truthful
broker a complete round of an order's own trade date, past the grace time, resolves it, whatever runs in
between (`Watched` is the invariant of the round); a round of any other date leaves it UNKNOWN
(`Untouched`). So an order that is still UNKNOWN at midnight stays so.
-/

namespace OrderDesk

open OrderLedger Lts

variable {lim : Limits} {db : Db} {outside : Key → Int}

/-- A complete round of `day`: it starts and comes to the balance, with anything between but another start. -/
def IsRound (day : String) (round : List Label) : Prop :=
  ∃ mid holdings now closing, round = .run (.startReconcile day) :: (mid ++ [.run (.gotBalance holdings now closing)]) ∧
    ∀ lbl ∈ mid, ∀ day', lbl ≠ .run (.startReconcile day')

def Desk.recon (d : Desk) : Recon := (d.proc.map (·.recon)).getD .idle

/-- The round goes on to this key, if it goes on at all. -/
def Recon.watches (k : Key) : Recon → Prop
  | .idle => True
  | .holdings day => day = k.tradeDate
  | .totals day keys _ => day = k.tradeDate ∧ (k.symbol, k.side) ∈ keys
  | .balance _ _ => False

/-- The round asks for the totals of this day only. -/
def Recon.isOn (day : String) : Recon → Prop
  | .holdings day' => day' = day
  | .totals day' _ _ => day' = day
  | _ => True

theorem watches_next {k : Key} {keys : List (String × Side)} (h : (k.symbol, k.side) ∈ keys) (found : List Break) :
    (Recon.next k.tradeDate keys found).watches k := by
  cases keys with
  | nil => cases h
  | cons => exact ⟨rfl, h⟩

theorem isOn_next (day : String) (keys : List (String × Side)) (found : List Break) :
    (Recon.next day keys found).isOn day := by
  cases keys with
  | nil => trivial
  | cons => rfl

theorem mem_keysToWatch {l : Ledger} {r : Order} (hr : r ∈ l.orders) (hst : r.state = .unknown) :
    (r.key.symbol, r.key.side) ∈ l.keysToWatch r.key.tradeDate := by
  simp only [Ledger.keysToWatch, List.mem_dedup, List.mem_map, List.mem_filter]
  exact ⟨r, ⟨hr, by simp [Order.key, hst]⟩, rfl⟩

/-- Between its start and its end a round waits, goes on to the next key, or is given up. -/
theorem recon_cases {d d' : Desk} {lbl : Label} (h : step lim db d lbl = some d')
    (hn : ∀ day, lbl ≠ .run (.startReconcile day)) :
    d'.recon = d.recon ∨ d'.recon = .idle ∨
    (∃ day holdings now, lbl = .run (.gotHoldings holdings now) ∧ d.recon = .holdings day ∧
      d'.recon = .next day (d.ledger.keysToWatch day) [] ∧
      d'.ledger = d.ledger.execAll (d.ledger.setHoldingsBaselineStmts now day holdings)) ∨
    ∃ day k keys found found' totals now, lbl = .run (.gotTotals totals now) ∧ d.recon = .totals day (k :: keys) found ∧
      d'.recon = .next day keys found' ∧
      d'.ledger = d.ledger.execAll (d.ledger.applyTotalsStmts now ⟨day, k.1, k.2⟩ totals) := by
  cases stepped h with
  | @run a p p' ss sent hp ha =>
    have hd : d.recon = p.recon := by rw [Desk.recon, hp]; rfl
    have hd' : (d.after ss (some p') sent).recon = p'.recon := rfl
    rw [hd, hd']
    cases a with
    | startReconcile day => exact absurd rfl (hn day)
    | gotHoldings holdings now =>
      simp only [act] at ha
      split at ha
      · rename_i day heq
        cases ha
        exact .inr (.inr (.inl ⟨day, holdings, now, rfl, heq, rfl, rfl⟩))
      · cases ha
    | gotTotals totals now =>
      simp only [act] at ha
      split at ha
      · rename_i day k keys found heq
        cases ha
        exact .inr (.inr (.inr ⟨day, k, keys, found, _, totals, now, rfl, heq, rfl, rfl⟩))
      · cases ha
    | gotBalance holdings now closing =>
      simp only [act] at ha
      split at ha
      · cases closing <;> cases ha <;> exact .inr (.inl rfl)
      · cases ha
    | reconcileFailed => cases ha; exact .inr (.inl rfl)
    | arrive | abandon | notice => cases ha; exact .inl rfl
    | enter | priced | totalled | send | leave =>
      simp only [act] at ha
      split at ha <;> cases ha
      exact .inl rfl
    | answer result now =>
      simp only [act] at ha
      split at ha
      · split at ha
        · split at ha
          · split at ha <;> cases ha <;> exact .inl rfl
          · cases ha
        · cases ha
      · cases ha
  | crash | die => exact .inr (.inl rfl)
  | boot _ hp => obtain rfl | rfl := hp <;> exact .inr (.inl rfl)
  | verdict => exact .inl rfl

/-! ## The row in a round -/

/-- What is known of the order's row since the round started: it keeps its key and time, and `P` holds of
its state and the round. -/
def Row (P : OrderState → Recon → Prop) (o : Order) (d : Desk) : Prop :=
  ∃ r ∈ d.ledger.orders, r.id = o.id ∧ r.key = o.key ∧ r.createdTs = o.createdTs ∧ P r.state d.recon

/-- Settled, or UNKNOWN and still to be examined. -/
def Watched (o : Order) : Desk → Prop :=
  Row (fun st recon => (st ≠ .unknown ∧ st ≠ .pendingSubmit) ∨ (st = .unknown ∧ recon.watches o.key)) o

/-- UNKNOWN, in a round of this day. -/
def Untouched (day : String) (o : Order) : Desk → Prop :=
  Row (fun st recon => st = .unknown ∧ recon.isOn day) o

/-- Once settled, settled for good. -/
theorem Turn.settled {d : Desk} {r : Order} {st : OrderState} (h : Turn d r st) (hp : r.state ≠ .pendingSubmit) :
    st ≠ .unknown ∧ st ≠ .pendingSubmit := by
  cases h with
  | lost h | accepted h | rejected h => exact absurd h hp
  | filled _ hl | found _ _ _ hl => constructor <;> rintro rfl <;> simp [liveStates] at hl
  | missing => simp

/-- An UNKNOWN row is settled by the totals of its key only. -/
theorem Turn.examines {d : Desk} {r : Order} {st : OrderState} (h : Turn d r st) (hu : r.state = .unknown) :
    d.examines r.key := by
  cases h with
  | lost h | accepted h | rejected h =>
    rw [hu] at h
    cases h
  | filled hf => simp [hu, fillableStates] at hf
  | found _ hex | missing _ hex => exact hex

theorem recon_of_examines {d : Desk} {k : Key} (h : d.examines k) :
    ∃ keys found, d.recon = .totals k.tradeDate ((k.symbol, k.side) :: keys) found := by
  obtain ⟨p, keys, found, hp, hr⟩ := h
  exact ⟨keys, found, by rw [Desk.recon, hp]; exact hr⟩

/-- The totals of its key settle an UNKNOWN row past the grace time. -/
theorem Honest.settles {d : Desk} (hd : Honest outside d) {r : Order} (hr : r ∈ d.ledger.orders)
    (hu : r.state = .unknown)
    {totals : Totals} {now : Time} (ht : d.tells outside r.key totals = true)
    (hgrace : unknownGrace < now - r.createdTs)
    {r' : Order} (hr' : r' ∈ (d.ledger.execAll (d.ledger.applyTotalsStmts now r.key totals)).orders)
    (hid : r'.id = r.id) :
    r'.state ≠ .unknown := by
  obtain ⟨base, hb⟩ := Option.isSome_iff_exists.1 (hd.based r hr)
  have hins : ∀ s ∈ d.ledger.applyTotalsStmts now r.key totals, s.isInsertOrder = false :=
    fun s hs => stmt_isInsertOrder (c := .applyTotals now r.key totals) (by simp) hs
  rw [execAll_orders hins] at hr'
  obtain ⟨x, hx, rfl⟩ := List.mem_map.1 hr'
  rw [rowAfter_id] at hid
  obtain rfl := hd.once.inv.wf.eq_of_id hx hr hid
  have hextra := hd.extra_eq hr hu hb ht
  obtain ⟨s, hs, htarget⟩ := @applyTotals_resolves d.ledger now x.key base totals hb x
    (hd.once.inv.unknownOf_eq hr hu) (by
    cases hat : d.atBroker x.clientOrderId with
    | true => exact .inl ⟨hd.sized x hr, by rw [hextra, hat, if_pos rfl]⟩
    | false => exact .inr ⟨by rw [hextra, hat]; simp, hgrace⟩)
  obtain ⟨hno, _⟩ | ⟨t, hmem, hset⟩ := rowAfter_cases (d.ledger.applyTotalsStmts now x.key totals) x
  · exact absurd htarget (hno s hs)
  · obtain ⟨_, _, _, ⟨_, hl⟩ | ⟨_, _, hl⟩ | ⟨_, _, hns⟩⟩ := applyTotals_sets hb hmem hset
    · intro he
      simp [he, liveStates] at hl
    · intro he
      simp [he, liveStates] at hl
    · simp [hns]

/-- **A round of the order's date**, step by step: it settles the row, or has it still before it. -/
theorem watched_step {o : Order} {d d' : Desk} (hd : Honest outside d) (hw : Watched o d) {lbl : Label}
    (hok : Permitted outside d lbl) (hn : ∀ day, lbl ≠ .run (.startReconcile day))
    (hgrace : ∀ totals now, lbl = .run (.gotTotals totals now) → unknownGrace < now - o.createdTs)
    (h : step lim db d lbl = some d') : Watched o d' := by
  obtain ⟨r, hr, hid, hkey, hcreated, hst⟩ := hw
  obtain ⟨r', hr', hb⟩ := (step_follows hd hok.1 h).1 r hr
  refine ⟨r', hr', hb.id_eq.trans hid, hb.key_eq.trans hkey, hb.created_eq.trans hcreated, ?_⟩
  obtain hsame | hturn := hb.state
  · obtain hset | ⟨hu, hwatch⟩ := hst
    · exact .inl (by rwa [hsame])
    · refine .inr ⟨hsame.trans hu, ?_⟩
      obtain heq | heq | ⟨day, _, _, _, hd0, heq, _⟩ | ⟨day, k, keys, found, found', totals, now, rfl, hd0, heq,
          hledger⟩ := recon_cases h hn
      · rwa [heq]
      · rw [heq]
        trivial
      · rw [hd0] at hwatch
        obtain rfl : day = o.key.tradeDate := hwatch
        rw [heq, ← hkey]
        exact watches_next (mem_keysToWatch hr hu) []
      · rw [hd0] at hwatch
        obtain ⟨rfl, hmem⟩ := hwatch
        rw [heq]
        rcases List.mem_cons.1 hmem with rfl | hmem
        · -- these are the totals of the row's own key
          have hrk : r.key = ⟨o.key.tradeDate, o.key.symbol, o.key.side⟩ := hkey
          rw [← hrk] at hledger
          rw [hledger] at hr'
          refine absurd (hsame.trans hu) (hd.settles hr hu ?_ ?_ hr' hb.id_eq)
          · rw [hrk]
            obtain ⟨p, hp, hpr⟩ : ∃ p, d.proc = some p ∧
                p.recon = .totals o.key.tradeDate ((o.key.symbol, o.key.side) :: keys) found := by
              cases hproc : d.proc with
              | none => simp [Desk.recon, hproc] at hd0
              | some p => exact ⟨p, rfl, by simpa [Desk.recon, hproc] using hd0⟩
            simpa [Desk.truthful, hp, Act.truthful, hpr] using hok.1
          · rw [hcreated]
            exact hgrace totals now rfl
        · exact watches_next hmem found'
  · refine .inl (hturn.settled fun hp => ?_)
    obtain ⟨_, hnp⟩ | ⟨hu, _⟩ := hst
    · exact hnp hp
    · rw [hu] at hp
      cases hp

/-- **A round of another date**, step by step: it never asks for the row's key. -/
theorem untouched_step {o : Order} {day : String} (hday : o.tradeDate ≠ day) {d d' : Desk} (hd : Honest outside d)
    (hu : Untouched day o d) {lbl : Label} (hok : Permitted outside d lbl)
    (hn : ∀ day, lbl ≠ .run (.startReconcile day))
    (h : step lim db d lbl = some d') : Untouched day o d' := by
  obtain ⟨r, hr, hid, hkey, hcreated, hst, hon⟩ := hu
  obtain ⟨r', hr', hb⟩ := (step_follows hd hok.1 h).1 r hr
  refine ⟨r', hr', hb.id_eq.trans hid, hb.key_eq.trans hkey, hb.created_eq.trans hcreated, ?_, ?_⟩
  · obtain hsame | hturn := hb.state
    · exact hsame.trans hst
    · obtain ⟨keys, found, hrec⟩ := recon_of_examines (hturn.examines hst)
      rw [hrec, hkey] at hon
      exact absurd hon hday
  · obtain heq | heq | ⟨day', _, _, _, hd0, heq, _⟩ | ⟨day', k, keys, found, found', totals, now, _, hd0, heq, _⟩ :=
      recon_cases h hn
    · rwa [heq]
    · rw [heq]
      trivial
    · rw [hd0] at hon
      obtain rfl : day' = day := hon
      rw [heq]
      exact isOn_next day' _ _
    · rw [hd0] at hon
      obtain rfl : day' = day := hon
      rw [heq]
      exact isOn_next day' _ _

/-! ## Whole rounds -/

theorem start_cases {d d' : Desk} {day : String} (h : step lim db d (.run (.startReconcile day)) = some d') :
    d'.ledger = d.ledger ∧ (d'.recon = .holdings day ∨
      (d.ledger.hasHoldingsBaseline day = true ∧ d'.recon = .next day (d.ledger.keysToWatch day) [])) := by
  cases stepped h with | run _ ha =>
  simp only [act] at ha
  split at ha
  · split at ha
    · rename_i hhas
      cases ha
      exact ⟨rfl, .inr ⟨hhas, rfl⟩⟩
    · cases ha
      exact ⟨rfl, .inl rfl⟩
  · cases ha

theorem balance_of_step {d d' : Desk} {holdings : List (String × Int)} {now : Time} {closing : Option String}
    (h : step lim db d (.run (.gotBalance holdings now closing)) = some d') :
    ∃ day found, d.recon = .balance day found := by
  cases stepped h with | run hp ha =>
  simp only [act] at ha
  split at ha
  · rename_i day found heq
    exact ⟨day, found, by rw [Desk.recon, hp]; exact heq⟩
  · cases ha

theorem watched_start {d d' : Desk} {o : Order} (ho : o ∈ d.ledger.orders) (hu : o.state = .unknown)
    (h : step lim db d (.run (.startReconcile o.tradeDate)) = some d') : Watched o d' := by
  obtain ⟨hledger, hrec⟩ := start_cases h
  refine ⟨o, hledger ▸ ho, rfl, rfl, rfl, .inr ⟨hu, ?_⟩⟩
  rcases hrec with hrec | ⟨_, hrec⟩
  · rw [hrec]
    exact rfl
  · rw [hrec]
    exact watches_next (mem_keysToWatch ho hu) []

theorem untouched_start {d d' : Desk} {o : Order} {day : String} (ho : o ∈ d.ledger.orders) (hu : o.state = .unknown)
    (h : step lim db d (.run (.startReconcile day)) = some d') : Untouched day o d' := by
  obtain ⟨hledger, hrec⟩ := start_cases h
  refine ⟨o, hledger ▸ ho, rfl, rfl, rfl, hu, ?_⟩
  rcases hrec with hrec | ⟨_, hrec⟩
  · rw [hrec]
    exact rfl
  · rw [hrec]
    exact isOn_next day _ _

/-- **An UNKNOWN order is resolved by the rounds of its own date and by no others.** In a permitted run, after
any number of restarts and midnights, let a complete round start while `o` is UNKNOWN and read its totals
past the grace time: `o` is UNKNOWN after it unless the round is of its trade date. -/
theorem unknown_resolved_iff_same_date {ls round : List Label} {d₀ d₁ : Desk}
    (hrun : Run (step lim db) (Permitted outside) .init ls d₀)
    (hround : Run (step lim db) (Permitted outside) d₀ round d₁)
    {day : String} (hr : IsRound day round) {o : Order} (ho : o ∈ d₀.ledger.orders) (hu : o.state = .unknown)
    (hgrace : ∀ totals now, .run (.gotTotals totals now) ∈ round → unknownGrace < now - o.createdTs) :
    (∀ r ∈ d₁.ledger.orders, r.id = o.id → r.state ≠ .unknown) ↔ o.tradeDate = day := by
  obtain ⟨mid, holdings, now, closing, rfl, hmid⟩ := hr
  have hd₀ := honest_run hrun honest_init
  have hd₁ := honest_run hround hd₀
  cases hround with | cons hok hstart hround =>
  rename_i d
  have hd := honest_step hd₀ hok hstart
  obtain ⟨d₂, hrmid, hlast⟩ := hround.split
  have hd₂ := honest_run hrmid hd
  have hrmid := hrmid.restrict (p := fun lbl => (∀ day', lbl ≠ .run (.startReconcile day')) ∧
    ∀ totals now, lbl = .run (.gotTotals totals now) → unknownGrace < now - o.createdTs) fun lbl hl =>
    ⟨hmid lbl hl, fun totals now he => hgrace totals now (he ▸ List.mem_cons_of_mem _ (List.mem_append_left _ hl))⟩
  cases hlast with | cons hok₂ hbalance hnil =>
  cases hnil
  constructor
  · intro hresolved
    by_contra hday
    have hleft : Honest outside d₂ ∧ Untouched day o d₂ := by
      refine hrmid.invariant (I := fun s => Honest outside s ∧ Untouched day o s) ⟨hd, untouched_start ho hu hstart⟩ ?_
      rintro s lbl s' ⟨hs, hun⟩ ⟨hok, hn, _⟩ hstep
      exact ⟨honest_step hs hok hstep, untouched_step hday hs hun hok hn hstep⟩
    obtain ⟨r, hr, hid, _, _, hst, _⟩ := untouched_step hday hd₂ hleft.2 hok₂ (by simp) hbalance
    exact hresolved r hr hid hst
  · rintro rfl
    have hwatched : Honest outside d₂ ∧ Watched o d₂ := by
      refine hrmid.invariant (I := fun s => Honest outside s ∧ Watched o s) ⟨hd, watched_start ho hu hstart⟩ ?_
      rintro s lbl s' ⟨hs, hw⟩ ⟨hok, hn, hg⟩ hstep
      exact ⟨honest_step hs hok hstep, watched_step hs hw hok hn hg hstep⟩
    obtain ⟨r, hr, hid, _, _, hst⟩ := watched_step hd₂ hwatched.2 hok₂ (by simp) (by simp) hbalance
    -- at the balance nothing is left to examine
    intro x hx hxid
    obtain rfl := hd₁.once.inv.wf.eq_of_id hr hx (hid.trans hxid.symm)
    obtain ⟨r₂, hr₂, hid₂, _, _, hst₂⟩ := hwatched.2
    obtain ⟨day', found, hrec⟩ := balance_of_step hbalance
    have hsettled : r₂.state ≠ .pendingSubmit ∧ r₂.state ≠ .unknown := by
      obtain ⟨h1, h2⟩ | ⟨_, hwatch⟩ := hst₂
      · exact ⟨h2, h1⟩
      · rw [hrec] at hwatch
        cases hwatch
    obtain ⟨r', hr', hb⟩ := (step_follows hd₂ hok₂.1 hbalance).1 r₂ hr₂
    obtain rfl := hd₁.once.inv.wf.eq_of_id hr' hr (hb.id_eq.trans (hid₂.trans hid.symm))
    obtain hsame | hturn := hb.state
    · rw [hsame]
      exact hsettled.2
    · exact (hturn.settled hsettled.1).1

/-- An order whose reply is lost; the broker has it. -/
def lostReply : List Label :=
  [.boot 0 none, .run (.arrive ⟨"c1", "005930", .buy, 1, 70000⟩), .run (.enter 0 "20260720" 1),
   .run (.totalled ⟨5, 5, 350000⟩ 2), .run .send, .verdict 0 (.accepted "0000000101"),
   .run (.answer (.error (.uncertain "TimeoutError TTTC0802U")) 3)]

/-- Nothing of the stock was ordered outside the desk but five shares before it came to it. -/
def fiveBefore (k : Key) : Int := if k = ⟨"20260720", "005930", .buy⟩ then 5 else 0

/-- A round of the same day. -/
def sameDayRound : List Label :=
  .run (.startReconcile "20260720") :: ([.run (.gotHoldings [("005930", 5)] 100000000),
    .run (.gotTotals ⟨6, 5, 350000⟩ 100000000)] ++ [.run (.gotBalance [("005930", 5)] 100000000 none)])

theorem unknown_resolved_iff_same_date_resolved :
    ∃ d₀ d₁, Run (step ⟨1000000, 10000000⟩ roomyDb) (Permitted fiveBefore) .init lostReply d₀ ∧
      Run (step ⟨1000000, 10000000⟩ roomyDb) (Permitted fiveBefore) d₀ sameDayRound d₁ ∧
      ∃ o ∈ d₀.ledger.orders, o.state = .unknown ∧
        ((∀ r ∈ d₁.ledger.orders, r.id = o.id → r.state ≠ .unknown) ↔ o.tradeDate = "20260720") := by
  obtain ⟨d₀, h₀, hrest⟩ := (Option.any_eq_true _ _).1
    (show ((exec (step ⟨1000000, 10000000⟩ roomyDb) (Permitted fiveBefore)
    .init lostReply).any fun d =>
      decide (d.ledger.orders.map (fun o => (o.id, o.state, o.createdTs)) = [(1, .unknown, 2)]) &&
      (exec (step ⟨1000000, 10000000⟩ roomyDb) (Permitted fiveBefore) d sameDayRound).isSome) = true by decide +kernel)
  rw [Bool.and_eq_true, decide_eq_true_eq, Option.isSome_iff_exists] at hrest
  obtain ⟨horders, d₁, h₁⟩ := hrest
  have hrow : (1, OrderState.unknown, (2 : Time)) ∈ d₀.ledger.orders.map fun o => (o.id, o.state, o.createdTs) := by
    rw [horders]
    exact List.mem_cons_self
  obtain ⟨o, ho, heq⟩ := List.mem_map.1 hrow
  simp only [Prod.mk.injEq] at heq
  refine ⟨d₀, d₁, run_of_exec h₀, run_of_exec h₁, o, ho, heq.2.1, unknown_resolved_iff_same_date (run_of_exec h₀)
    (run_of_exec h₁) ⟨_, _, _, _, rfl, by simp⟩ ho heq.2.1 ?_⟩
  intro totals now hmem
  simp only [sameDayRound, List.cons_append, List.nil_append, List.mem_cons, List.not_mem_nil, or_false,
    Label.run.injEq,
    reduceCtorEq, false_or, Act.gotTotals.injEq] at hmem
  rw [heq.2.2, hmem.2]
  decide

/-- The process dies with the request out, and is started again after midnight. -/
def overMidnight : List Label :=
  [.boot 0 none, .run (.arrive ⟨"c1", "005930", .buy, 1, 70000⟩), .run (.enter 0 "20260720" 1),
   .run (.totalled ⟨5, 5, 350000⟩ 2), .run .send, .verdict 0 (.accepted "0000000101"), .die, .boot 100000000 none]

/-- A round of the next day. -/
def nextDayRound : List Label :=
  .run (.startReconcile "20260721") :: ([.run (.gotHoldings [("005930", 5)] 100000000)] ++
    [.run (.gotBalance [("005930", 5)] 100000000 none)])

/-- The order of yesterday is not looked at: it is UNKNOWN after a complete round, long past the grace time. -/
theorem orphaned_at_midnight :
    ∃ d₀ d₁, Run (step ⟨1000000, 10000000⟩ roomyDb) (Permitted fiveBefore) .init overMidnight d₀ ∧
      Run (step ⟨1000000, 10000000⟩ roomyDb) (Permitted fiveBefore) d₀ nextDayRound d₁ ∧
      IsRound "20260721" nextDayRound ∧
      d₀.ledger.orders.map (fun o => (o.id, o.tradeDate, o.state, o.createdTs)) = [(1, "20260720", .unknown, 2)] ∧
      d₁.ledger.orders.map (fun o => (o.id, o.state)) = [(1, .unknown)] := by
  obtain ⟨d₀, h₀, hrest⟩ := (Option.any_eq_true _ _).1
    (show ((exec (step ⟨1000000, 10000000⟩ roomyDb) (Permitted fiveBefore)
    .init overMidnight).any fun d =>
      decide (d.ledger.orders.map (fun o => (o.id, o.tradeDate, o.state, o.createdTs)) =
        [(1, "20260720", .unknown, 2)]) &&
      (exec (step ⟨1000000, 10000000⟩ roomyDb) (Permitted fiveBefore) d nextDayRound).any fun d' =>
        decide (d'.ledger.orders.map (fun o => (o.id, o.state)) = [(1, .unknown)])) = true by decide +kernel)
  rw [Bool.and_eq_true, decide_eq_true_eq] at hrest
  obtain ⟨d₁, h₁, hlast⟩ := (Option.any_eq_true _ _).1 hrest.2
  exact ⟨d₀, d₁, run_of_exec h₀, run_of_exec h₁, ⟨_, _, _, _, rfl, by simp⟩, hrest.1, of_decide_eq_true hlast⟩

end OrderDesk

import MarketFeed.Desk.Step
/-!
# What a step of the desk can do

`Stepped d lbl d'` is a step read by its label (`stepped`), the only place where `step` is unfolded.
`Move d lbl ss h sent`: the step `lbl` issues the statements `ss`, leaves the lock with `h` and the
requests `sent`. `step_moves` reads every step as one of its moves; the invariants of the next modules
go by these.
-/

namespace OrderDesk

open OrderLedger Lts

variable {lim : Limits} {db : Db}

/-- A step by its label. -/
inductive Stepped (lim : Limits) (db : Db) (d : Desk) : Label → Desk → Prop
  | run {a : Act} {p p' : Proc} {ss : List Stmt} {sent : List Sent} : d.proc = some p →
    act lim db d p a = some (ss, p', sent) → Stepped lim db d (.run a) (d.after ss (some p') sent)
  | crash {a : Act} {k : Nat} {p p' : Proc} {ss : List Stmt} {sent : List Sent} : d.proc = some p →
    act lim db d p a = some (ss, p', sent) → Stepped lim db d (.crash a k) (d.after (ss.take k) none d.sent)
  | die {p : Proc} : d.proc = some p → Stepped lim db d .die (d.after [] none d.sent)
  | boot {now : Time} {dies : Option Nat} {k : Nat} {p : Option Proc} : d.proc = none → (p = none ∨ p = some .fresh) →
    Stepped lim db d (.boot now dies) (d.after ((d.ledger.recoverPendingStmts now).take k) p d.sent)
  | verdict {j : Nat} {v : Verdict} {s : Sent} : d.sent[j]? = some s → s.verdict = .underway →
    Stepped lim db d (.verdict j v) { d with sent := d.sent.set j { s with verdict := v } }

theorem stepped {d d' : Desk} {lbl : Label} (h : step lim db d lbl = some d') : Stepped lim db d lbl d' := by
  cases lbl with
  | run a =>
    simp only [step, Option.bind_eq_some_iff, Option.map_eq_some_iff] at h
    obtain ⟨p, hp, ⟨ss, p', sent⟩, ha, rfl⟩ := h
    exact .run hp ha
  | crash a k =>
    simp only [step, Option.bind_eq_some_iff, Option.map_eq_some_iff] at h
    obtain ⟨p, hp, ⟨ss, p', sent⟩, ha, rfl⟩ := h
    exact .crash hp ha
  | die =>
    simp only [step, Option.map_eq_some_iff] at h
    obtain ⟨p, hp, rfl⟩ := h
    exact .die hp
  | boot now dies =>
    simp only [step] at h
    split at h
    · cases h
    · rename_i hnone
      cases dies with
      | none =>
        cases h
        have := @Stepped.boot lim db d now none (d.ledger.recoverPendingStmts now).length _ hnone (.inr rfl)
        rwa [List.take_length] at this
      | some k =>
        cases h
        exact .boot hnone (.inl rfl)
  | verdict j v =>
    simp only [step] at h
    split at h
    · rename_i s hs
      split at h
      · rename_i hu
        cases h
        exact .verdict hs hu
      · cases h
    · cases h

def Desk.holder (d : Desk) : Option Holder := d.proc.bind (·.holder)

/-- The day of a submit that has passed its checks and has recorded nothing yet. -/
def Stage.unrecorded : Stage → Option String
  | .pricing day => some day
  | .baselining day _ => some day
  | _ => none

/-- The calls that neither insert nor mark orders nor close the day. -/
def quietCall : Call → Bool
  | .setTotalsBaseline .. | .setHoldingsBaseline .. | .applyTotals .. | .applyNotice .. => true
  | _ => false

/-- The date and the number of breaks of the `close_day` a completed step calls. -/
def Desk.closing (d : Desk) : Label → Option (String × Nat)
  | .run (.gotBalance holdings now (some date)) =>
    match d.proc with
    | some ⟨_, _, .balance day found⟩ =>
      some (date, (found ++ d.ledger.reconcileHoldings now day holdings).length)
    | _ => none
  | _ => none

/-- The submit `q` of `day` has passed its checks: just now, or before it was suspended. -/
def Desk.passed (d : Desk) (q : Request) (day : String) : Prop :=
  (d.holder = none ∧ d.ledger.byClientId q.clientOrderId = none ∧ d.ledger.dayCloseOf day = none ∧
    d.ledger.openOrder (q.key day) = none) ∨
  ∃ stage, d.holder = some ⟨q, stage⟩ ∧ stage.unrecorded = some day

inductive Move (db : Db) (d : Desk) (lbl : Label) : List Stmt → Option Holder → List Sent → Prop
  | quiet {c : Call} {k : Nat} {h : Option Holder} : quietCall c = true → (h = none ∨ h = d.holder) →
    Move db d lbl ((c.stmts d.ledger).take k) h d.sent
  | close {now : Time} {date : String} {n k : Nat} {h : Option Holder} :
    (h = none ∨ (h = d.holder ∧ d.closing lbl = some (date, n))) →
    Move db d lbl ((d.ledger.closeDay now date n).1.take k) h d.sent
  | boot {now : Time} {k : Nat} : d.holder = none →
      Move db d lbl ((d.ledger.recoverPendingStmts now).take k) none d.sent
  | suspend {q : Request} {day : String} {stage : Stage} : d.passed q day → stage.unrecorded = some day →
    Move db d lbl [] (some ⟨q, stage⟩) d.sent
  | place {q : Request} {day : String} {pre : List Stmt} {now : Time} {unit : Int} : d.passed q day →
    (∀ s ∈ pre, ∃ k t, s = .insertTotalsBaseline k t) →
    Move db d lbl (pre ++ d.ledger.newOrderStmts now q.clientOrderId (q.key day) q.qty q.price unit)
      (some ⟨q, .ordering day (d.ledger.newOrderId q.clientOrderId) false⟩) d.sent
  | placeCut {q : Request} {day : String} {pre : List Stmt} {now : Time} {unit : Int} {k : Nat} : d.passed q day →
    (∀ s ∈ pre, ∃ k t, s = .insertTotalsBaseline k t) →
    Move db d lbl ((pre ++ d.ledger.newOrderStmts now q.clientOrderId (q.key day) q.qty q.price unit).take k)
      none d.sent
  | send {q : Request} {day : String} {id : Nat} {retried : Bool} : d.holder = some ⟨q, .ordering day id retried⟩ →
    Move db d lbl [] (some ⟨q, .sending day id retried d.sent.length⟩)
      (d.sent ++ [⟨q.clientOrderId, .underway, (d.ledger.byClientId q.clientOrderId).isSome,
        (d.ledger.dayCloseOf day).isSome⟩])
  | repeated {q : Request} {day : String} {id j : Nat} {s : Sent} : d.holder = some ⟨q, .sending day id false j⟩ →
    d.sent[j]? = some s → s.verdict = .throttled → Move db d lbl [] (some ⟨q, .ordering day id true⟩) d.sent
  | finish {q : Request} {day : String} {id j : Nat} {retried : Bool} {now : Time} {result : Py Accepted} {k : Nat} :
    d.holder = some ⟨q, .sending day id retried j⟩ →
      Move db d lbl ((OrderDesk.finish db now id result).take k) none d.sent

/-- A step that writes nothing and keeps the lock as it is, or gives it up. -/
theorem Move.idle {d : Desk} {lbl : Label} {h : Option Holder} (hh : h = none ∨ h = d.holder) :
    Move db d lbl [] h d.sent :=
  @Move.quiet db d lbl (.setTotalsBaseline ⟨"", "", .buy⟩ ⟨0, 0, 0⟩) 0 h rfl hh

/-- What a call of the segments of `submit` before the row is recorded can leave. -/
def Segment (d : Desk) (q : Request) (day : String) (seg : List Stmt × Option Stage) : Prop :=
  seg = ([], none) ∨
  (∃ stage : Stage, stage.unrecorded = some day ∧ seg = ([], some stage)) ∨
  ∃ pre now unit, (∀ s ∈ pre, ∃ k t, s = Stmt.insertTotalsBaseline k t) ∧
    seg = (pre ++ d.ledger.newOrderStmts now q.clientOrderId (q.key day) q.qty q.price unit,
      some (.ordering day (d.ledger.newOrderId q.clientOrderId) false))

theorem segment_priced (d : Desk) (q : Request) (now : Time) (day : String) (unit : Int) :
    Segment d q day (q.priced lim d.ledger now day unit) := by
  unfold Request.priced
  simp only
  split
  · exact .inl rfl
  · split
    · exact .inl rfl
    · cases d.ledger.baseline (q.key day) with
      | none => exact .inr (.inl ⟨_, rfl, rfl⟩)
      | some base => exact .inr (.inr ⟨[], now, unit, by simp, rfl⟩)

theorem segment_totalled (d : Desk) (q : Request) (now : Time) (day : String) (unit : Int) (totals : Totals) :
    Segment d q day (q.totalled d.ledger now day unit totals) :=
  .inr (.inr ⟨_, now, unit, by simp [setTotalsBaselineStmts], rfl⟩)

/-- `enter` goes on only past all three checks. -/
theorem segment_enter (d : Desk) (q : Request) (now : Time) (day : String) :
    q.enter lim d.ledger now day = ([], none) ∨
    ((d.ledger.byClientId q.clientOrderId = none ∧ d.ledger.dayCloseOf day = none ∧
      d.ledger.openOrder (q.key day) = none) ∧ Segment d q day (q.enter lim d.ledger now day)) := by
  unfold Request.enter
  split
  · exact .inl rfl
  · split
    · exact .inl rfl
    · split
      · exact .inl rfl
      · rename_i h1 h2 h3
        refine .inr ⟨⟨by simpa using h1, by simpa using h2, by simpa using h3⟩, ?_⟩
        split
        · exact segment_priced d q now day q.price
        · exact .inr (.inl ⟨_, rfl, rfl⟩)

theorem segment_run {d : Desk} {lbl : Label} {q : Request} {day : String} {seg : List Stmt × Option Stage}
    (hp : d.passed q day) (hs : Segment d q day seg) : Move db d lbl seg.1 (seg.2.map (⟨q, ·⟩)) d.sent := by
  obtain rfl | ⟨stage, hst, rfl⟩ | ⟨pre, now, unit, hpre, rfl⟩ := hs
  · exact Move.idle (.inl rfl)
  · exact Move.suspend hp hst
  · exact Move.place hp hpre

theorem segment_crash {d : Desk} {lbl : Label} {q : Request} {day : String} {seg : List Stmt × Option Stage} {k : Nat}
    (hp : d.passed q day) (hs : Segment d q day seg) : Move db d lbl (seg.1.take k) none d.sent := by
  obtain rfl | ⟨stage, hst, rfl⟩ | ⟨pre, now, unit, hpre, rfl⟩ := hs
  · simpa using Move.idle (.inl rfl)
  · simpa using Move.idle (.inl rfl)
  · exact Move.placeCut hp hpre

/-- The statements of a segment, run to its end or cut. -/
theorem act_moves {d : Desk} {p : Proc} (hp : d.proc = some p) {a : Act} {ss : List Stmt} {p' : Proc} {sent : List Sent}
    (h : act lim db d p a = some (ss, p', sent)) :
    Move db d (.run a) ss p'.holder sent ∧ ∀ k, Move db d (.crash a k) (ss.take k) none d.sent := by
  have hh : d.holder = p.holder := by rw [Desk.holder, hp]; rfl
  have hidle : ∀ lbl, Move db d lbl [] p.holder d.sent := fun lbl => Move.idle (.inr hh.symm)
  have hcut : ∀ k lbl, Move db d lbl ([].take k) none d.sent := fun k lbl => by
    rw [List.take_nil]; exact Move.idle (.inl rfl)
  have hcall : ∀ c : Call, quietCall c = true → c.stmts d.ledger = ss → p'.holder = p.holder → sent = d.sent →
      Move db d (.run a) ss p'.holder sent ∧ ∀ k, Move db d (.crash a k) (ss.take k) none d.sent := by
    rintro c hc rfl hpp rfl
    refine ⟨?_, fun k => Move.quiet hc (.inl rfl)⟩
    have := @Move.quiet db d (.run a) c (c.stmts d.ledger).length p.holder hc (.inr hh.symm)
    rwa [List.take_length, ← hpp] at this
  cases a with
  | arrive q => cases h; exact ⟨hidle _, fun k => hcut k _⟩
  | enter i day now =>
    simp only [act] at h
    split at h
    · rename_i q hnone _
      cases h
      obtain h0 | ⟨⟨h1, h2, h3⟩, hseg⟩ := @segment_enter lim d q now day
      · rw [h0]
        exact ⟨Move.idle (.inl rfl), fun k => hcut k _⟩
      · have hpass : d.passed q day := .inl ⟨hh.trans hnone, h1, h2, h3⟩
        exact ⟨segment_run hpass hseg, fun k => segment_crash hpass hseg⟩
    · cases h
  | priced unit now =>
    simp only [act] at h
    split at h
    · rename_i q day heq
      cases h
      have hpass : d.passed q day := .inr ⟨_, hh.trans heq, rfl⟩
      exact ⟨segment_run hpass (segment_priced d q now day unit),
        fun k => segment_crash hpass (segment_priced d q now day unit)⟩
    · cases h
  | totalled totals now =>
    simp only [act] at h
    split at h
    · rename_i q day unit heq
      cases h
      have hpass : d.passed q day := .inr ⟨_, hh.trans heq, rfl⟩
      exact ⟨segment_run hpass (segment_totalled d q now day unit totals),
        fun k => segment_crash hpass (segment_totalled d q now day unit totals)⟩
    · cases h
  | send =>
    simp only [act] at h
    split at h
    · rename_i q day id retried heq
      cases h
      exact ⟨Move.send (hh.trans heq), fun k => hcut k _⟩
    · cases h
  | answer result now =>
    simp only [act] at h
    split at h
    · rename_i q day id retried j heq
      split at h
      · rename_i s hs
        split at h
        · rename_i hg
          split at h
          · rename_i hrep
            cases h
            cases result with
            | ok r => cases hrep
            | error f =>
              cases f with
              | rejected code msg =>
                simp only [repeats, Bool.and_eq_true, Bool.not_eq_true'] at hrep
                obtain ⟨rfl, hthr⟩ := hrep
                have hv : s.verdict = .throttled := by simpa [genuine, hthr] using hg
                exact ⟨Move.repeated (hh.trans heq) hs hv, fun k => hcut k _⟩
              | uncertain | raised => cases hrep
          · cases h
            refine ⟨?_, fun k => Move.finish (hh.trans heq)⟩
            have := @Move.finish db d (.run (.answer result now)) q day id j retried now (result.bind readOrder)
              (finish db now id (result.bind readOrder)).length (hh.trans heq)
            rwa [List.take_length] at this
        · cases h
      · cases h
    · cases h
  | leave =>
    simp only [act] at h
    split at h
    · cases h; exact ⟨Move.idle (.inl rfl), fun k => hcut k _⟩
    · cases h
  | abandon i => cases h; exact ⟨hidle _, fun k => hcut k _⟩
  | startReconcile day =>
    simp only [act] at h
    split at h
    · split at h <;> cases h <;> exact ⟨hidle _, fun k => hcut k _⟩
    · cases h
  | gotHoldings holdings now =>
    simp only [act] at h
    split at h
    · cases h; exact hcall (.setHoldingsBaseline _ _ _) rfl rfl rfl rfl
    · cases h
  | gotTotals totals now =>
    simp only [act] at h
    split at h
    · cases h; exact hcall (.applyTotals _ _ _) rfl rfl rfl rfl
    · cases h
  | gotBalance holdings now closing =>
    simp only [act] at h
    split at h
    · rename_i day found heq
      cases closing with
      | none => cases h; exact ⟨hidle _, fun k => hcut k _⟩
      | some date =>
        cases h
        refine ⟨?_, fun k => Move.close (.inl rfl)⟩
        obtain ⟨waiting, holder, recon⟩ := p
        obtain rfl : recon = .balance day found := heq
        have hcl : d.closing (.run (.gotBalance holdings now (some date))) =
            some (date, (found ++ d.ledger.reconcileHoldings now day holdings).length) := by
          simp only [Desk.closing, hp]
        have := @Move.close db d (.run (.gotBalance holdings now (some date))) now date _
          (d.ledger.closeDay now date (found ++ d.ledger.reconcileHoldings now day holdings).length).1.length holder
          (.inr ⟨hh.symm, hcl⟩)
        rwa [List.take_length] at this
    · cases h
  | reconcileFailed => cases h; exact ⟨hidle _, fun k => hcut k _⟩
  | notice now date odno qty price key =>
    cases h
    exact hcall (.applyNotice now date odno qty price key) rfl rfl rfl rfl

/-- **Every step is a move**, or a verdict of the broker. -/
theorem step_moves {d d' : Desk} {lbl : Label} (h : step lim db d lbl = some d') :
    (∃ ss p sent, d' = d.after ss p sent ∧ Move db d lbl ss (p.bind (·.holder)) sent) ∨
    ∃ j s v, d.sent[j]? = some s ∧ s.verdict = .underway ∧
    d' = { d with sent := d.sent.set j { s with verdict := v } } := by
  cases stepped h with
  | @run a p p' ss sent hp ha => exact .inl ⟨ss, some p', sent, rfl, (act_moves hp ha).1⟩
  | @crash a k p p' ss sent hp ha => exact .inl ⟨ss.take k, none, d.sent, rfl, (act_moves hp ha).2 k⟩
  | die => exact .inl ⟨[], none, d.sent, rfl, Move.idle (.inl rfl)⟩
  | @boot now dies k p hnone hp =>
    have hh : d.holder = none := by rw [Desk.holder, hnone]; rfl
    have hlock : p.bind (·.holder) = none := by
      obtain rfl | rfl := hp
      · rfl
      · rfl
    refine .inl ⟨_, p, d.sent, rfl, ?_⟩
    rw [hlock]
    exact Move.boot hh
  | verdict hs hu => exact .inr ⟨_, _, _, hs, hu, rfl⟩

end OrderDesk

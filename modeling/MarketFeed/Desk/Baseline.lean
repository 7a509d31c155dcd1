import MarketFeed.Desk.Account
import MarketFeed.Desk.Calls
/-!
# The holdings baseline (order_desk.py:326-345, ledger.py:219-231, :340-367)

`reconcile_holdings` expects the baseline plus the net fills of the day's orders. The baseline is whatever
the balance shows when it is first asked for, and nothing keeps the day's orders from executing before
that. `Steady` is the invariant of runs in which the captured balance shows no net execution of the day's
orders (`Account.early` is false): once the ledger has every execution a later balance shows, there is no
mismatch (`caught_up_no_mismatch`). An execution in the captured balance is counted twice for the rest of the
day (`counted_twice`).
-/

namespace OrderDesk

open OrderLedger Lts Total

variable {lim : Limits} {db : Db} {opening : List (String × Nat)}

/-! ## The tables of the baseline -/

/-- `holdings_baseline` of a day and symbol. -/
def baselineOf (l : Ledger) (day sym : String) : Int :=
  ((l.holdingsBaseline.filter fun h => h.1 == day && h.2.1 == sym).map (·.2.2)).sum

def Stmt.writesHoldings : Stmt → Bool
  | .insertHolding .. | .insertHoldingsTaken .. => true
  | _ => false

/-- The holdings tables are as they were. -/
structure SameHoldings (l l' : Ledger) : Prop where
  rows : l'.holdingsBaseline = l.holdingsBaseline
  taken : l'.holdingsBaselineTaken = l.holdingsBaselineTaken

theorem sameHoldings_script {l : Ledger} {ss : List Stmt} (h : ∀ s ∈ ss, Stmt.writesHoldings s = false) :
    SameHoldings l (l.execAll ss) := by
  constructor
  · refine Script.runScript_frame Ledger.holdingsBaseline fun l s hs => ?_
    have := h s hs
    cases s <;> simp only [Stmt.writesHoldings, Bool.true_eq_false, Ledger.exec] at this ⊢ <;> split <;> rfl
  · refine Script.runScript_frame Ledger.holdingsBaselineTaken fun l s hs => ?_
    have := h s hs
    cases s <;> simp only [Stmt.writesHoldings, Bool.true_eq_false, Ledger.exec] at this ⊢ <;> split <;> rfl

theorem SameHoldings.has {l l' : Ledger} (h : SameHoldings l l') (day : String) :
    l'.hasHoldingsBaseline day = l.hasHoldingsBaseline day := by
  rw [Ledger.hasHoldingsBaseline, Ledger.hasHoldingsBaseline, h.taken]

theorem SameHoldings.baselineOf {l l' : Ledger} (h : SameHoldings l l') (day sym : String) :
    baselineOf l' day sym = OrderDesk.baselineOf l day sym := by
  rw [OrderDesk.baselineOf, OrderDesk.baselineOf, h.rows]

/-- Only `set_holdings_baseline` writes them. -/
theorem sameHoldings_call {l : Ledger} {c : Call} (hc : ∀ now day hs, c ≠ .setHoldingsBaseline now day hs) (k : Nat) :
    SameHoldings l (l.execAll ((c.stmts l).take k)) := by
  refine sameHoldings_script fun s hs => ?_
  have hi := issues_of_mem (List.mem_of_mem_take hs)
  cases c with
  | setHoldingsBaseline now day holdings => exact absurd rfl (hc now day holdings)
  | _ => cases s <;> first | rfl | cases hi

/-- … which the desk calls when it gets the balance it waits for before the first totals. -/
theorem sameHoldings_step {d d' : Desk} {lbl : Label} (h : step lim db d lbl = some d')
    (hrun : ∀ hs now, ¬ lbl.OfAct (.gotHoldings hs now)) : SameHoldings d.ledger d'.ledger := by
  refine step_ledger (I := SameHoldings d.ledger) h ⟨rfl, rfl⟩ (fun p a l c k hp hlbl hl hcall => ?_) fun now k => ?_
  · have hsame : SameHoldings l (l.execAll ((c.stmts l).take k)) := by
      cases hcall with
      | setHoldingsBaseline _ ha => exact absurd (ha ▸ hlbl) (hrun _ _)
      | _ => exact sameHoldings_call (by simp) k
    exact ⟨hsame.rows.trans hl.rows, hsame.taken.trans hl.taken⟩
  · exact @sameHoldings_call d.ledger (.recoverPending now) (by simp) k

/-- The first capture of a day. -/
theorem setHoldings_writes {l : Ledger} {day : String} (hno : l.hasHoldingsBaseline day = false) (now : Time)
    (hs : List (String × Int)) :
    (l.execAll (l.setHoldingsBaselineStmts now day hs)).holdingsBaseline =
      l.holdingsBaseline ++ hs.map (fun h => (day, h.1, h.2)) ∧
    (l.execAll (l.setHoldingsBaselineStmts now day hs)).holdingsBaselineTaken = l.holdingsBaselineTaken ++
      [(day, now)] := by
  have hrows : ∀ (hs : List (String × Int)) (l : Ledger),
      l.execAll (hs.map fun h => .insertHolding day h.1 h.2) =
        { l with holdingsBaseline := l.holdingsBaseline ++ hs.map fun h => (day, h.1, h.2) } := by
    intro hs
    induction hs with
    | nil => intro l; simp [execAll_nil]
    | cons h hs ih =>
      intro l
      rw [List.map_cons, execAll_cons, ih]
      simp [Ledger.exec]
  rw [Ledger.setHoldingsBaselineStmts, hno]
  simp only [Bool.false_eq_true, if_false]
  rw [execAll_append, hrows]
  exact ⟨rfl, rfl⟩

/-- No rows of a day without a capture. -/
def Dated (l : Ledger) : Prop := ∀ h ∈ l.holdingsBaseline, l.hasHoldingsBaseline h.1 = true

/-- The captured baseline is the balance. -/
theorem baselineOf_capture {l : Ledger} (hd : Dated l) {day : String} (hno : l.hasHoldingsBaseline day = false)
    (now : Time)
    {hs : List (String × Int)} (hn : (hs.map (·.1)).Nodup) (sym : String) :
    baselineOf (l.execAll (l.setHoldingsBaselineStmts now day hs)) day sym = holdingOf hs sym := by
  have hold : l.holdingsBaseline.filter (fun h => h.1 == day && h.2.1 == sym) = [] := by
    refine List.filter_eq_nil_iff.2 fun h hh => ?_
    have hne : h.1 ≠ day := by
      rintro rfl
      rw [hd h hh] at hno
      cases hno
    simp [hne]
  rw [baselineOf, (setHoldings_writes hno now hs).1, List.filter_append, hold, List.nil_append, List.filter_map,
    List.map_map, ← sum_of_key hn sym]
  simp [Function.comp_def]

theorem dated_capture {l : Ledger} (hd : Dated l) (now : Time) (day : String) (hs : List (String × Int)) :
    Dated (l.execAll (l.setHoldingsBaselineStmts now day hs)) ∧
      (l.execAll (l.setHoldingsBaselineStmts now day hs)).hasHoldingsBaseline day = true ∧
      ∀ day', (l.execAll (l.setHoldingsBaselineStmts now day hs)).hasHoldingsBaseline day' = true →
        day' = day ∨ l.hasHoldingsBaseline day' = true := by
  cases hno : l.hasHoldingsBaseline day with
  | true =>
    rw [Ledger.setHoldingsBaselineStmts, hno]
    exact ⟨hd, hno, fun _ h => .inr h⟩
  | false =>
    obtain ⟨h1, h2⟩ := setHoldings_writes hno now hs
    have hhas : ∀ day', (l.execAll (l.setHoldingsBaselineStmts now day hs)).hasHoldingsBaseline day' = true ↔
        l.hasHoldingsBaseline day' = true ∨ day = day' := by
      intro day'
      simp [Ledger.hasHoldingsBaseline, h2]
    refine ⟨fun h hh => ?_, (hhas day).2 (.inr rfl), fun day' h => ((hhas day').1 h).symm.imp_left Eq.symm⟩
    rw [h1] at hh
    rcases List.mem_append.1 hh with hh | hh
    · exact (hhas h.1).2 (.inl (hd h hh))
    · obtain ⟨x, _, rfl⟩ := List.mem_map.1 hh
      exact (hhas day).2 (.inr rfl)

/-! ## The invariant -/

def Recon.day : Recon → Option String
  | .idle => none
  | .holdings day => some day
  | .totals day _ _ => some day
  | .balance day _ => some day

/-- The round is past the capture. -/
def Recon.based : Recon → Option String
  | .totals day _ _ => some day
  | .balance day _ => some day
  | _ => none

/-- The balance about to be captured as the baseline of a day shows a net execution of that day's orders. -/
def Account.early (a : Account) : AccountStep → Bool
  | .desk (.run (.gotHoldings _ _)) =>
    match a.desk.recon, a.reply with
    | .holdings day, some r =>
      (a.execs.take r.shown).any fun e => decide (tradedOn (a.execs.take r.shown) day e.key.symbol ≠ 0)
    | _, _ => false
  | _ => false

/-- The baseline of a day shows the first `n` executions, of which those of the day cancel out, and all later
ones are the day's. -/
structure Based (opening : List (String × Nat)) (a : Account) (day : String) (n : Nat) : Prop where
  shown : n ≤ a.shown
  rows : ∀ sym, baselineOf a.desk.ledger day sym = position opening (a.execs.take n) sym
  cancels : ∀ sym, tradedOn (a.execs.take n) day sym = 0
  later : ∀ e ∈ a.execs.drop n, e.key.tradeDate = day

/-- The balance under way. -/
structure Replied (opening : List (String × Nat)) (a : Account) (r : Reply) : Prop where
  shown : r.shown = a.shown
  holdings : r.holdings.Perm (held opening (a.execs.take r.shown))
  later : a.desk.recon.day = some a.today → ∀ e ∈ a.execs.drop r.shown, e.key.tradeDate = a.today

structure Steady (opening : List (String × Nat)) (a : Account) : Prop where
  inv : Inv a.desk
  dated : Dated a.desk.ledger
  covered : ∀ n sym, 0 ≤ position opening (a.execs.take n) sym
  owned : ∀ e ∈ a.execs, ∃ r ∈ a.desk.ledger.orders, r.clientOrderId = e.clientOrderId ∧ r.key = e.key
  shown_le : a.shown ≤ a.execs.length
  seen : ∀ day, a.desk.recon.day = some day ∨ a.desk.ledger.hasHoldingsBaseline day = true → day ∈ a.today :: a.past
  captured : ∀ day, a.desk.recon.based = some day → a.desk.ledger.hasHoldingsBaseline day = true
  replied : ∀ r, a.reply = some r → Replied opening a r
  based : a.desk.ledger.hasHoldingsBaseline a.today = true → ∃ n, Based opening a a.today n

theorem position_nil (sym : String) :
    position opening [] sym = holdingOf (opening.map fun h => (h.1, (h.2 : Int))) sym :=
  Int.add_zero _

theorem steady_init (today : String) : Steady opening (.init today) := by
  refine ⟨inv_init, fun _ h => (nomatch h), fun n sym => ?_, fun _ h => (nomatch h), Nat.le_refl 0, ?_, ?_,
    fun _ h => (nomatch h), ?_⟩
  · rw [show (Account.init today).execs.take n = [] from List.take_nil, position_nil]
    obtain ⟨h, hh, _, heq⟩ | ⟨_, heq⟩ := @find_key (opening.map fun h => (h.1, (h.2 : Int))) sym
    · obtain ⟨o, _, rfl⟩ := List.mem_map.1 hh
      rw [heq]
      exact Int.natCast_nonneg _
    · rw [heq]
  · rintro day (h | h) <;> cases h
  · intro day h
    cases h
  · intro h
    cases h

/-! ### The broker's steps -/

/-- A prefix of the executions so far is one of the executions with one more. -/
theorem take_snoc {es : List Exec} {n : Nat} (h : n ≤ es.length) (e : Exec) : (es ++ [e]).take n = es.take n :=
  List.take_append_of_le_length h

theorem mem_drop_snoc {es : List Exec} {n : Nat} (h : n ≤ es.length) {e x : Exec} (hx : x ∈ (es ++ [e]).drop n) :
    x ∈ es.drop n ∨ x = e := by
  rw [List.drop_append_of_le_length h, List.mem_append, List.mem_singleton] at hx
  exact hx

theorem position_snoc (es : List Exec) (e : Exec) (sym : String) :
    position opening (es ++ [e]) sym = position opening es sym + if e.key.symbol == sym then e.signed else 0 := by
  rw [position, traded_append, position]
  simp only [traded, total_cons, total_nil]
  omega

theorem covered_snoc {es : List Exec} (hc : ∀ n sym, 0 ≤ position opening (es.take n) sym) {e : Exec} (hq : 0 < e.qty)
    (hsell : e.key.side = .sell → e.qty ≤ position opening es e.key.symbol) (n : Nat) (sym : String) :
    0 ≤ position opening ((es ++ [e]).take n) sym := by
  by_cases hn : n ≤ es.length
  · rw [take_snoc hn]
    exact hc n sym
  · have hold := hc es.length sym
    rw [List.take_length] at hold
    rw [List.take_of_length_le (by simp; omega), position_snoc]
    by_cases hs : e.key.symbol = sym
    · rw [if_pos (by simpa using hs)]
      cases hside : e.key.side with
      | buy =>
        simp only [Exec.signed, hside, if_true]
        omega
      | sell =>
        have := hsell hside
        rw [hs] at this
        simp only [Exec.signed, hside, reduceCtorEq, if_false]
        omega
    · rw [if_neg (by simpa using hs)]
      omega

theorem steady_execute {a : Account} (ha : Steady opening a) {r : Order} (hr : r ∈ a.desk.ledger.orders)
    (hday : r.tradeDate = a.today) {qty : Int} (hq : 0 < qty)
    (hsell : r.side = .sell → qty ≤ position opening a.execs r.symbol) :
    Steady opening { a with execs := a.execs ++ [⟨r.clientOrderId, r.key, qty⟩] } := by
  have hdate : (⟨r.clientOrderId, r.key, qty⟩ : Exec).key.tradeDate = a.today := hday
  refine ⟨ha.inv, ha.dated, covered_snoc ha.covered hq hsell, fun e he => ?_, ?_, ha.seen, ha.captured,
    fun x hx => ?_, fun hb => ?_⟩
  · rcases List.mem_append.1 he with he | he
    · exact ha.owned e he
    · rw [List.mem_singleton.1 he]
      exact ⟨r, hr, rfl, rfl⟩
  · have := ha.shown_le
    simp only [List.length_append]
    omega
  · obtain ⟨h1, h2, h3⟩ := ha.replied x hx
    have hn : x.shown ≤ a.execs.length := h1 ▸ ha.shown_le
    refine ⟨h1, by rw [take_snoc hn]; exact h2, fun hrec e he => ?_⟩
    obtain he | rfl := mem_drop_snoc hn he
    · exact h3 hrec e he
    · exact hdate
  · obtain ⟨n, h1, h2, h3, h4⟩ := ha.based hb
    have hn : n ≤ a.execs.length := Nat.le_trans h1 ha.shown_le
    refine ⟨n, h1, ?_, ?_, fun e he => ?_⟩
    · rw [take_snoc hn]
      exact h2
    · rw [take_snoc hn]
      exact h3
    · obtain he | rfl := mem_drop_snoc hn he
      · exact h4 e he
      · exact hdate

theorem steady_answer {a : Account} (ha : Steady opening a) {hs : List (String × Int)} {n : Nat} (hle : a.shown ≤ n)
    (hn : n ≤ a.execs.length) (hlater : ∀ e ∈ a.execs.drop n, e.key.tradeDate = a.today)
    (hp : hs.Perm (held opening (a.execs.take n))) : Steady opening { a with shown := n, reply := some ⟨hs, n⟩ } := by
  refine ⟨ha.inv, ha.dated, ha.covered, ha.owned, hn, ha.seen, ha.captured, fun r hr => ?_, fun hb => ?_⟩
  · cases hr
    exact ⟨rfl, hp, fun _ => hlater⟩
  · obtain ⟨m, h1, h2, h3, h4⟩ := ha.based hb
    exact ⟨m, Nat.le_trans h1 hle, h2, h3, h4⟩

/-- On a new date there is no baseline yet, and no round. -/
theorem steady_midnight {a : Account} (ha : Steady opening a) {date : String} (hnew : date ∉ a.today :: a.past) :
    Steady opening { a with today := date, past := a.today :: a.past } := by
  refine ⟨ha.inv, ha.dated, ha.covered, ha.owned, ha.shown_le, fun day h => List.mem_cons_of_mem date (ha.seen day h),
    ha.captured, fun r hr => ?_, fun hb => absurd (ha.seen date (.inr hb)) hnew⟩
  obtain ⟨h1, h2, _⟩ := ha.replied r hr
  exact ⟨h1, h2, fun hrec => absurd (ha.seen date (.inl hrec)) hnew⟩

/-! ### The desk's steps -/

/-- Rows stay, with their client id and key. -/
theorem step_keeps_row {d d' : Desk} {lbl : Label} (h : step lim db d lbl = some d')
    {r : Order} (hr : r ∈ d.ledger.orders) :
    ∃ r' ∈ d'.ledger.orders, r'.clientOrderId = r.clientOrderId ∧ r'.key = r.key := by
  refine step_ledger (I := fun l => ∃ r' ∈ l.orders, r'.clientOrderId = r.clientOrderId ∧ r'.key = r.key) h
    ⟨r, hr, rfl, rfl⟩
    (fun p a l c k _ _ hl _ => ?_) fun now k => execAll_keeps_row hr _
  obtain ⟨x, hx, hc, hk⟩ := hl
  obtain ⟨y, hy, hc', hk'⟩ := execAll_keeps_row hx ((c.stmts l).take k)
  exact ⟨y, hy, hc'.trans hc, hk'.trans hk⟩

@[simp] theorem day_next (day : String) (keys : List (String × Side)) (found : List Break) :
    (Recon.next day keys found).day = some day := by
  cases keys <;> rfl

@[simp] theorem based_next (day : String) (keys : List (String × Side)) (found : List Break) :
    (Recon.next day keys found).based = some day := by
  cases keys <;> rfl

/-- The day of a round, and whether it is past the capture, in a step that captures nothing. -/
theorem recon_step {d d' : Desk} {lbl : Label} (h : step lim db d lbl = some d')
    (hrun : ∀ hs now, ¬ lbl.OfAct (.gotHoldings hs now)) (day : String) :
    (d'.recon.day = some day → d.recon.day = some day ∨ lbl = .run (.startReconcile day)) ∧
    (d'.recon.based = some day → d.recon.based = some day ∨ d.ledger.hasHoldingsBaseline day = true) := by
  by_cases hstart : ∃ day', lbl = .run (.startReconcile day')
  · obtain ⟨day', rfl⟩ := hstart
    obtain ⟨_, hrec | ⟨hhas, hrec⟩⟩ := start_cases h
    · rw [hrec]
      exact ⟨fun hd => .inr (by cases hd; rfl), fun hd => nomatch hd⟩
    · rw [hrec, day_next, based_next]
      exact ⟨fun hd => .inr (by cases hd; rfl), fun hd => .inr (by cases hd; exact hhas)⟩
  · obtain hrec | hrec | ⟨day', hs, now, rfl, _⟩ | ⟨day', k, keys, found, found', totals, now, _, hd0, hrec, _⟩ :=
      recon_cases h fun day' he => hstart ⟨day', he⟩
    · rw [hrec]
      exact ⟨.inl, .inl⟩
    · rw [hrec]
      exact ⟨fun hd => (nomatch hd), fun hd => (nomatch hd)⟩
    · exact absurd Label.OfAct.run (hrun hs now)
    · rw [hrec, hd0, day_next, based_next]
      exact ⟨.inl, .inl⟩

/-- The step that gets the balance it captures. -/
theorem gotHoldings_step {d d' : Desk} {hs : List (String × Int)} {now : Time}
    (h : step lim db d (.run (.gotHoldings hs now)) = some d') :
    ∃ day, d.recon = .holdings day ∧ d'.recon = .next day (d.ledger.keysToWatch day) [] ∧
      d'.ledger = d.ledger.execAll (d.ledger.setHoldingsBaselineStmts now day hs) := by
  cases stepped h with | run hp ha =>
  simp only [act] at ha
  split at ha
  · rename_i day heq
    cases ha
    exact ⟨day, by rw [Desk.recon, hp]; exact heq, rfl, rfl⟩
  · cases ha

/-- The desk goes on: its balance is kept while it waits at the same place. -/
def Account.goesOn (a : Account) (d : Desk) : Account :=
  { a with desk := d, reply := if d.recon = a.desk.recon then a.reply else none }

theorem goesOn_reply {a : Account} {d : Desk} {r : Reply} (h : (a.goesOn d).reply = some r) :
    d.recon = a.desk.recon ∧ a.reply = some r := by
  simp only [Account.goesOn] at h
  split at h
  · exact ⟨‹_›, h⟩
  · cases h

theorem steady_quiet {a : Account} (ha : Steady opening a) {lbl : Label} (hadm : a.admits lbl = true) {d : Desk}
    (h : step lim db a.desk lbl = some d) (hrun : ∀ hs now, ¬ lbl.OfAct (.gotHoldings hs now)) :
    Steady opening (a.goesOn d) := by
  have hsame := sameHoldings_step h hrun
  refine ⟨inv_step ha.inv h, fun x hx => ?_, ha.covered, fun e he => ?_, ha.shown_le, fun day hday => ?_,
    fun day hday => ?_,
    fun r hr => ?_, fun hb => ?_⟩
  · have hx : x ∈ a.desk.ledger.holdingsBaseline := hsame.rows ▸ hx
    exact (hsame.has _).trans (ha.dated x hx)
  · obtain ⟨r, hr, hc, hk⟩ := ha.owned e he
    obtain ⟨r', hr', hc', hk'⟩ := step_keeps_row h hr
    exact ⟨r', hr', hc'.trans hc, hk'.trans hk⟩
  · rcases hday with hday | hday
    · obtain hday | rfl := (recon_step h hrun day).1 hday
      · exact ha.seen day (.inl hday)
      · have htoday : day = a.today := by simpa [Account.admits] using hadm
        rw [htoday]
        exact List.mem_cons_self
    · exact ha.seen day (.inr ((hsame.has day).symm.trans hday))
  · refine (hsame.has day).trans ?_
    exact ((recon_step h hrun day).2 hday).elim (ha.captured day) id
  · obtain ⟨hrec, hr⟩ := goesOn_reply hr
    obtain ⟨h1, h2, h3⟩ := ha.replied r hr
    exact ⟨h1, h2, fun hday => h3 (by rw [← hrec]; exact hday)⟩
  · obtain ⟨n, h1, h2, h3, h4⟩ := ha.based ((hsame.has _).symm.trans hb)
    exact ⟨n, h1, fun sym => (hsame.baselineOf _ _).trans (h2 sym), h3, h4⟩

/-- Another day's baseline. -/
theorem baselineOf_other {l : Ledger} {day day' : String} (hne : day' ≠ day) (now : Time) (hs : List (String × Int))
    (sym : String) :
    baselineOf (l.execAll (l.setHoldingsBaselineStmts now day hs)) day' sym = baselineOf l day' sym := by
  cases hno : l.hasHoldingsBaseline day with
  | true =>
    rw [Ledger.setHoldingsBaselineStmts, hno]
    rfl
  | false =>
    have hnew : (hs.map fun h => (day, h.1, h.2)).filter (fun h => h.1 == day' && h.2.1 == sym) = [] := by
      refine List.filter_eq_nil_iff.2 fun h hh => ?_
      obtain ⟨x, _, rfl⟩ := List.mem_map.1 hh
      simp [Ne.symm hne]
    rw [baselineOf, (setHoldings_writes hno now hs).1, List.filter_append, hnew, List.append_nil, baselineOf]

/-- A balance captured as the baseline of its day. -/
theorem based_capture {a : Account} (ha : Steady opening a) {r : Reply} (hr : a.reply = some r) {now : Time}
    (hrec : a.desk.recon = .holdings a.today) (hno : a.desk.ledger.hasHoldingsBaseline a.today = false)
    (hearly : a.early (.desk (.run (.gotHoldings r.holdings now))) = false) {d : Desk}
    (hl : d.ledger = a.desk.ledger.execAll (a.desk.ledger.setHoldingsBaselineStmts now a.today r.holdings)) :
    Based opening (a.goesOn d) a.today r.shown := by
  obtain ⟨hshown, hperm, hlater⟩ := ha.replied r hr
  refine ⟨Nat.le_of_eq hshown, fun sym => ?_, fun sym => ?_, hlater (by rw [hrec]; rfl)⟩
  · show baselineOf d.ledger a.today sym = _
    rw [hl, baselineOf_capture ha.dated hno now (held_nodup hperm) sym]
    exact holdingOf_held (ha.covered r.shown) hperm sym
  · simp only [Account.early, hrec, hr] at hearly
    by_cases hsym : ∃ e ∈ a.execs.take r.shown, e.key.symbol = sym
    · obtain ⟨e, he, rfl⟩ := hsym
      have hcancel := List.any_eq_false.1 hearly e he
      simp only [decide_eq_true_eq, not_not] at hcancel
      exact hcancel
    · refine total_eq_zero fun e he => ?_
      have hne : e.key.symbol ≠ sym := fun hk => hsym ⟨e, he, hk⟩
      simp [hne]

theorem steady_capture {a : Account} (ha : Steady opening a) {hs : List (String × Int)} {now : Time}
    (hadm : a.admits (.run (.gotHoldings hs now)) = true)
    (hearly : a.early (.desk (.run (.gotHoldings hs now))) = false)
    {d : Desk} (h : step lim db a.desk (.run (.gotHoldings hs now)) = some d) : Steady opening (a.goesOn d) := by
  obtain ⟨day, hrec, hrec', hl⟩ := gotHoldings_step h
  obtain ⟨r, hr, rfl⟩ : ∃ r, a.reply = some r ∧ r.holdings = hs := by simpa [Account.admits] using hadm
  obtain ⟨hdated, hhas, hold⟩ := dated_capture ha.dated now day r.holdings
  rw [← hl] at hdated hhas hold
  have hseen : day ∈ a.today :: a.past := ha.seen day (.inl (by rw [hrec]; rfl))
  refine ⟨inv_step ha.inv h, hdated, ha.covered, fun e he => ?_, ha.shown_le, fun day' hday => ?_, fun day' hday => ?_,
    fun x hx => ?_, fun hb => ?_⟩
  · obtain ⟨x, hx, hc, hk⟩ := ha.owned e he
    obtain ⟨y, hy, hc', hk'⟩ := step_keeps_row h hx
    exact ⟨y, hy, hc'.trans hc, hk'.trans hk⟩
  · rcases hday with hday | hday
    · have hday : d.recon.day = some day' := hday
      rw [hrec', day_next] at hday
      cases hday
      exact hseen
    · obtain rfl | hday := hold day' hday
      · exact hseen
      · exact ha.seen day' (.inr hday)
  · have hday : d.recon.based = some day' := hday
    rw [hrec', based_next] at hday
    cases hday
    exact hhas
  · -- the round has gone on, so no balance is under way
    obtain ⟨hsame, _⟩ := goesOn_reply hx
    rw [hrec', hrec] at hsame
    cases hk : a.desk.ledger.keysToWatch day <;> rw [hk] at hsame <;> cases hsame
  · have hb : d.ledger.hasHoldingsBaseline a.today = true := hb
    cases hno : a.desk.ledger.hasHoldingsBaseline a.today with
    | true =>
      obtain ⟨n, h1, h2, h3, h4⟩ := ha.based hno
      refine ⟨n, h1, fun sym => ?_, h3, h4⟩
      show baselineOf d.ledger a.today sym = _
      rw [hl]
      refine Eq.trans ?_ (h2 sym)
      by_cases hday : a.today = day
      · rw [Ledger.setHoldingsBaselineStmts, ← hday, hno]
        rfl
      · exact baselineOf_other hday now r.holdings sym
    | false =>
      obtain hday | hday := hold a.today hb
      · exact ⟨r.shown, based_capture ha hr (hday ▸ hrec) hno hearly (hday ▸ hl)⟩
      · rw [hno] at hday
        cases hday

/-! ## Runs -/

/-- The captured balance shows no net execution of the day's orders. -/
def Timed (a : Account) (s : AccountStep) : Prop := a.early s = false

instance (a : Account) (s : AccountStep) : Decidable (Timed a s) := by unfold Timed; infer_instance

theorem steady_step {a a' : Account} (ha : Steady opening a) {s : AccountStep} (hok : Timed a s)
    (h : accountStep opening lim db a s = some a') : Steady opening a' := by
  cases s with
  | desk lbl =>
    simp only [accountStep] at h
    split at h
    · rename_i hadm
      obtain ⟨d, hd, rfl⟩ := Option.map_eq_some_iff.1 h
      by_cases hcap : ∃ hs now, lbl.OfAct (.gotHoldings hs now)
      · obtain ⟨hs, now, hof⟩ := hcap
        cases hof with
        | run => exact steady_capture ha hadm hok hd
        | crash => cases hadm
      · exact steady_quiet ha hadm hd fun hs now hof => hcap ⟨hs, now, hof⟩
    · cases h
  | execute cid qty =>
    simp only [accountStep] at h
    split at h
    · rename_i r hby
      split at h
      · rename_i hg
        cases h
        have hcid : r.clientOrderId = cid := by simpa using List.find?_some hby
        rw [← hcid]
        exact steady_execute ha (List.mem_of_find?_eq_some hby) hg.2.1 hg.2.2.1 hg.2.2.2.2
      · cases h
    · cases h
  | answer hs n =>
    simp only [accountStep] at h
    split at h
    · rename_i hg
      cases h
      exact steady_answer ha hg.2.1 hg.2.2.1 hg.2.2.2.1 hg.2.2.2.2
    · cases h
  | midnight date =>
    simp only [accountStep] at h
    split at h
    · cases h
    · cases h
      exact steady_midnight ha ‹_›

/-- The ledger has every execution the balance shows, and no other. -/
def CaughtUp (a : Account) (r : Reply) : Prop :=
  ∀ o ∈ a.desk.ledger.orders, o.tradeDate = a.today → o.filledQty = executed (a.execs.take r.shown) o.clientOrderId

instance (a : Account) (r : Reply) : Decidable (CaughtUp a r) := by unfold CaughtUp; infer_instance

/-- The net fills of the day's orders, by order or by execution. -/
theorem fills_eq_traded {a : Account} (ha : Steady opening a) {r : Reply} (hc : CaughtUp a r) (sym : String) :
    ((a.desk.ledger.orders.filter fun o => o.tradeDate == a.today && o.symbol == sym).map fun o =>
      if o.side = .buy then o.filledQty else -o.filledQty).sum = tradedOn (a.execs.take r.shown) a.today sym := by
  have hcids : (a.desk.ledger.orders.map (·.clientOrderId)).Nodup := by
    rw [List.nodup_iff_pairwise_ne, List.pairwise_map]
    exact ha.inv.wf.clientIds
  have howned : ∀ e ∈ a.execs.take r.shown, ∃ o ∈ a.desk.ledger.orders, o.clientOrderId = e.clientOrderId ∧
      (o.tradeDate == a.today && o.symbol == sym) = (e.key.tradeDate == a.today && e.key.symbol == sym) ∧
      (if o.side = .buy then (1 : Int) else -1) = if e.key.side = .buy then 1 else -1 := by
    intro e he
    obtain ⟨o, ho, hcid, hk⟩ := ha.owned e (List.mem_of_mem_take he)
    rw [← hk]
    exact ⟨o, ho, hcid, rfl, rfl⟩
  have hsum := total_owned (q := Exec.qty) hcids howned
  have hby : ∀ o ∈ a.desk.ledger.orders.filter (fun o => o.tradeDate == a.today && o.symbol == sym),
      (if o.side = .buy then o.filledQty else -o.filledQty) =
        (if o.side = .buy then (1 : Int) else -1) * executed (a.execs.take r.shown) o.clientOrderId := by
    intro o ho
    obtain ⟨ho, hp⟩ := List.mem_filter.1 ho
    simp only [Bool.and_eq_true, beq_iff_eq] at hp
    rw [← hc o ho hp.1]
    split <;> omega
  rw [List.map_congr_left hby]
  refine hsum.trans (congrArg List.sum (List.map_congr_left fun e _ => ?_))
  simp only [Exec.signed]
  split <;> omega

/-- Past the capture only the day's orders execute. -/
theorem position_since {a : Account} {n : Nat} (hb : Based opening a a.today n) {m : Nat} (hnm : n ≤ m) (sym : String) :
    position opening (a.execs.take n) sym + tradedOn (a.execs.take m) a.today sym = position opening
      (a.execs.take m) sym := by
  have hsplit : a.execs.take m = a.execs.take n ++ (a.execs.take m).drop n := by
    conv_lhs => rw [← List.take_append_drop n (a.execs.take m), List.take_take, Nat.min_eq_left hnm]
  have hday : tradedOn ((a.execs.take m).drop n) a.today sym = traded ((a.execs.take m).drop n) sym := by
    refine total_congr fun e he => ?_
    have hmem : e ∈ a.execs.drop n := by
      rw [List.drop_take] at he
      exact List.mem_of_mem_take he
    simp [hb.later e hmem]
  have hon : tradedOn (a.execs.take m) a.today sym = traded ((a.execs.take m).drop n) sym := by
    rw [hsplit, tradedOn, total_append, ← hsplit]
    have hzero := hb.cancels sym
    rw [tradedOn] at hzero
    rw [hzero, ← hday, Int.zero_add]
    rfl
  have hpos : position opening (a.execs.take m) sym =
      position opening (a.execs.take n) sym + traded ((a.execs.take m).drop n) sym := by
    conv_lhs => rw [hsplit]
    rw [position, traded_append, position]
    omega
  rw [hon, hpos]

/-- **No mismatch when the ledger has caught up**, as long as every captured balance shows no net execution of
the day's orders: a round of the day that gets a balance whose executions the ledger has finds the holdings
as expected. -/
theorem caught_up_no_mismatch {today : String} {ls : List AccountStep} {a : Account}
    (h : Run (accountStep opening lim db) Timed (.init today) ls a) {found : List Break} {r : Reply}
    (hrec : a.desk.recon = .balance a.today found) (hr : a.reply = some r) (hc : CaughtUp a r) (now : Time) :
    a.desk.ledger.reconcileHoldings now a.today r.holdings = [] := by
  have ha : Steady opening a := h.invariant (steady_init today) fun _ _ _ hI hok hs => steady_step hI hok hs
  obtain ⟨n, hb⟩ := ha.based (ha.captured a.today (by rw [hrec]; rfl))
  obtain ⟨hshown, hperm, _⟩ := ha.replied r hr
  have heq : ∀ sym, a.desk.ledger.expectedHolding a.today sym = holdingOf r.holdings sym := by
    intro sym
    rw [holdingOf_held (ha.covered r.shown) hperm sym, ← position_since hb (hshown ▸ hb.shown) sym, ← hb.rows sym,
      ← fills_eq_traded ha hc sym]
    rfl
  rw [Ledger.reconcileHoldings]
  refine List.filterMap_eq_nil_iff.2 fun sym _ => ?_
  simp [heq sym]

/-- An order of three shares that the broker accepts. -/
def acceptedOfThree : List AccountStep :=
  [.desk (.run (.arrive ⟨"c1", "005930", .buy, 3, 70000⟩)), .desk (.run (.enter 0 "20260720" 1)),
   .desk (.run (.totalled ⟨0, 0, 0⟩ 2)), .desk (.run .send), .desk (.verdict 0 (.accepted "0000000101")),
   .desk (.run (.answer
     (.ok [(py "rt_cd", .str (py "0")), (py "output", .object [(py "ODNO", .str (py "0000000101"))])]) 3))]

/-- A round that captures the holdings `hs` when `n` executions are shown, and goes on without orders. -/
def capture (hs : List (String × Int)) (n : Nat) (now : Time) : List AccountStep :=
  [.desk (.run (.startReconcile "20260720")), .answer hs n, .desk (.run (.gotHoldings hs now))]

/-- The totals, and the balance after them. -/
def compare (hs : List (String × Int)) (n : Nat) (now : Time) : List AccountStep :=
  [.desk (.run (.gotTotals ⟨3, 3, 210000⟩ now)), .answer hs n]

/-- The baseline is captured, then an order executes and the next round finds it. -/
def capturedFirst : List AccountStep :=
  .desk (.boot 0 none) :: capture [("000660", 5)] 0 0 ++
    [.answer [("000660", 5)] 0, .desk (.run (.gotBalance [("000660", 5)] 0 none))] ++
    acceptedOfThree ++ [.execute "c1" 3, .desk (.run (.startReconcile "20260720"))] ++
    compare [("000660", 5), ("005930", 3)] 1 4

theorem caught_up_no_mismatch_captured :
    ∃ (a : Account) (r : Reply), Run (accountStep [("000660", 5)] ⟨1000000, 10000000⟩ roomyDb) Timed (.init "20260720")
    capturedFirst a ∧ a.reply = some r ∧ CaughtUp a r ∧ a.execs.length = 1 ∧
    a.desk.ledger.reconcileHoldings 5 a.today r.holdings = [] := by
  obtain ⟨a, r, ha, hr, hrec, hlen, hc⟩ : ∃ a r, Run (accountStep [("000660", 5)] ⟨1000000, 10000000⟩ roomyDb) Timed
    (.init "20260720") capturedFirst a ∧ a.reply = some r ∧ a.desk.recon = .balance a.today [] ∧ a.execs.length = 1 ∧
      CaughtUp a r :=
    exists_run_some (by decide +kernel)
  exact ⟨a, r, ha, hr, hc, hlen, caught_up_no_mismatch ha hrec hr hc 5⟩

/-- The order executes before the first round. -/
def executedFirst : List AccountStep :=
  .desk (.boot 0 none) :: acceptedOfThree ++ [.execute "c1" 3] ++ capture [("005930", 3)] 1 4 ++
    compare [("005930", 3)] 1 5

/-- **An execution before the capture is counted twice**, and the mismatch stays. -/
theorem counted_twice : ∃ (a : Account) (found : List Break) (r : Reply),
    Run (accountStep [] ⟨1000000, 10000000⟩ roomyDb) anyStep (.init "20260720") executedFirst a ∧
    a.desk.recon = .balance a.today found ∧ a.reply = some r ∧ CaughtUp a r ∧
    a.desk.ledger.reconcileHoldings 6 a.today r.holdings ≠ [] := by
  obtain ⟨a, r, ha, hr, hrec, hcaught, hbad⟩ : ∃ a r, Run (accountStep [] ⟨1000000, 10000000⟩ roomyDb) anyStep
    (.init "20260720") executedFirst a ∧ a.reply = some r ∧ a.desk.recon = .balance a.today [] ∧ CaughtUp a r ∧
      a.desk.ledger.reconcileHoldings 6 a.today r.holdings ≠ [] := exists_run_some (by decide +kernel)
  exact ⟨a, [], r, ha, hrec, hr, hcaught, hbad⟩

end OrderDesk

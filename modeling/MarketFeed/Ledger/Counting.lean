import Mathlib.Algebra.Order.BigOperators.Group.List
import MarketFeed.Ledger.Book
/-!
# No execution is counted twice

`Sound` relates the ledger to the book: every `odno` of a row is that of a broker order of the row's
client id, and a row has at most the quantity of its executions that are absorbed or whose notice
key is recorded (`booked`). One lemma per action keeps it; the two bounds on `filled_qty` follow.
-/

namespace OrderLedger

open Script Lts Total

/-- The ledger has taken the execution into account. -/
def Exec.counts (l : Ledger) (e : Exec) : Bool := e.absorbed || l.noticeFills.any (·.key == e.noticeKey)

/-- The counted executions of a client order. -/
def counted (l : Ledger) (cid : String) (es : List Exec) : Int :=
  total (fun e => e.order.owner == some cid && e.counts l) (·.qty) es

structure Sound (st : Venue) : Prop where
  wf : Wf st.ledger
  oneOpen : OneOpen st.ledger
  inBook : ∀ e ∈ st.execs, e.order ∈ st.book
  positive : ∀ e ∈ st.execs, 0 < e.qty
  fresh : st.book.Pairwise fun a b => a.key.tradeDate = b.key.tradeDate → stripZeros a.odno ≠ stripZeros b.odno
  owners : ∀ b ∈ st.book, ∀ cid, b.owner = some cid → ∃ r ∈ st.ledger.orders, r.clientOrderId = cid ∧ r.key = b.key
  odnos : ∀ r ∈ st.ledger.orders, ∀ x, r.odno = some x →
    ∃ b ∈ st.book, b.owner = some r.clientOrderId ∧ b.key = r.key ∧ b.odno = x
  booked : ∀ r ∈ st.ledger.orders, r.filledQty ≤ counted st.ledger r.clientOrderId st.execs
  base : ∀ k b, st.ledger.baseline k = some b →
    b.ccldQty ≤ total (fun e => e.order.key == k && e.order.owner.isNone) (·.qty) st.execs

theorem sound_init : Sound .init := by
  refine ⟨wf_empty, ?_, ?_, ?_, ?_, ?_, ?_, ?_, ?_⟩ <;> simp [OneOpen, Venue.init, Ledger.empty, Ledger.baseline]

/-! ## Sums over the executions -/

theorem Sound.qty_nonneg {st : Venue} (h : Sound st) : ∀ e ∈ st.execs, 0 ≤ e.qty := fun e he => by
  have := h.positive e he
  omega

theorem counted_mono {l l' : Ledger} {cid : String} {es : List Exec} (hq : ∀ e ∈ es, 0 ≤ e.qty)
    (hn : ∀ n ∈ l.noticeFills, n ∈ l'.noticeFills) : counted l cid es ≤ counted l' cid es := by
  refine total_mono hq fun e _ he => ?_
  simp only [Exec.counts, Bool.and_eq_true, Bool.or_eq_true, List.any_eq_true] at he ⊢
  obtain ⟨ho, ha | ⟨n, hm, hk⟩⟩ := he
  · exact ⟨ho, .inl ha⟩
  · exact ⟨ho, .inr ⟨n, hn n hm, hk⟩⟩

@[simp] theorem absorb_order (k : Key) (e : Exec) : (e.absorb k).order = e.order := by
  unfold Exec.absorb; split <;> rfl

@[simp] theorem absorb_qty (k : Key) (e : Exec) : (e.absorb k).qty = e.qty := by
  unfold Exec.absorb; split <;> rfl

theorem absorb_counts {k : Key} {e : Exec} {l : Ledger} (h : e.order.key = k ∨ e.counts l = true) :
    (e.absorb k).counts l = true := by
  by_cases hk : e.order.key = k
  · simp [Exec.counts, Exec.absorb, hk]
  · have hc := h.resolve_left hk
    rwa [Exec.absorb, if_neg hk]

theorem mem_absorbFirst {k : Key} {n : Nat} {es : List Exec} {e : Exec} (h : e ∈ absorbFirst k n es) :
    ∃ x ∈ es, e.order = x.order ∧ e.qty = x.qty := by
  rcases List.mem_append.1 h with h | h
  · obtain ⟨x, hx, rfl⟩ := List.mem_map.1 h
    exact ⟨x, List.mem_of_mem_take hx, absorb_order k x, absorb_qty k x⟩
  · exact ⟨e, List.mem_of_mem_drop h, rfl, rfl⟩

theorem total_absorb (p : Exec → Bool) (k : Key) (es : List Exec) :
    total p (·.qty) (es.map (Exec.absorb k)) = total (fun e => p (e.absorb k)) (·.qty) es := by
  simp [total, List.filter_map, Function.comp_def]

/-- A sum that does not look at `absorbed` is not changed by absorbing. -/
theorem total_absorbFirst {p : Exec → Bool} {k : Key} (hp : ∀ e, p (e.absorb k) = p e) (n : Nat) (es : List Exec) :
    total p (·.qty) (absorbFirst k n es) = total p (·.qty) es := by
  have hsplit := total_append p (·.qty) (es.take n) (es.drop n)
  rw [List.take_append_drop] at hsplit
  rw [absorbFirst, total_append, total_absorb, total_congr fun e _ => hp e, hsplit]

/-- Absorbing counts more. -/
theorem counted_absorbFirst {l : Ledger} {k : Key} {n : Nat} {cid : String} {es : List Exec}
    (hq : ∀ e ∈ es, 0 ≤ e.qty) : counted l cid es ≤ counted l cid (absorbFirst k n es) := by
  have hsplit := total_append (fun e => e.order.owner == some cid && e.counts l) (·.qty) (es.take n) (es.drop n)
  rw [List.take_append_drop] at hsplit
  have htake : total (fun e => e.order.owner == some cid && e.counts l) (·.qty) (es.take n) ≤
      total (fun e => (e.absorb k).order.owner == some cid && (e.absorb k).counts l) (·.qty) (es.take n) := by
    refine total_mono (fun e he => hq e (List.mem_of_mem_take he)) fun e _ he => ?_
    simp only [Bool.and_eq_true, absorb_order] at he ⊢
    exact ⟨he.1, absorb_counts (.inr he.2)⟩
  rw [counted, counted, absorbFirst, total_append, total_absorb, hsplit]
  omega

/-- The executions of the key in the first `n` are counted once absorbed. -/
theorem absorbed_le_counted {l : Ledger} {k : Key} {n : Nat} {cid : String} {es : List Exec}
    (hq : ∀ e ∈ es, 0 ≤ e.qty) :
    total (fun e => e.order.key == k && e.order.owner == some cid) (·.qty) (es.take n) ≤
      counted l cid (absorbFirst k n es) := by
  have htake : total (fun e => e.order.key == k && e.order.owner == some cid) (·.qty) (es.take n) ≤
      total (fun e => (e.absorb k).order.owner == some cid && (e.absorb k).counts l) (·.qty) (es.take n) := by
    refine total_mono (fun e he => hq e (List.mem_of_mem_take he)) fun e _ he => ?_
    simp only [Bool.and_eq_true, absorb_order, beq_iff_eq] at he ⊢
    exact ⟨he.2, absorb_counts (.inl he.1)⟩
  have hdrop := @total_nonneg _ (fun e : Exec => e.order.owner == some cid && e.counts l) (·.qty) (es.drop n)
    fun e he => hq e (List.mem_of_mem_drop he)
  rw [counted, absorbFirst, total_append, total_absorb]
  omega

/-! ## Scripts on the ledger -/

theorem rowAfter_odno {ss : List Stmt} (h : ∀ s ∈ ss, ∀ id st odno msg now, s ≠ .markOrder id st odno msg now)
    (r : Order) : (rowAfter ss r).odno = r.odno := by
  refine runScript_frame (fun r : Order => r.odno) fun r s hs => ?_
  have hne := h s hs
  cases s with
  | markOrder id st odno msg now => exact absurd rfl (hne id st odno msg now)
  | setState => simp only [Stmt.onRow]; split <;> rfl
  | updateFill => simp only [Stmt.onRow]; split <;> rfl
  | _ => rfl

theorem baseline_of_stmts {l : Ledger} {ss : List Stmt} (h : ∀ s ∈ ss, ∀ k t, s ≠ .insertTotalsBaseline k t) (k : Key) :
    (l.execAll ss).baseline k = l.baseline k := by
  have hsame : (l.execAll ss).totalsBaseline = l.totalsBaseline :=
    runScript_frame Ledger.totalsBaseline fun l s hs => exec_totalsBaseline (h s hs)
  rw [Ledger.baseline, hsame]; rfl

/-- What a script without new orders has to keep. -/
theorem sound_script {st : Venue} (h : Sound st) {ss : List Stmt} (hi : ∀ s ∈ ss, s.isInsertOrder = false)
    (ht : TargetsOpen st.ledger ss)
    (hod : ∀ r ∈ st.ledger.orders, ∀ x, (rowAfter ss r).odno = some x →
      ∃ b ∈ st.book, b.owner = some r.clientOrderId ∧ b.key = r.key ∧ b.odno = x)
    (hb : ∀ r ∈ st.ledger.orders, (rowAfter ss r).filledQty ≤ counted (st.ledger.execAll ss) r.clientOrderId st.execs)
    (hbase : ∀ k b, (st.ledger.execAll ss).baseline k = some b →
      b.ccldQty ≤ total (fun e => e.order.key == k && e.order.owner.isNone) (·.qty) st.execs) :
    Sound (st.withLedger (st.ledger.execAll ss)) := by
  refine ⟨wf_execAll h.wf ss, oneOpen_script h.wf h.oneOpen hi ht, h.inBook, h.positive, h.fresh, ?_, ?_, ?_, hbase⟩
  · intro b hb cid hcid
    obtain ⟨r, hr, hc, hk⟩ := h.owners b hb cid hcid
    obtain ⟨r', hr', hc', hk'⟩ := execAll_keeps_row hr ss
    exact ⟨r', hr', hc'.trans hc, hk'.trans hk⟩
  · intro r' hr' x hx
    simp only [Venue.withLedger] at hr'
    rw [execAll_orders hi] at hr'
    obtain ⟨r, hr, rfl⟩ := List.mem_map.1 hr'
    rw [rowAfter_clientOrderId, rowAfter_key]
    exact hod r hr x hx
  · intro r' hr'
    simp only [Venue.withLedger] at hr' ⊢
    rw [execAll_orders hi] at hr'
    obtain ⟨r, hr, rfl⟩ := List.mem_map.1 hr'
    rw [rowAfter_clientOrderId]
    exact hb r hr

/-- A call that neither inserts nor marks an order nor sets a baseline: only its fills matter. -/
theorem sound_call {st : Venue} (h : Sound st) {c : Call} (hn : ∀ now cid k q p e, c ≠ .newOrder now cid k q p e)
    (hm : ∀ now id s o m, c ≠ .mark now id s o m) (ht : ∀ k t, c ≠ .setTotalsBaseline k t)
    (hb : ∀ r ∈ st.ledger.orders, r.filledQty + fillQty ((c.stmts st.ledger).flatMap Stmt.fills) r.id ≤
      counted (st.ledger.call c) r.clientOrderId st.execs) : Sound (st.withLedger (st.ledger.call c)) := by
  have hmark : ∀ s ∈ c.stmts st.ledger, ∀ id st odno msg now, s ≠ .markOrder id st odno msg now := by
    rintro s hs id st odno msg now rfl
    have hi := issues_of_mem hs
    cases c with
    | mark => exact absurd rfl (hm _ _ _ _ _)
    | _ => cases hi
  have hset : ∀ s ∈ c.stmts st.ledger, ∀ k t, s ≠ .insertTotalsBaseline k t := by
    rintro s hs k t rfl
    have hi := issues_of_mem hs
    cases c with
    | setTotalsBaseline => exact absurd rfl (ht _ _)
    | _ => cases hi
  refine sound_script h (fun s hs => stmt_isInsertOrder hn hs) (call_targetsOpen _ hm) ?_ ?_ ?_
  · intro r hr x hx
    rw [rowAfter_odno hmark] at hx
    exact h.odnos r hr x hx
  · intro r hr
    have hbal := call_balancedOn h.wf (k := (c.stmts st.ledger).length) (by
      rw [List.take_length]; exact call_endsPaired _ c) hr
    rw [List.take_length] at hbal
    rw [hbal.1]
    exact hb r hr
  · intro k b hk
    rw [baseline_of_stmts hset] at hk
    exact h.base k b hk

/-- A call that books no fill. -/
theorem sound_call_plain {st : Venue} (h : Sound st) {c : Call} (hn : ∀ now cid k q p e, c ≠ .newOrder now cid k q p e)
    (hm : ∀ now id s o m, c ≠ .mark now id s o m) (ht : ∀ k t, c ≠ .setTotalsBaseline k t)
    (hf : (c.stmts st.ledger).flatMap Stmt.fills = []) : Sound (st.withLedger (st.ledger.call c)) := by
  refine sound_call h hn hm ht fun r hr => ?_
  have hold := h.booked r hr
  have hmono : counted st.ledger r.clientOrderId st.execs ≤ counted (st.ledger.call c) r.clientOrderId st.execs :=
    counted_mono h.qty_nonneg fun n hn => execAll_noticeFills_sub hn _
  have hz : fillQty ((c.stmts st.ledger).flatMap Stmt.fills) r.id = 0 := by rw [hf]; rfl
  omega

theorem fills_of_plain {ss : List Stmt} (h : ∀ s ∈ ss, s.booksFor = none) : ss.flatMap Stmt.fills = [] := by
  refine List.flatMap_eq_nil_iff.2 fun s hs => ?_
  have := h s hs
  cases s <;> first | rfl | cases this

/-! ## The broker's steps -/

theorem sound_accept {st : Venue} (h : Sound st) {bo : BrokerOrder}
    (hnew : ∀ b ∈ st.book, b.key.tradeDate = bo.key.tradeDate → stripZeros b.odno ≠ stripZeros bo.odno)
    (hown : ∀ cid ∈ bo.owner, ∃ r ∈ st.ledger.orders, r.clientOrderId = cid ∧ r.key = bo.key) :
    Sound { st with book := st.book ++ [bo] } := by
  refine ⟨h.wf, h.oneOpen, fun e he => List.mem_append_left _ (h.inBook e he), h.positive, ?_, ?_, ?_, h.booked, h.base⟩
  · refine List.pairwise_append.2 ⟨h.fresh, by simp, fun a ha b hb => ?_⟩
    obtain rfl := List.mem_singleton.1 hb
    exact hnew a ha
  · intro b hb cid hcid
    rcases List.mem_append.1 hb with hb | hb
    · exact h.owners b hb cid hcid
    · obtain rfl := List.mem_singleton.1 hb
      exact hown cid hcid
  · intro r hr x hx
    obtain ⟨b, hb, hrest⟩ := h.odnos r hr x hx
    exact ⟨b, List.mem_append_left _ hb, hrest⟩

theorem sound_execute {st : Venue} (h : Sound st) {bo : BrokerOrder} {qty price : Int} {time : String}
    (hbo : bo ∈ st.book) (hq : 0 < qty) : Sound { st with execs := st.execs ++ [⟨bo, qty, price, time, false⟩] } := by
  have hone : ∀ p : Exec → Bool, 0 ≤ total p (·.qty) [⟨bo, qty, price, time, false⟩] := fun p =>
    total_nonneg fun e he => by
      obtain rfl := List.mem_singleton.1 he
      show 0 ≤ qty
      omega
  refine ⟨h.wf, h.oneOpen, ?_, ?_, h.fresh, h.owners, h.odnos, ?_, ?_⟩
  · intro e he
    rcases List.mem_append.1 he with he | he
    · exact h.inBook e he
    · obtain rfl := List.mem_singleton.1 he
      exact hbo
  · intro e he
    rcases List.mem_append.1 he with he | he
    · exact h.positive e he
    · obtain rfl := List.mem_singleton.1 he
      exact hq
  · intro r hr
    have hold := h.booked r hr
    have hnew := hone fun e => e.order.owner == some r.clientOrderId && e.counts st.ledger
    show r.filledQty ≤ counted st.ledger r.clientOrderId (st.execs ++ [⟨bo, qty, price, time, false⟩])
    rw [counted] at hold ⊢
    rw [total_append]
    omega
  · intro k b hk
    have hold := h.base k b hk
    have hnew := hone fun e => e.order.key == k && e.order.owner.isNone
    rw [total_append]
    omega

/-! ## The desk's steps -/

theorem sound_baseline {st : Venue} (h : Sound st) {k : Key} (n : Nat) (ordQty ccldAmt : Int)
    (hnone : st.ledger.rowsOf k = []) :
    Sound (st.withLedger (st.ledger.call (.setTotalsBaseline k (st.dayTotals k n ordQty ccldAmt)))) := by
  have hstmts : (Call.setTotalsBaseline k (st.dayTotals k n ordQty ccldAmt)).stmts st.ledger =
      [.insertTotalsBaseline k (st.dayTotals k n ordQty ccldAmt)] := rfl
  rw [Ledger.call, hstmts]
  refine sound_script h (by simp [Stmt.isInsertOrder]) (targets_of_none (by simp [Stmt.target])) ?_ ?_ ?_
  · intro r hr x hx
    rw [rowAfter_odno (by simp)] at hx
    exact h.odnos r hr x hx
  · intro r hr
    exact le_trans (h.booked r hr) (counted_mono h.qty_nonneg fun n hn => execAll_noticeFills_sub hn _)
  · -- the desk had no order of the key yet, so what the totals contain was executed for others
    intro k' b hb
    rw [execAll_cons, execAll_nil] at hb
    simp only [Ledger.exec] at hb
    split at hb
    · exact h.base k' b hb
    · rename_i hfresh
      by_cases hk : k' = k
      · subst hk
        have hb' : b = st.dayTotals k' n ordQty ccldAmt := by
          have hno : st.ledger.totalsBaseline.find? (·.1 == k') = none :=
            List.find?_eq_none.2 fun x hx hxk => hfresh (List.any_eq_true.2 ⟨x, hx, hxk⟩)
          simpa [Ledger.baseline, List.find?_append, hno] using hb.symm
        have hothers : ∀ e ∈ st.execs, e.order.key = k' → e.order.owner = none := by
          intro e he hek
          by_contra hsome
          obtain ⟨cid, hcid⟩ := Option.ne_none_iff_exists'.1 hsome
          obtain ⟨r, hr, _, hrk⟩ := h.owners e.order (h.inBook e he) cid hcid
          have hmem : r ∈ st.ledger.rowsOf k' := mem_rowsOf.2 ⟨hr, hrk.trans hek⟩
          rw [hnone] at hmem
          cases hmem
        have hle := @total_take_le _ (fun e : Exec => e.order.key == k') (·.qty) st.execs h.qty_nonneg n
        have heq : total (fun e : Exec => e.order.key == k') (·.qty) st.execs =
            total (fun e => e.order.key == k' && e.order.owner.isNone) (·.qty) st.execs := by
          refine total_congr fun e he => ?_
          by_cases hek : e.order.key = k'
          · simp [hek, hothers e he hek]
          · simp [hek]
        rw [hb', ← heq]
        exact hle
      · have hb' : st.ledger.baseline k' = some b := by
          simpa [Ledger.baseline, List.find?_append, Ne.symm hk] using hb
        exact h.base k' b hb'

theorem sound_event {st : Venue} (h : Sound st) (e : Event) :
    Sound (st.withLedger (st.ledger.exec (.insertEvent e))) := by
  refine @sound_script st h [.insertEvent e] (by simp [Stmt.isInsertOrder])
    (targets_of_none (by simp [Stmt.target])) ?_ h.booked h.base
  intro r hr x hx
  exact h.odnos r hr x hx

theorem sound_record {st : Venue} (h : Sound st) (now : Time) (cid : String) {k : Key} (qty price est : Int)
    (hnone : st.ledger.openOrder k = none) :
    Sound (st.withLedger (st.ledger.call (.newOrder now cid k qty price est))) := by
  obtain ⟨_, _, _, h0, _⟩ | ⟨hfresh, _, hs⟩ := newOrder_cases st.ledger now cid k qty price est
  · rw [Ledger.call, Call.stmts, h0]
    exact h
  · rw [Ledger.call, Call.stmts, hs, execAll_cons, execAll_cons, execAll_nil]
    generalize (if est = 0 then price else est) = unit
    have hins := exec_insertOrder hfresh k.tradeDate k.symbol k.side qty price unit now
    have horders := congrArg Ledger.orders hins
    have hnot := congrArg Ledger.noticeFills hins
    have hbase : ∀ k', (st.ledger.exec (.insertOrder cid k.tradeDate k.symbol k.side qty price unit now)).baseline k' =
        st.ledger.baseline k' := fun k' => by rw [hins]; rfl
    clear hins
    have hwf := wf_exec h.wf (.insertOrder cid k.tradeDate k.symbol k.side qty price unit now)
    have hone : OneOpen (st.ledger.exec (.insertOrder cid k.tradeDate k.symbol k.side qty price unit now)) :=
      oneOpen_append h.oneOpen horders hnone
    generalize st.ledger.exec (.insertOrder cid k.tradeDate k.symbol k.side qty price unit now) = l' at *
    refine @sound_event (st.withLedger l') ?_ _
    refine ⟨hwf, hone, h.inBook, h.positive, h.fresh, ?_, ?_, ?_, ?_⟩
    · intro b hb c hc
      obtain ⟨r, hr, hrest⟩ := h.owners b hb c hc
      exact ⟨r, by simp [Venue.withLedger, horders, hr], hrest⟩
    · intro r hr x hx
      simp only [Venue.withLedger, horders] at hr
      rcases List.mem_append.1 hr with hr | hr
      · exact h.odnos r hr x hx
      · obtain rfl := List.mem_singleton.1 hr
        cases hx
    · intro r hr
      simp only [Venue.withLedger, horders] at hr
      have hsame : counted l' r.clientOrderId st.execs = counted st.ledger r.clientOrderId st.execs := by
        simp only [counted, Exec.counts, hnot]
      rcases List.mem_append.1 hr with hr | hr
      · rw [Venue.withLedger, hsame]
        exact h.booked r hr
      · obtain rfl := List.mem_singleton.1 hr
        exact total_nonneg h.qty_nonneg
    · intro k' b hb
      simp only [Venue.withLedger, hbase] at hb
      exact h.base k' b hb

theorem sound_mark {st : Venue} (h : Sound st) (now : Time) {r : Order} (state : OrderState)
    (odno message : Option String)
    (hr : r ∈ st.ledger.orders) (hp : r.state = .pendingSubmit) (hout : st.outcome r.clientOrderId state odno = true) :
    Sound (st.withLedger (st.ledger.call (.mark now r.id state odno message))) := by
  refine sound_script h (by simp [Call.stmts, markStmts, Stmt.isInsertOrder])
    ((mark_targets hr now state odno message).mono fun x hx => by rw [hx]; exact isOpen_of_pendingSubmit hp) ?_ ?_ ?_
  · intro o ho x hx
    have hrow : (rowAfter (markStmts now r.id state odno message) o).odno =
        if o.id = r.id then odno <|> o.odno else o.odno := by
      simp only [markStmts, rowAfter_cons, rowAfter_nil, Stmt.onRow]
      split <;> rfl
    simp only [Call.stmts, hrow] at hx
    split at hx
    · rename_i hid
      obtain rfl := h.wf.eq_of_id ho hr hid
      cases odno with
      | none => exact h.odnos o ho x (by simpa using hx)
      | some y =>
        obtain rfl : y = x := by simpa using hx
        simp only [Venue.outcome, Bool.and_eq_true, List.any_eq_true, beq_iff_eq] at hout
        obtain ⟨_, b, hb, hown, hodno⟩ := hout
        obtain ⟨r', hr', hc, hk⟩ := h.owners b hb _ hown
        obtain rfl := h.wf.eq_of_clientOrderId hr' ho hc
        exact ⟨b, hb, hown, hk.symm, hodno⟩
    · exact h.odnos o ho x hx
  · intro o ho
    have hrow : (rowAfter (markStmts now r.id state odno message) o).filledQty = o.filledQty :=
      (onRow_filled_of_other (s := .markOrder r.id state odno message now) (by simp [Stmt.booksFor])).1
    simp only [Call.stmts, hrow]
    exact le_trans (h.booked o ho) (counted_mono h.qty_nonneg fun n hn => execAll_noticeFills_sub hn _)
  · intro k b hk
    rw [baseline_of_stmts (by simp [Call.stmts, markStmts])] at hk
    exact h.base k b hk

/-! ## Notices -/

theorem Sound.fresh_eq {st : Venue} (h : Sound st) {a b : BrokerOrder} (ha : a ∈ st.book) (hb : b ∈ st.book)
    (hd : a.key.tradeDate = b.key.tradeDate) (ho : stripZeros a.odno = stripZeros b.odno) : a = b := by
  have hinj : ∀ x ∈ st.book, ∀ y ∈ st.book,
      x.key.tradeDate = y.key.tradeDate → stripZeros x.odno = stripZeros y.odno → x = y := by
    refine List.Pairwise.forall_of_forall_of_flip (fun x _ _ _ => rfl) ?_ ?_
    · exact h.fresh.imp fun hp hd hs => absurd hs (hp hd)
    · exact h.fresh.imp fun hp hd hs => absurd hs.symm (hp hd.symm)
  exact hinj a ha b hb hd ho

/-- The order a notice finds under its own trade date is the one the execution belongs to. -/
theorem Sound.byOdno_owner {st : Venue} (h : Sound st) {e : Exec} (he : e ∈ st.execs) {odno : String} {o : Order}
    (hodno : stripZeros odno = stripZeros e.order.odno) (hby : st.ledger.byOdno e.order.key.tradeDate odno = some o) :
    e.order.owner = some o.clientOrderId := by
  obtain ⟨ho, hdate, hhas⟩ := byOdno_some hby
  cases hx : o.odno with
  | none => simp [Order.hasOdno, hx] at hhas
  | some x =>
    obtain ⟨b, hb, hown, hkey, rfl⟩ := h.odnos o ho x hx
    have hstrip : stripZeros b.odno = stripZeros odno := by simpa [Order.hasOdno, hx] using hhas
    have hkd : b.key.tradeDate = e.order.key.tradeDate := by rw [hkey]; exact hdate
    rw [← h.fresh_eq hb (h.inBook e he) hkd (hstrip.trans hodno)]
    exact hown

/-- A notice newly recorded counts its execution. -/
theorem counted_record {l l' : Ledger} {cid : String} {e : Exec} : ∀ {es : List Exec}, (∀ x ∈ es, 0 ≤ x.qty) → e ∈ es →
    e.order.owner = some cid → e.counts l = false → e.counts l' = true → (∀ n ∈ l.noticeFills, n ∈ l'.noticeFills) →
    counted l cid es + e.qty ≤ counted l' cid es
  | x :: es, hq, he, hown, hold, hnew, hsub => by
    have hqs : ∀ y ∈ es, 0 ≤ y.qty := fun y hy => hq y (List.mem_cons_of_mem x hy)
    unfold counted
    rw [total_cons, total_cons]
    rcases List.mem_cons.1 he with rfl | he
    · have hrest := @counted_mono l l' cid es hqs hsub
      unfold counted at hrest
      simp only [hown, hold, hnew, beq_self_eq_true, Bool.and_true, Bool.and_false, Bool.false_eq_true,
        if_true, if_false]
      omega
    · have ih := counted_record hqs he hown hold hnew hsub
      have hx := @counted_mono l l' cid [x] (by simpa using hq x (by simp)) hsub
      unfold counted at ih hx
      simp only [total_cons, total_nil, add_zero] at hx
      omega

theorem sound_notice {st : Venue} (h : Sound st) (now : Time) {i : Nat} {e : Exec} (date odno : String)
    (hi : st.execs[i]? = some e) (hodno : stripZeros odno = stripZeros e.order.odno)
    (ht : timely st (.notice now i date odno)) :
    Sound (st.withLedger (st.ledger.call
      (.applyNotice now date odno e.qty e.price (noticeKey odno e.time e.qty e.price)))) := by
  have he : e ∈ st.execs := List.mem_of_getElem? hi
  have hkey : noticeKey odno e.time e.qty e.price = e.noticeKey := by
    simp only [Exec.noticeKey, noticeKey, hodno]
  rw [hkey]
  have hland := ht e (by simp [hi])
  rw [hkey] at hland
  obtain ⟨o, hby, hkeys, hf, hpos, hroom, heq⟩ | ⟨_, h0⟩ :=
    applyNotice_cases st.ledger now date odno e.qty e.price e.noticeKey
  · have hlands : st.ledger.noticeLands date odno e.qty e.noticeKey = true := by
      have hno : (st.ledger.noticeFills.any fun n => n.key == e.noticeKey) = false := by
        rw [List.any_eq_false]
        intro n hn
        simpa using hkeys n hn
      simp [Ledger.noticeLands, hno, hby, Order.takesNotice, hf, hpos, hroom]
    obtain ⟨habs, hdate⟩ := hland hlands
    rw [hdate] at hby
    have hown := h.byOdno_owner he hodno hby
    have hstmts : (Call.applyNotice now date odno e.qty e.price e.noticeKey).stmts st.ledger =
        noticeStmts now o e.qty e.price e.noticeKey := congrArg Prod.fst heq
    refine sound_call h (by simp) (by simp) (by simp) fun r hr => ?_
    have hold := h.booked r hr
    have hsub : ∀ n ∈ st.ledger.noticeFills, n ∈ (st.ledger.call
        (.applyNotice now date odno e.qty e.price e.noticeKey)).noticeFills := fun n hn => execAll_noticeFills_sub hn _
    have hfills : fillQty ((noticeStmts now o e.qty e.price e.noticeKey).flatMap Stmt.fills) r.id =
        if o.id = r.id then e.qty else 0 := by
      simp [noticeStmts, Stmt.fills, fillQty, total_cons]
    rw [hstmts, hfills]
    split
    · rename_i hid
      obtain rfl := h.wf.eq_of_id (byOdno_some hby).1 hr hid
      have hbefore : e.counts st.ledger = false := by
        simp only [Exec.counts, habs, Bool.false_or, List.any_eq_false]
        intro n hn
        simpa using hkeys n hn
      have hafter : e.counts (st.ledger.call (.applyNotice now date odno e.qty e.price e.noticeKey)) = true := by
        have hmem : (⟨e.noticeKey, o.id, e.qty, e.qty * e.price, now⟩ : NoticeFill) ∈
            (st.ledger.exec (.insertNotice ⟨e.noticeKey, o.id, e.qty, e.qty * e.price, now⟩)).noticeFills := by
          have hno : (st.ledger.noticeFills.any fun n => n.key == e.noticeKey) = false := by
            rw [List.any_eq_false]
            intro n hn
            simpa using hkeys n hn
          simp only [Ledger.exec, hno, Bool.false_eq_true, if_false]
          exact List.mem_append_right _ (by simp)
        have hin : (⟨e.noticeKey, o.id, e.qty, e.qty * e.price, now⟩ : NoticeFill) ∈
            (st.ledger.call (.applyNotice now date odno e.qty e.price e.noticeKey)).noticeFills := by
          rw [Ledger.call, hstmts, noticeStmts, execAll_cons]
          exact execAll_noticeFills_sub hmem _
        simp only [Exec.counts, Bool.or_eq_true, List.any_eq_true]
        exact .inr ⟨_, hin, by simp⟩
      have := counted_record h.qty_nonneg he hown hbefore hafter hsub
      omega
    · have := @counted_mono _ _ r.clientOrderId _ h.qty_nonneg hsub
      omega
  · refine sound_call_plain h (by simp) (by simp) (by simp) (fills_of_plain fun s hs => ?_)
    simp only [Call.stmts] at hs
    rcases h0 with h0 | ⟨_, h0⟩
    · simp [h0] at hs
    · simp only [h0, List.mem_singleton] at hs
      subst hs; rfl

/-! ## Reconciliation -/

theorem sound_absorb {st : Venue} (h : Sound st) (k : Key) (n : Nat) :
    Sound { st with execs := absorbFirst k n st.execs } := by
  refine ⟨h.wf, h.oneOpen, ?_, ?_, h.fresh, h.owners, h.odnos, ?_, ?_⟩
  · intro e he
    obtain ⟨x, hx, ho, _⟩ := mem_absorbFirst he
    rw [ho]
    exact h.inBook x hx
  · intro e he
    obtain ⟨x, hx, _, hq⟩ := mem_absorbFirst he
    rw [hq]
    exact h.positive x hx
  · intro r hr
    exact le_trans (h.booked r hr) (counted_absorbFirst h.qty_nonneg)
  · intro k' b hb
    have hsame := total_absorbFirst (p := fun e => e.order.key == k' && e.order.owner.isNone) (k := k)
      (fun e => by simp) n st.execs
    show b.ccldQty ≤ total _ _ (absorbFirst k n st.execs)
    rw [hsame]
    exact h.base k' b hb

/-- The rows that can take fills are the open order, or none. -/
theorem openLive_eq {l : Ledger} (hw : Wf l) (ho : OneOpen l) {now : Time} {k : Key} {bOrd q : Int} {r : Resolved}
    (hr : resolve now k bOrd q (l.rowsOf k) = .ok r) :
    openLiveOf r.live = [] ∨ ∃ t o, l.openOrder k = some t ∧ openLiveOf r.live = [o] ∧ o.id = t.id ∧
      o.filledQty = t.filledQty ∧ o.qty = t.qty ∧ o ∈ r.live := by
  have hrow : ∀ o ∈ openLiveOf r.live, ∃ t, l.openOrder k = some t ∧ o.id = t.id ∧ o.filledQty = t.filledQty ∧
      o.qty = t.qty ∧ o ∈ r.live := by
    intro o hmem
    obtain ⟨hlive, hfill, _⟩ := mem_openLiveOf.1 hmem
    obtain ⟨hrow, _⟩ | ⟨u, hu, hust, rfl⟩ := resolved_live hr hlive
    · obtain ⟨hro, rfl⟩ := mem_rowsOf.1 hrow
      exact ⟨o, ho.openOrder_eq hro (isOpen_of_fillable hfill), rfl, rfl, rfl, hlive⟩
    · obtain ⟨huo, rfl⟩ := mem_rowsOf.1 hu
      exact ⟨u, ho.openOrder_eq huo (isOpen_of_unknown hust), rfl, rfl, rfl, hlive⟩
  have hids : ((openLiveOf r.live).map (·.id)).Nodup :=
    (resolved_live_ids hr (hw.rowsOf_ids k)).sublist (List.filter_sublist.map _)
  match hl : openLiveOf r.live with
  | [] => exact .inl rfl
  | [o] =>
    obtain ⟨t, ht, h1, h2, h3, h4⟩ := hrow o (by simp [hl])
    exact .inr ⟨t, o, ht, rfl, h1, h2, h3, h4⟩
  | o :: o' :: rest =>
    obtain ⟨t, ht, h1, _⟩ := hrow o (by simp [hl])
    obtain ⟨t', ht', h1', _⟩ := hrow o' (by simp [hl])
    rw [ht] at ht'
    cases ht'
    rw [hl] at hids
    simp [h1, h1'] at hids

/-- What the live rows have booked: the open order's part, and the others'. -/
theorem sumFilled_live {l : Ledger} (hw : Wf l) (ho : OneOpen l) {now : Time} {k : Key} {bOrd q : Int} {r : Resolved}
    (hr : resolve now k bOrd q (l.rowsOf k) = .ok r) {t o : Order} (ht : l.openOrder k = some t) (hmem : o ∈ r.live)
    (hid : o.id = t.id) :
    sumFilled r.live = o.filledQty + total (fun x => !(x.id == t.id)) (·.filledQty) (liveOf (l.rowsOf k)) := by
  have hids := resolved_live_ids hr (hw.rowsOf_ids k)
  have hsplit := total_split (fun _ => true) (fun x : Order => x.id == t.id) (·.filledQty) r.live
  have hall : total (fun _ => true) (·.filledQty) r.live = sumFilled r.live := by simp [total, sumFilled]
  have hone : total (fun x => true && x.id == t.id) (·.filledQty) r.live = o.filledQty := by
    have hf : r.live.filter (fun x => true && x.id == t.id) = [o] := by
      have hn : (r.live.filter fun x => true && x.id == t.id).Nodup := (List.Nodup.of_map _ hids).filter _
      refine List.perm_singleton.1 ((List.perm_ext_iff_of_nodup hn (by simp)).2 fun x => ?_)
      simp only [Bool.true_and, List.mem_filter, beq_iff_eq, List.mem_singleton]
      constructor
      · rintro ⟨hx, hxid⟩
        exact List.inj_on_of_nodup_map hids hx hmem (hxid.trans hid.symm)
      · rintro rfl
        exact ⟨hmem, hid⟩
    rw [total, hf]
    simp
  have hrest : total (fun x => true && !(x.id == t.id)) (·.filledQty) r.live =
      total (fun x => !(x.id == t.id)) (·.filledQty) (liveOf (l.rowsOf k)) := by
    simp only [Bool.true_and]
    obtain ⟨_, _, hl, _⟩ | ⟨_, hl, _⟩ := resolve_cases hr
    · -- an UNKNOWN row is open, so it is the open order itself
      have hunk : total (fun x => !(x.id == t.id)) (·.filledQty) ((unknownOf (l.rowsOf k)).map Order.accept) = 0 := by
        refine total_eq_zero fun x hx => ?_
        obtain ⟨u, hu, rfl⟩ := List.mem_map.1 hx
        obtain ⟨hu, hust⟩ := mem_unknownOf.1 hu
        obtain ⟨huo, huk⟩ := mem_rowsOf.1 hu
        have := ho.openOrder_eq huo (isOpen_of_unknown hust)
        rw [huk, ht] at this
        cases this
        simp [Order.accept]
      have hperm : total (fun x => !(x.id == t.id)) (·.filledQty) r.live =
          total (fun x => !(x.id == t.id)) (·.filledQty)
            (liveOf (l.rowsOf k) ++ (unknownOf (l.rowsOf k)).map Order.accept) := by
        rw [hl]
        exact (((sortById_perm _).filter _).map _).sum_eq
      rw [hperm, total_append, hunk, add_zero]
    · rw [hl]
  omega

theorem fills_of_resolved {l : Ledger} {now : Time} {k : Key} {broker : Totals} :
    ((l.totalsPlan now k broker).resolved).flatMap Stmt.fills = [] :=
  fills_of_plain fun _ hs => resolved_plain hs

theorem sound_reconcile {st st' : Venue} (h : Sound st) {now : Time} {k : Key} {n : Nat} {ordQty ccldAmt : Int}
    (ht : timely st (.reconcile now k n ordQty ccldAmt))
    (hs : venueStep st (.reconcile now k n ordQty ccldAmt) = some st') :
    Sound st' := by
  simp only [venueStep, Option.some.injEq] at hs
  subst hs
  generalize hbk : st.dayTotals k n ordQty ccldAmt = broker at *
  have hplain : (st.ledger.totalsPlan now k broker).shares = [] →
      ((Call.applyTotals now k broker).stmts st.ledger).flatMap Stmt.fills = [] := by
    intro h0
    rw [Call.stmts, Ledger.applyTotalsStmts, h0, List.flatMap_nil, List.append_nil, fills_of_resolved]
  cases hat : st.ledger.attributes now k broker with
  | false =>
    have hnone : (st.ledger.totalsPlan now k broker).shares = [] := by
      obtain ⟨_, h0⟩ | ⟨base, r, hb, hr, _, h0 | ⟨delta, amtDelta, rfl, hpos, hroom, _⟩⟩ :=
        totalsPlan_cases st.ledger now k broker
      · exact h0
      · exact h0
      · simp only [Ledger.attributes, hb, hr, decide_eq_false_iff_not] at hat
        exact absurd ⟨hpos, hroom⟩ hat
    exact sound_call_plain h (by simp) (by simp) (by simp) (hplain hnone)
  | true =>
    have habs := sound_absorb h k n
    simp only [if_true]
    obtain ⟨_, h0⟩ | ⟨base, r, hb, hr, _, h0 | ⟨delta, amtDelta, hdelta, hpos, hroom, hsh⟩⟩ :=
      totalsPlan_cases st.ledger now k broker
    · exact sound_call_plain habs (by simp) (by simp) (by simp) (hplain h0)
    · exact sound_call_plain habs (by simp) (by simp) (by simp) (hplain h0)
    obtain hnil | ⟨t, o, hopen, hlive, hid, hfilled, hqty, hmem⟩ := openLive_eq h.wf h.oneOpen hr
    · rw [hnil] at hroom
      simp [roomOf] at hroom
      omega
    rw [hlive] at hroom hsh
    have hshares : (st.ledger.totalsPlan now k broker).shares = [⟨o, delta, amtDelta⟩] := by
      have hne : delta ≠ 0 := by omega
      have htake : min (o.qty - o.filledQty) delta = delta := by
        simp only [roomOf, List.map_cons, List.map_nil, List.sum_cons, List.sum_nil] at hroom
        omega
      rw [hsh]
      simp [allocate, hne, htake]
    have hothers := ht (by rw [hbk]; exact hat) t (by simp [hopen]) base (by simp [hb])
    have hsum := sumFilled_live h.wf h.oneOpen hr hopen hmem hid
    have hccld : broker.ccldQty = total (·.order.key == k) (·.qty) (st.execs.take n) := by rw [← hbk]; rfl
    have hsplit := total_split (fun e : Exec => e.order.key == k) (fun e => e.order.owner == some t.clientOrderId)
      (·.qty) (st.execs.take n)
    have hle := @absorbed_le_counted st.ledger k n t.clientOrderId st.execs h.qty_nonneg
    refine sound_call habs (by simp) (by simp) (by simp) fun x hx => ?_
    have hmono : ∀ cid, counted st.ledger cid (absorbFirst k n st.execs) ≤
        counted (st.ledger.call (.applyTotals now k broker)) cid (absorbFirst k n st.execs) := fun cid =>
      counted_mono habs.qty_nonneg fun m hm => execAll_noticeFills_sub hm _
    have hf : fillQty (((Call.applyTotals now k broker).stmts st.ledger).flatMap Stmt.fills) x.id =
        if t.id = x.id then delta else 0 := by
      rw [Call.stmts, Ledger.applyTotalsStmts, hshares, List.flatMap_append, fills_of_resolved]
      simp [Share.stmts, Stmt.fills, fillQty, total_cons, hid]
    show x.filledQty + fillQty (((Call.applyTotals now k broker).stmts st.ledger).flatMap Stmt.fills) x.id ≤
      counted (st.ledger.call (.applyTotals now k broker)) x.clientOrderId (absorbFirst k n st.execs)
    rw [hf]
    have hm := hmono x.clientOrderId
    split
    · rename_i hxid
      obtain rfl := h.wf.eq_of_id (openOrder_some hopen).1 hx hxid
      unfold Venue.ccldOthers at hothers
      omega
    · have hold := habs.booked x hx
      have hold' : x.filledQty ≤ counted st.ledger x.clientOrderId (absorbFirst k n st.execs) := hold
      omega

/-! ## Runs -/

theorem sound_step {st st' : Venue} (h : Sound st) {a : VenueAct} (ht : timely st a) (hs : venueStep st a = some st') :
    Sound st' := by
  cases a with
  | accept bo =>
    simp only [venueStep, Option.ite_none_right_eq_some, Option.some.injEq] at hs
    obtain ⟨⟨hnew, hown⟩, rfl⟩ := hs
    exact sound_accept h hnew hown
  | execute bo qty price time =>
    simp only [venueStep, Option.ite_none_right_eq_some, Option.some.injEq] at hs
    obtain ⟨⟨hbo, hq⟩, rfl⟩ := hs
    exact sound_execute h hbo hq
  | baseline k n ordQty ccldAmt =>
    simp only [venueStep, Option.ite_none_right_eq_some, Option.some.injEq] at hs
    obtain ⟨hnone, rfl⟩ := hs
    exact sound_baseline h n ordQty ccldAmt hnone
  | record now cid k qty price est =>
    simp only [venueStep, Option.ite_none_right_eq_some, Option.some.injEq] at hs
    obtain ⟨hnone, rfl⟩ := hs
    exact sound_record h now cid qty price est hnone
  | mark now id state odno message =>
    simp only [venueStep, Option.ite_none_right_eq_some, Option.some.injEq] at hs
    obtain ⟨⟨r, hr, rfl, hp, hout⟩, rfl⟩ := hs
    exact sound_mark h now state odno message hr hp hout
  | recoverPending now =>
    cases hs
    exact sound_call_plain h (by simp) (by simp) (by simp)
      (fills_of_plain fun s hs => plain_stmts (by simp) (by simp) hs)
  | closeDay now date openBreaks =>
    cases hs
    exact sound_call_plain h (by simp) (by simp) (by simp)
      (fills_of_plain fun s hs => plain_stmts (by simp) (by simp) hs)
  | notice now i date odno =>
    simp only [venueStep] at hs
    cases hi : st.execs[i]? with
    | none => rw [hi] at hs; cases hs
    | some e =>
      simp only [hi, Option.ite_none_right_eq_some, Option.some.injEq] at hs
      obtain ⟨hodno, rfl⟩ := hs
      exact sound_notice h now date odno hi hodno ht
  | reconcile now k n ordQty ccldAmt => exact sound_reconcile h ht hs

theorem Sound.filled_le {st : Venue} (h : Sound st) {r : Order} (hr : r ∈ st.ledger.orders) :
    r.filledQty ≤ st.executedFor r.clientOrderId := by
  refine le_trans (h.booked r hr) (total_mono h.qty_nonneg fun e _ he => ?_)
  simp only [Bool.and_eq_true] at he
  exact he.1

/-- Executions of a key belong to at most one of its rows, and those in the baseline to none. -/
theorem Sound.sumFilled_le {st : Venue} (h : Sound st)
    {k : Key} {base : Totals} (hb : st.ledger.baseline k = some base) :
    sumFilled (st.ledger.rowsOf k) ≤ st.executedIn k - base.ccldQty := by
  have hrows : sumFilled (st.ledger.rowsOf k) ≤
      ((st.ledger.rowsOf k).map fun r => total (·.order.owner == some r.clientOrderId) (·.qty) st.execs).sum :=
    List.sum_le_sum fun r hr => h.filled_le (mem_rowsOf.1 hr).1
  have hswap : ((st.ledger.rowsOf k).map fun r => total (·.order.owner == some r.clientOrderId) (·.qty) st.execs).sum ≤
      total (fun e => (st.ledger.rowsOf k).any fun r => e.order.owner == some r.clientOrderId) (·.qty) st.execs := by
    refine @sum_total_le _ _ (fun (r : Order) (e : Exec) => e.order.owner == some r.clientOrderId) _ _ _ h.qty_nonneg
      fun e _ => ?_
    refine (h.wf.clientIds.sublist List.filter_sublist).imp fun {a b} hab hboth => hab ?_
    simp only [beq_iff_eq] at hboth
    exact Option.some.inj (hboth.1.symm.trans hboth.2)
  have hown : total (fun e => (st.ledger.rowsOf k).any fun r => e.order.owner == some r.clientOrderId)
      (·.qty) st.execs ≤
      total (fun e => e.order.key == k && !e.order.owner.isNone) (·.qty) st.execs := by
    refine total_mono h.qty_nonneg fun e he hany => ?_
    obtain ⟨r, hr, hro⟩ := List.any_eq_true.1 hany
    have hro : e.order.owner = some r.clientOrderId := by simpa using hro
    obtain ⟨hrl, hrk⟩ := mem_rowsOf.1 hr
    obtain ⟨r', hr', hc, hk⟩ := h.owners e.order (h.inBook e he) _ hro
    obtain rfl := h.wf.eq_of_clientOrderId hr' hrl hc
    simp [hro, ← hk, hrk]
  have hsplit := total_split (fun e : Exec => e.order.key == k) (fun e => e.order.owner.isNone) (·.qty) st.execs
  have hbase := h.base k base hb
  unfold Venue.executedIn
  omega

/-- **No execution is counted twice**, where notices and totals are timely: no order is filled beyond what
the broker executed for it, and no key beyond what the broker executed since the baseline. -/
theorem timely_runs_never_overcount {as : List VenueAct} {st : Venue} (h : Run venueStep timely .init as st) :
    (∀ r ∈ st.ledger.orders, r.filledQty ≤ st.executedFor r.clientOrderId) ∧
    ∀ k base, st.ledger.baseline k = some base → sumFilled (st.ledger.rowsOf k) ≤ st.executedIn k - base.ccldQty := by
  have hsound : Sound st := h.invariant sound_init fun s a s' hI hok hs => sound_step hI hok hs
  exact ⟨fun r hr => hsound.filled_le hr, fun k base hb => hsound.sumFilled_le hb⟩

/-- A buy of three in the book, one share of it executed. -/
def oneShareExecuted : List VenueAct :=
  let k : Key := ⟨"20260720", "005930", .buy⟩
  [.baseline k 0 0 0, .record 0 "c1" k 3 100 0, .accept ⟨k, "0000000101", 3, some "c1"⟩,
   .mark 1 1 .accepted (some "0000000101") none, .execute ⟨k, "0000000101", 3, some "c1"⟩ 1 100 "100000"]

def oneShareNotice (now : Time) (odno : String) : VenueAct := .notice now 0 "20260720" odno

def oneShareTotals (now : Time) : VenueAct := .reconcile now ⟨"20260720", "005930", .buy⟩ 1 3 100

/-- The notice twice, under both spellings of its number, then the totals. -/
theorem timely_runs_never_overcount_notice_first : ∃ st, Run venueStep timely .init (oneShareExecuted ++
      [oneShareNotice 2 "101", oneShareNotice 3 "0000000101", oneShareTotals 4]) st ∧
    (∀ r ∈ st.ledger.orders, r.filledQty ≤ st.executedFor r.clientOrderId) ∧
    ∀ k base, st.ledger.baseline k = some base → sumFilled (st.ledger.rowsOf k) ≤ st.executedIn k - base.ccldQty := by
  obtain ⟨st, h⟩ : ∃ st, exec venueStep timely .init (oneShareExecuted ++
      [oneShareNotice 2 "101", oneShareNotice 3 "0000000101", oneShareTotals 4]) = some st :=
    Option.isSome_iff_exists.1 (by decide)
  exact ⟨st, run_of_exec h, timely_runs_never_overcount (run_of_exec h)⟩

/-- The totals first, the notice of the same share after them: one share executed, two booked. -/
theorem late_notice_counts_twice : ∃ st, Run venueStep anyStep .init (oneShareExecuted ++
      [oneShareTotals 2, oneShareNotice 3 "0000000101"]) st ∧
    (∃ r ∈ st.ledger.orders, st.executedFor r.clientOrderId < r.filledQty) ∧
    ∃ k base, st.ledger.baseline k = some base ∧ st.executedIn k - base.ccldQty < sumFilled (st.ledger.rowsOf k) := by
  obtain ⟨st, h⟩ : ∃ st, exec venueStep anyStep .init (oneShareExecuted ++
      [oneShareTotals 2, oneShareNotice 3 "0000000101"]) = some st := Option.isSome_iff_exists.1 (by decide)
  refine ⟨st, run_of_exec h, ?_⟩
  have hst : st = (exec venueStep anyStep .init (oneShareExecuted ++
      [oneShareTotals 2, oneShareNotice 3 "0000000101"])).getD .init := by rw [h]; rfl
  rw [hst]
  exact ⟨by decide, ⟨"20260720", "005930", .buy⟩, ⟨0, 0, 0⟩, by decide⟩

end OrderLedger

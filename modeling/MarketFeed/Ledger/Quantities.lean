import MarketFeed.Ledger.States
import MarketFeed.Ledger.Fills
/-!
# The filled quantity and the state of a row (ledger.py:150-158, :287-335, :375-405)

`st.fits filled qty`: the filled quantities that go with the state `st`. A row is `Coherent` when its
own counters go with its state. Statements that only set a state leave the counters alone, so the
state must already fit (`rowAfter_settles`); an `UPDATE orders` of a fill sets counter and state together
and makes any row of that quantity coherent (`rowAfter_books`). `apply_totals` is a script of the first
kind and then one of the second. No operation needs to run to its end for this (`coherent_cut`).
-/

namespace OrderLedger

open Script

/-- The filled quantities of an order of `qty` in this state. -/
def OrderState.fits (st : OrderState) (filled qty : Int) : Prop :=
  match st with
  | .filled => filled = qty
  | .partlyFilled => 0 < filled ∧ filled < qty
  | .accepted | .expired => 0 ≤ filled ∧ filled < qty
  | .pendingSubmit | .rejected | .unknown | .notSent => filled = 0

instance (st : OrderState) (filled qty : Int) : Decidable (st.fits filled qty) := by
  cases st <;> (unfold OrderState.fits; infer_instance)

structure Order.Coherent (o : Order) : Prop where
  sized : 0 < o.qty
  fits : o.state.fits o.filledQty o.qty

theorem Order.Coherent.bounds {o : Order} (h : o.Coherent) : 0 ≤ o.filledQty ∧ o.filledQty ≤ o.qty := by
  have hq := h.sized
  have hf := h.fits
  cases hst : o.state <;> simp only [hst, OrderState.fits] at hf <;> omega

theorem Order.Coherent.filled_iff {o : Order} (h : o.Coherent) : o.state = .filled ↔ o.filledQty = o.qty := by
  have hq := h.sized
  have hf := h.fits
  cases hst : o.state <;> simp only [hst, OrderState.fits] at hf <;> simp <;> omega

/-- Nothing is executed on an order that is not at the broker. -/
theorem Order.Coherent.unfilled {o : Order} (h : o.Coherent) (hst : o.state ∉ liveStates) : o.filledQty = 0 := by
  have hf := h.fits
  cases hs : o.state <;> simp only [hs, OrderState.fits] at hf <;>
    first | exact hf | exact absurd (by simp [hs, liveStates]) hst

/-- A row that may take fills has room. -/
theorem Order.Coherent.room {o : Order} (h : o.Coherent) (hst : o.state ∈ fillableStates) :
    0 ≤ o.filledQty ∧ o.filledQty < o.qty := by
  have hf := h.fits
  simp only [fillableStates, List.mem_cons, List.not_mem_nil, or_false] at hst
  rcases hst with hst | hst <;> simp only [hst, OrderState.fits] at hf <;> omega

theorem fits_zero {st : OrderState} {qty : Int} (hq : 0 < qty) (hf : st ≠ .filled) (hp : st ≠ .partlyFilled) :
    st.fits 0 qty := by
  cases st <;> simp only [OrderState.fits] <;> first | omega | exact absurd rfl hf | exact absurd rfl hp

/-- The state the code gives a row that now has `filled`. -/
theorem fits_fill {filled qty : Int} (h0 : 0 < filled) (hle : filled ≤ qty) :
    (if filled = qty then OrderState.filled else .partlyFilled).fits filled qty := by
  split
  · rename_i heq
    exact heq
  · show 0 < filled ∧ filled < qty
    omega

/-! ## Scripts on one row -/

/-- The statement books no fill, and a state it gives the row goes with what the row has. -/
def Stmt.settles (r : Order) (s : Stmt) : Prop :=
  (∀ id filled amt st now, s ≠ .updateFill id filled amt st now) ∧
    ∀ st, s.sets = some (r.id, st) → st.fits r.filledQty r.qty

/-- The statement gives the row a state only with the counter that goes with it. -/
def Stmt.books (r : Order) (s : Stmt) : Prop :=
  s.target = some r.id → ∃ filled amt st now, s = .updateFill r.id filled amt st now ∧ st.fits filled r.qty

theorem onRow_settles {r : Order} {s : Stmt} (hs : s.settles r) (hr : r.Coherent) :
    (s.onRow r).Coherent ∧ (s.onRow r).filledQty = r.filledQty := by
  by_cases ht : s.target = some r.id
  · have hfit := hs.2 _ (sets_of_target ht)
    have hsame : (s.onRow r).filledQty = r.filledQty := by
      cases s with
      | updateFill id filled amt st now => exact absurd rfl (hs.1 id filled amt st now)
      | markOrder | setState => simp only [Stmt.onRow]; split <;> rfl
      | _ => rfl
    exact ⟨⟨by simpa using hr.sized, by rw [hsame, onRow_qty]; exact hfit⟩, hsame⟩
  · rw [onRow_of_target_ne ht]
    exact ⟨hr, rfl⟩

theorem rowAfter_settles {r : Order} (hr : r.Coherent) {ss : List Stmt} (hs : ∀ s ∈ ss, s.settles r) :
    (rowAfter ss r).Coherent ∧ (rowAfter ss r).filledQty = r.filledQty := by
  induction ss generalizing r with
  | nil => exact ⟨hr, rfl⟩
  | cons s ss ih =>
    obtain ⟨h1, h2⟩ := onRow_settles (hs s (by simp)) hr
    have hrest : ∀ t ∈ ss, t.settles (s.onRow r) := by
      intro t ht
      obtain ⟨hno, hfit⟩ := hs t (List.mem_cons_of_mem s ht)
      refine ⟨hno, fun st hst => ?_⟩
      rw [h2, onRow_qty]
      exact hfit st (by simpa using hst)
    obtain ⟨h3, h4⟩ := ih h1 hrest
    exact ⟨h3, h4.trans h2⟩

/-- A fill makes the row coherent, whatever it was. -/
theorem onRow_books {r : Order} {s : Stmt} (hs : s.books r) (hr : r.Coherent) : (s.onRow r).Coherent := by
  by_cases ht : s.target = some r.id
  · obtain ⟨filled, amt, st, now, rfl, hfit⟩ := hs ht
    refine ⟨by simpa using hr.sized, ?_⟩
    simpa [Stmt.onRow] using hfit
  · rw [onRow_of_target_ne ht]
    exact hr

theorem rowAfter_books {r : Order} (hr : r.Coherent) {ss : List Stmt} (hs : ∀ s ∈ ss, s.books r) :
    (rowAfter ss r).Coherent := by
  induction ss generalizing r with
  | nil => exact hr
  | cons s ss ih =>
    refine ih (onRow_books (hs s (by simp)) hr) fun t ht htg => ?_
    rw [onRow_id] at htg ⊢
    rw [onRow_qty]
    exact hs t (List.mem_cons_of_mem s ht) htg

/-! ## Per operation -/

theorem settles_event {r : Order} {e : Event} : (Stmt.insertEvent e).settles r :=
  ⟨by simp, by simp [Stmt.sets]⟩

/-- `_set_state` on a row read by the operation. -/
theorem settles_setState {l : Ledger} (hw : Wf l) {o r : Order} (ho : o ∈ l.orders) (hr : r ∈ l.orders)
    {st : OrderState}
    {now : Time} (hfit : st.fits o.filledQty o.qty) : (Stmt.setState o.id st now).settles r := by
  refine ⟨by simp, fun st' h => ?_⟩
  obtain ⟨hid, rfl⟩ : o.id = r.id ∧ st = st' := by simpa [Stmt.sets] using h
  rwa [← hw.eq_of_id ho hr hid]

/-- The statements of a share (ledger.py:299-305). -/
theorem share_books {l : Ledger} (hw : Wf l) (hc : ∀ o ∈ l.orders, o.Coherent) {now : Time} {k : Key} {broker : Totals}
    {sh : Share} (hsh : sh ∈ (l.totalsPlan now k broker).shares) {r : Order} (hr : r ∈ l.orders) {r' : Order}
    (hid : r'.id = r.id) (hq : r'.qty = r.qty) {s : Stmt} (hs : s ∈ sh.stmts now) : s.books r' := by
  intro ht
  simp only [Share.stmts, List.mem_cons, List.not_mem_nil, or_false] at hs
  rcases hs with rfl | rfl | rfl <;> simp only [Stmt.target, reduceCtorEq, Option.some.injEq] at ht
  obtain ⟨⟨o, ho, hoid, hof, hoq, _⟩, hpos, hle⟩ := share_row hsh
  have hor : o = r := hw.eq_of_id (mem_rowsOf.1 ho).1 hr (by rw [hoid, ht, hid])
  have hb := (hc r hr).bounds
  rw [hor] at hof hoq
  refine ⟨_, _, _, _, by rw [← ht], ?_⟩
  rw [hq, hoq]
  exact fits_fill (by omega) (by omega)

/-- An operation that neither inserts nor marks keeps every row coherent, cut anywhere. -/
theorem coherent_cut {l : Ledger} (hw : Wf l) (hc : ∀ o ∈ l.orders, o.Coherent) {c : Call}
    (hm : ∀ now id st odno msg, c ≠ .mark now id st odno msg) (k : Nat) {r : Order} (hr : r ∈ l.orders) :
    (rowAfter ((c.stmts l).take k) r).Coherent := by
  have hsettles : (∀ s ∈ c.stmts l, s.settles r) → (rowAfter ((c.stmts l).take k) r).Coherent := fun h =>
    (rowAfter_settles (hc r hr) fun s hs => h s (List.mem_of_mem_take hs)).1
  have hnone : (∀ s ∈ c.stmts l, s.target = none) → (rowAfter ((c.stmts l).take k) r).Coherent := fun h => by
    rw [rowAfter_of_no_target fun s hs => by simp [h s (List.mem_of_mem_take hs)]]
    exact hc r hr
  cases c with
  | mark now id st odno msg => exact absurd rfl (hm now id st odno msg)
  | newOrder now cid key qty price est =>
    apply hnone
    obtain ⟨_, _, _, h, _⟩ | ⟨_, _, h⟩ :=
      newOrder_cases l now cid key qty price est <;> simp [Call.stmts, h, Stmt.target]
  | setTotalsBaseline key totals => exact hnone (by simp [Call.stmts, setTotalsBaselineStmts, Stmt.target])
  | setHoldingsBaseline now date holdings =>
    refine hnone fun s hs => ?_
    have hi := issues_of_mem hs
    cases s <;> first | rfl | simp [Call.issues] at hi
  | recoverPending now =>
    refine hsettles fun s hs => ?_
    obtain ⟨o, ho, hp, rfl⟩ | ⟨e, rfl⟩ := recoverPending_stmt hs
    · exact settles_setState hw ho hr ((hc o ho).unfilled (by simp [hp, liveStates]))
    · exact settles_event
  | closeDay now date n =>
    refine hsettles fun s hs => ?_
    obtain h0 | ⟨_, _, _, h0⟩ := closeDay_cases l now date n
    · simp [Call.stmts, h0] at hs
    · simp only [Call.stmts, h0, List.mem_append, List.mem_cons, List.not_mem_nil, or_false] at hs
      rcases hs with hs | rfl | rfl
      · obtain ⟨o, ho, hf, rfl⟩ | ⟨e, rfl⟩ := expireStmts_stmt hs
        · have ho := (mem_ordersOf ho).1
          exact settles_setState hw ho hr ((hc o ho).room hf)
        · exact settles_event
      · exact ⟨by simp, by simp [Stmt.sets]⟩
      · exact settles_event
  | applyNotice now date odno qty price key =>
    obtain ⟨o, hby, _, hf, h0, hle, heq⟩ | ⟨_, heq | ⟨e, heq⟩⟩ := applyNotice_cases l now date odno qty price key
    · refine rowAfter_books (hc r hr) fun s hs ht => ?_
      have hs := List.mem_of_mem_take hs
      simp only [Call.stmts, heq, noticeStmts, List.mem_cons, List.not_mem_nil, or_false] at hs
      rcases hs with rfl | rfl | rfl | rfl <;> simp only [Stmt.target, reduceCtorEq, Option.some.injEq] at ht
      obtain rfl := hw.eq_of_id (byOdno_some hby).1 hr ht
      have hb := (hc o hr).bounds
      exact ⟨_, _, _, _, rfl, fits_fill (by omega) (by omega)⟩
    · exact hnone (by simp [Call.stmts, heq])
    · exact hnone (by simp [Call.stmts, heq, Stmt.target])
  | applyTotals now key broker =>
    simp only [Call.stmts, Ledger.applyTotalsStmts, List.take_append]
    rw [rowAfter_append]
    obtain ⟨hres, _⟩ := @rowAfter_settles r (hc r hr) ((l.totalsPlan now key broker).resolved.take k) fun s hs => by
      obtain ⟨o, ho, hu, st, hst, rfl⟩ | ⟨e, rfl⟩ := resolved_stmt (List.mem_of_mem_take hs)
      · have ho := (mem_rowsOf.1 ho).1
        have hzero := (hc o ho).unfilled (by simp [hu, liveStates])
        refine settles_setState hw ho hr ?_
        rw [hzero]
        rcases hst with rfl | rfl <;> exact fits_zero (hc o ho).sized (by simp) (by simp)
      · exact settles_event
    refine rowAfter_books hres fun s hs => ?_
    obtain ⟨sh, hsh, hs⟩ := List.mem_flatMap.1 (List.mem_of_mem_take hs)
    exact share_books hw hc hsh hr (rowAfter_id _ _) (rowAfter_qty _ _) hs

/-- Only `new_order` adds a row. -/
theorem call_row {l : Ledger} {c : Call} (hn : ∀ now cid key q pr e, c ≠ .newOrder now cid key q pr e)
    {k : Nat} {o : Order}
    (ho : o ∈ (l.execAll ((c.stmts l).take k)).orders) : ∃ r ∈ l.orders, rowAfter ((c.stmts l).take k) r = o := by
  rw [execAll_orders fun s hs => stmt_isInsertOrder hn (List.mem_of_mem_take hs)] at ho
  exact List.mem_map.1 ho

theorem coherent_rows {l : Ledger} (hw : Wf l) (hc : ∀ o ∈ l.orders, o.Coherent) {c : Call}
    (hn : ∀ now cid key q pr e, c ≠ .newOrder now cid key q pr e)
    (hm : ∀ now id st odno msg, c ≠ .mark now id st odno msg)
    (k : Nat) : ∀ o ∈ (l.execAll ((c.stmts l).take k)).orders, o.Coherent := by
  intro o ho
  obtain ⟨r, hr, rfl⟩ := call_row hn ho
  exact coherent_cut hw hc hm k hr

/-- `mark` on a row that has no fills. -/
theorem coherent_mark {l : Ledger} (hw : Wf l) (hc : ∀ o ∈ l.orders, o.Coherent) {own : Order} (hown : own ∈ l.orders)
    (hp : own.state = .pendingSubmit) {st : OrderState} (hf : st ≠ .filled) (hpf : st ≠ .partlyFilled) (now : Time)
    (odno message : Option String) (k : Nat) {o : Order}
    (ho : o ∈ (l.execAll ((Call.stmts l (.mark now own.id st odno message)).take k)).orders) : o.Coherent := by
  obtain ⟨r, hr, rfl⟩ := call_row (by simp) ho
  refine (rowAfter_settles (hc r hr) fun s hs => ?_).1
  have hs := List.mem_of_mem_take hs
  simp only [Call.stmts, markStmts, List.mem_cons, List.not_mem_nil, or_false] at hs
  rcases hs with rfl | rfl
  · refine ⟨by simp, fun st' h => ?_⟩
    obtain ⟨hid, rfl⟩ : own.id = r.id ∧ st = st' := by simpa [Stmt.sets] using h
    obtain rfl := hw.eq_of_id hown hr hid
    rw [(hc own hown).unfilled (by simp [hp, liveStates])]
    exact fits_zero (hc own hown).sized hf hpf
  · exact settles_event

/-- A new row has no fills. -/
theorem coherent_newOrder {l : Ledger} (hc : ∀ o ∈ l.orders, o.Coherent) (now : Time) (cid : String)
    (key : Key) {qty : Int}
    (hq : 0 < qty) (price est : Int) (k : Nat) {o : Order}
    (ho : o ∈ (l.execAll ((l.newOrderStmts now cid key qty price est).take k)).orders) : o.Coherent := by
  obtain ⟨_, _, _, h0, _⟩ | ⟨hnew, _, h0⟩ := newOrder_cases l now cid key qty price est
  · rw [h0, List.take_nil] at ho
    exact hc o ho
  rw [h0] at ho
  cases k with
  | zero => exact hc o ho
  | succ k =>
    rw [List.take_succ_cons, execAll_cons, execAll_orders fun s hs => by
      rw [List.mem_singleton.1 (List.mem_of_mem_take hs)]; rfl] at ho
    obtain ⟨r, hr, rfl⟩ := List.mem_map.1 ho
    rw [rowAfter_of_no_target fun s hs => by rw [List.mem_singleton.1 (List.mem_of_mem_take hs)]; simp [Stmt.target]]
    rw [exec_insertOrder hnew] at hr
    rcases List.mem_append.1 hr with hr | hr
    · exact hc r hr
    · rw [List.mem_singleton.1 hr]
      exact ⟨hq, rfl⟩

end OrderLedger

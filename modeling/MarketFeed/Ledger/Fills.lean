import MarketFeed.Lib.Total
import MarketFeed.Ledger.Spec
/-!
# Fill rows and order counters (ledger.py:287-335)

`INSERT INTO fills` and the `UPDATE orders` after it are two statements. `BalancedOn ss r`: the
script `ss` moves the counters of row `r` by exactly the fills it inserts for it. Every operation
does, cut anywhere except right after an `INSERT INTO fills` (`call_balancedOn`), so `Balanced` is
kept (`books_cut`).
-/

namespace OrderLedger

open Script Total

/-! ## Fills and counters -/

/-- `SUM(qty)` over the fills of an order. -/
def fillQty (fs : List Fill) (id : Nat) : Int := total (·.orderId == id) (·.qty) fs

/-- `SUM(amt)` over the fills of an order. -/
def fillAmt (fs : List Fill) (id : Nat) : Int := total (·.orderId == id) (·.amt) fs

/-- Every order's counters are the sums over its fills. -/
def Balanced (l : Ledger) : Prop :=
  ∀ o ∈ l.orders, o.filledQty = fillQty l.fills o.id ∧ o.filledAmt = fillAmt l.fills o.id

instance (l : Ledger) : Decidable (Balanced l) := by unfold Balanced; infer_instance

theorem fillQty_append (fs gs : List Fill) (id : Nat) : fillQty (fs ++ gs) id = fillQty fs id + fillQty gs id :=
  total_append _ _ fs gs

theorem fillAmt_append (fs gs : List Fill) (id : Nat) : fillAmt (fs ++ gs) id = fillAmt fs id + fillAmt gs id :=
  total_append _ _ fs gs

theorem fill_sums_of_other {fs : List Fill} {id : Nat} (h : ∀ f ∈ fs, f.orderId ≠ id) :
    fillQty fs id = 0 ∧ fillAmt fs id = 0 :=
  ⟨total_eq_zero fun f hf => by simpa using h f hf, total_eq_zero fun f hf => by simpa using h f hf⟩

/-- The order whose fills a statement books. -/
def Stmt.booksFor : Stmt → Option Nat
  | .insertFill f => some f.orderId
  | .updateFill id .. => some id
  | _ => none

/-- The script moves the row's counters by the fills it inserts for it. -/
def BalancedOn (ss : List Stmt) (r : Order) : Prop :=
  (rowAfter ss r).filledQty = r.filledQty + fillQty (ss.flatMap Stmt.fills) r.id ∧
  (rowAfter ss r).filledAmt = r.filledAmt + fillAmt (ss.flatMap Stmt.fills) r.id

theorem BalancedOn.append {ss ts : List Stmt} {r : Order} (hs : BalancedOn ss r)
    (ht : BalancedOn ts (rowAfter ss r)) : BalancedOn (ss ++ ts) r := by
  obtain ⟨hs1, hs2⟩ := hs
  obtain ⟨ht1, ht2⟩ := ht
  rw [rowAfter_id] at ht1 ht2
  constructor
  · rw [rowAfter_append, List.flatMap_append, fillQty_append, ht1, hs1]; omega
  · rw [rowAfter_append, List.flatMap_append, fillAmt_append, ht2, hs2]; omega

theorem onRow_filled_of_other {s : Stmt} {r : Order} (h : s.booksFor ≠ some r.id) :
    (s.onRow r).filledQty = r.filledQty ∧ (s.onRow r).filledAmt = r.filledAmt := by
  cases s with
  | updateFill id =>
    have hne : r.id ≠ id := fun he => h (by simp [Stmt.booksFor, he])
    simp [Stmt.onRow, hne]
  | markOrder => simp only [Stmt.onRow]; split <;> exact ⟨rfl, rfl⟩
  | setState => simp only [Stmt.onRow]; split <;> exact ⟨rfl, rfl⟩
  | _ => exact ⟨rfl, rfl⟩

/-- Statements that book nothing for the row leave its counters and its fills alone. -/
theorem balancedOn_of_other {r : Order} :
    ∀ {ss : List Stmt}, (∀ s ∈ ss, s.booksFor ≠ some r.id) → BalancedOn ss r
  | [], _ => by simp [BalancedOn, fillQty, fillAmt]
  | s :: ss, h => by
    have hs := h s (by simp)
    have hone : BalancedOn [s] r := by
      obtain ⟨h1, h2⟩ := onRow_filled_of_other hs
      have hf : ∀ f ∈ [s].flatMap Stmt.fills, f.orderId ≠ r.id := by
        intro f hf he
        cases s <;> simp [Stmt.fills] at hf
        subst hf; exact hs (by simp [Stmt.booksFor, he])
      obtain ⟨h3, h4⟩ := fill_sums_of_other hf
      constructor
      · rw [h3, rowAfter_cons, rowAfter_nil, h1]; omega
      · rw [h4, rowAfter_cons, rowAfter_nil, h2]; omega
    have hrest : BalancedOn ss (rowAfter [s] r) :=
      balancedOn_of_other fun t ht => by rw [rowAfter_id]; exact h t (by simp [ht])
    exact hone.append hrest

/-- `INSERT INTO fills` together with its `UPDATE orders`. -/
theorem balancedOn_pair {r : Order} {f : Fill} {filled amt : Int} {st : OrderState} {now : Time}
    (hf : f.orderId = r.id) (hq : filled = r.filledQty + f.qty) (ha : amt = f.amt) :
    BalancedOn [.insertFill f, .updateFill r.id filled amt st now] r := by
  constructor
  · simp [rowAfter, runScript, Stmt.onRow, Stmt.fills, fillQty, total, hf, hq]
  · simp [rowAfter, runScript, Stmt.onRow, Stmt.fills, fillAmt, total, hf, ha]

/-! ## Cuts that separate no pair -/

def Stmt.isInsertFill : Stmt → Bool
  | .insertFill _ => true
  | _ => false

/-- The last statement is not an `INSERT INTO fills` still waiting for its `UPDATE orders`. -/
def EndsPaired (ss : List Stmt) : Prop := ∀ s ∈ ss.getLast?, s.isInsertFill = false

instance (ss : List Stmt) : Decidable (EndsPaired ss) := by unfold EndsPaired; infer_instance

theorem EndsPaired.append {ss ts : List Stmt} (hs : EndsPaired ss) (ht : EndsPaired ts) :
    EndsPaired (ss ++ ts) := by
  intro s h
  rw [List.getLast?_append] at h
  cases hl : ts.getLast? with
  | none => rw [hl] at h; exact hs s h
  | some t =>
    rw [hl] at h
    cases h
    exact ht _ hl

theorem EndsPaired.right {ss ts : List Stmt} (h : EndsPaired (ss ++ ts)) : EndsPaired ts := by
  intro s hs
  refine h s ?_
  rw [List.getLast?_append, Option.mem_def.1 hs]
  rfl

theorem endsPaired_flatMap {β : Type} {f : β → List Stmt} (hf : ∀ b, EndsPaired (f b)) :
    ∀ bs : List β, EndsPaired (bs.flatMap f)
  | [] => by simp [EndsPaired]
  | b :: bs => by
    rw [List.flatMap_cons]
    exact (hf b).append (endsPaired_flatMap hf bs)

theorem endsPaired_of_plain {ss : List Stmt} (h : ∀ s ∈ ss, s.booksFor = none) : EndsPaired ss := by
  intro s hs
  have := h s (List.mem_of_getLast? hs)
  cases s <;> simp_all [Stmt.booksFor, Stmt.isInsertFill]

/-! ## What each operation books -/

/-- Only reconciliation and notices book fills. -/
theorem plain_stmts {l : Ledger} {c : Call} (ht : ∀ now k b, c ≠ .applyTotals now k b)
    (hn : ∀ now d o q p n, c ≠ .applyNotice now d o q p n) {s : Stmt} (hs : s ∈ c.stmts l) : s.booksFor = none := by
  have hi := issues_of_mem hs
  cases c with
  | applyTotals now k b => exact absurd rfl (ht now k b)
  | applyNotice now d o q p n => exact absurd rfl (hn now d o q p n)
  | _ => cases s <;> first | rfl | cases hi

theorem resolved_plain {l : Ledger} {now : Time} {k : Key} {broker : Totals} {s : Stmt}
    (h : s ∈ (l.totalsPlan now k broker).resolved) : s.booksFor = none := by
  obtain ⟨o, _, _, st, _, rfl⟩ | ⟨e, rfl⟩ := resolved_stmt h <;> rfl

theorem share_booksFor {now : Time} {sh : Share} {s : Stmt} (h : s ∈ sh.stmts now) :
    s.booksFor = some sh.order.id ∨ s.booksFor = none := by
  simp only [Share.stmts, List.mem_cons, List.not_mem_nil, or_false] at h
  rcases h with rfl | rfl | rfl
  · exact .inl rfl
  · exact .inl rfl
  · exact .inr rfl

theorem share_balancedOn {now : Time} {sh : Share} {r : Order} (hr : sh.order.id = r.id →
    sh.order.filledQty = r.filledQty) :
    BalancedOn (sh.stmts now) r := by
  by_cases hid : sh.order.id = r.id
  · have hq := hr hid
    have hpair := @balancedOn_pair r ⟨r.id, sh.take, sh.amt, .dayTotals, now⟩ (r.filledQty + sh.take) sh.amt
      (if r.filledQty + sh.take = sh.order.qty then .filled else .partlyFilled) now rfl rfl rfl
    have := hpair.append (@balancedOn_of_other _ [.insertEvent ⟨now, some r.id, .fill sh.take sh.amt .dayTotals⟩]
      (by simp [Stmt.booksFor]))
    simpa [Share.stmts, hid, hq] using this
  · refine balancedOn_of_other fun s hs => ?_
    rcases share_booksFor hs with h | h <;> rw [h] <;> simp [hid]

/-- A row's shares, cut anywhere but after an `INSERT INTO fills`. -/
theorem shares_balancedOn {now : Time} : ∀ {shs : List Share} {k : Nat} {r : Order},
    (shs.map (·.order.id)).Nodup → (∀ sh ∈ shs, sh.order.id = r.id → sh.order.filledQty = r.filledQty) →
    EndsPaired ((shs.flatMap (Share.stmts now)).take k) → BalancedOn ((shs.flatMap (Share.stmts now)).take k) r
  | [], k, r, _, _, _ => by
    rw [List.flatMap_nil, List.take_nil]
    exact balancedOn_of_other (by simp)
  | sh :: shs, k, r, hn, hr, he => by
    obtain ⟨hnew, hn⟩ := List.nodup_cons.1 hn
    have hone := hr sh (by simp)
    have hstmts : sh.stmts now = [.insertFill ⟨sh.order.id, sh.take, sh.amt, .dayTotals, now⟩,
      .updateFill sh.order.id (sh.order.filledQty + sh.take) sh.amt
        (if sh.order.filledQty + sh.take = sh.order.qty then .filled else .partlyFilled) now,
      .insertEvent ⟨now, some sh.order.id, .fill sh.take sh.amt .dayTotals⟩] := rfl
    match k with
    | 0 => exact balancedOn_of_other (by simp)
    | 1 => simp [hstmts, EndsPaired, Stmt.isInsertFill] at he
    | 2 =>
      rw [List.flatMap_cons, hstmts]
      by_cases hid : sh.order.id = r.id
      · rw [hid]
        exact balancedOn_pair rfl (by rw [hone hid]) rfl
      · exact balancedOn_of_other (by simp [Stmt.booksFor, hid])
    | k + 3 =>
      have hsplit : ((sh :: shs).flatMap (Share.stmts now)).take (k + 3)
          = sh.stmts now ++ (shs.flatMap (Share.stmts now)).take k := by
        rw [List.flatMap_cons, hstmts]; rfl
      rw [hsplit] at he ⊢
      refine (share_balancedOn hone).append (shares_balancedOn hn (fun t ht hid => ?_) he.right)
      rw [rowAfter_id] at hid
      have hne : sh.order.id ≠ r.id := fun h => hnew (List.mem_map.2 ⟨t, ht, hid.trans h.symm⟩)
      have hsame : BalancedOn (sh.stmts now) r := balancedOn_of_other fun s hs => by
        rcases share_booksFor hs with h | h <;> rw [h] <;> simp [hne]
      have hzero : fillQty ((sh.stmts now).flatMap Stmt.fills) r.id = 0 :=
        (fill_sums_of_other (by simp [Share.stmts, Stmt.fills, hne])).1
      rw [hsame.1, hzero, hr t (by simp [ht]) hid]
      omega

/-- The statements issued before the crash book for each row what they insert for it. -/
theorem call_balancedOn {l : Ledger} (hw : Wf l) {c : Call} {k : Nat} (he : EndsPaired ((c.stmts l).take k))
    {r : Order} (hr : r ∈ l.orders) : BalancedOn ((c.stmts l).take k) r := by
  by_cases hplain : ∀ s ∈ c.stmts l, s.booksFor = none
  · exact balancedOn_of_other fun s hs => by rw [hplain s (List.mem_of_mem_take hs)]; simp
  cases c with
  | applyTotals now key broker =>
    simp only [Call.stmts, Ledger.applyTotalsStmts, List.take_append] at he ⊢
    have hres : ∀ s ∈ (l.totalsPlan now key broker).resolved.take k, s.booksFor ≠ some r.id := fun s hs => by
      rw [resolved_plain (List.mem_of_mem_take hs)]; simp
    have hfirst := balancedOn_of_other hres
    refine hfirst.append (shares_balancedOn (shares_ids hw now key broker) (fun sh hsh hid => ?_) he.right)
    obtain ⟨⟨o, ho, hoid, hoq, _⟩, _⟩ := share_row hsh
    have hor : o = r := hw.eq_of_id (mem_rowsOf.1 ho).1 hr (by rw [hoid, hid, rowAfter_id])
    have hzero : fillQty (((l.totalsPlan now key broker).resolved.take k).flatMap Stmt.fills) r.id = 0 := by
      refine (fill_sums_of_other fun f hf hfid => ?_).1
      obtain ⟨s, hs, hfs⟩ := List.mem_flatMap.1 hf
      refine hres s hs ?_
      cases s <;> simp [Stmt.fills] at hfs
      subst hfs; simp [Stmt.booksFor, hfid]
    rw [hfirst.1, hzero, ← hoq, hor]
    omega
  | applyNotice now date odno qty price key =>
    obtain ⟨o, hby, _, _, _, _, heq⟩ | ⟨_, h0 | ⟨e, h1⟩⟩ := applyNotice_cases l now date odno qty price key
    · have ho := (byOdno_some hby).1
      have hpair : BalancedOn [.insertFill ⟨o.id, qty, qty * price, .notice, now⟩,
          .updateFill o.id (o.filledQty + qty) (qty * price)
            (if o.filledQty + qty = o.qty then .filled else .partlyFilled) now] r := by
        by_cases hid : o.id = r.id
        · obtain rfl := hw.eq_of_id ho hr hid
          exact balancedOn_pair rfl rfl rfl
        · exact balancedOn_of_other (by simp [Stmt.booksFor, hid])
      have hkey : BalancedOn [.insertNotice ⟨key, o.id, qty, qty * price, now⟩] r :=
        balancedOn_of_other (by simp [Stmt.booksFor])
      have hev : ∀ r', BalancedOn [.insertEvent ⟨now, some o.id, .fill qty (qty * price) .notice⟩] r' := fun r' =>
        balancedOn_of_other (by simp [Stmt.booksFor])
      simp only [Call.stmts, heq, noticeStmts] at he ⊢
      rcases k with _ | _ | _ | _ | k
      · exact balancedOn_of_other (by simp)
      · exact hkey
      · simp [EndsPaired, Stmt.isInsertFill] at he
      · exact hkey.append hpair
      · have := (hkey.append hpair).append (hev _)
        simpa using this
    · exact absurd (fun s hs => by simp [Call.stmts, h0] at hs) hplain
    · refine absurd (fun s hs => ?_) hplain
      simp only [Call.stmts, h1, List.mem_singleton] at hs
      subst hs; rfl
  | _ => exact absurd (fun s hs => plain_stmts (by simp) (by simp) hs) hplain

/-- Fills are booked on orders of the ledger. -/
theorem call_fills_known {l : Ledger} (hw : Wf l) {c : Call} {f : Fill} (hf : f ∈ (c.stmts l).flatMap Stmt.fills) :
    f.orderId ≤ l.orderSeq := by
  obtain ⟨s, hs, hfs⟩ := List.mem_flatMap.1 hf
  obtain rfl : s = .insertFill f := by cases s <;> simp [Stmt.fills] at hfs; rw [hfs]
  by_cases hplain : ∀ s ∈ c.stmts l, s.booksFor = none
  · have := hplain _ hs
    simp [Stmt.booksFor] at this
  cases c with
  | applyTotals now key broker =>
    rcases List.mem_append.1 hs with hs | hs
    · have := resolved_plain hs
      simp [Stmt.booksFor] at this
    · obtain ⟨sh, hsh, hs⟩ := List.mem_flatMap.1 hs
      obtain ⟨⟨o, ho, hoid, _⟩, _⟩ := share_row hsh
      have hfo : f.orderId = sh.order.id := by
        rcases share_booksFor hs with h | h
        · simpa [Stmt.booksFor] using h
        · simp [Stmt.booksFor] at h
      rw [hfo, ← hoid]
      exact hw.bounded o (mem_rowsOf.1 ho).1
  | applyNotice now date odno qty price key =>
    obtain ⟨o, hby, _, _, _, _, heq⟩ | ⟨_, h0 | ⟨e, h1⟩⟩ := applyNotice_cases l now date odno qty price key
    · have hfo : f.orderId = o.id := by
        simp only [Call.stmts, heq, noticeStmts, List.mem_cons, List.not_mem_nil, or_false] at hs
        rcases hs with hs | hs | hs | hs <;> cases hs
        rfl
      rw [hfo]
      exact hw.bounded o (byOdno_some hby).1
    · simp [Call.stmts, h0] at hs
    · simp [Call.stmts, h1] at hs
  | _ => exact absurd (fun s hs => plain_stmts (by simp) (by simp) hs) hplain

/-- A completed operation leaves no fill row waiting for its counter. -/
theorem call_endsPaired (l : Ledger) (c : Call) : EndsPaired (c.stmts l) := by
  by_cases hplain : ∀ s ∈ c.stmts l, s.booksFor = none
  · exact endsPaired_of_plain hplain
  cases c with
  | applyTotals now k broker =>
    exact (endsPaired_of_plain fun s hs => resolved_plain hs).append
      (endsPaired_flatMap (fun sh => by simp [EndsPaired, Share.stmts, Stmt.isInsertFill]) _)
  | applyNotice now date odno qty price key =>
    obtain ⟨o, _, _, _, _, _, h⟩ | ⟨_, h | ⟨_, h⟩⟩ := applyNotice_cases l now date odno qty price key
    · simp [EndsPaired, Call.stmts, h, noticeStmts, Stmt.isInsertFill]
    · simp [EndsPaired, Call.stmts, h]
    · simp [EndsPaired, Call.stmts, h, Stmt.isInsertFill]
  | _ => exact absurd (fun s hs => plain_stmts (by simp) (by simp) hs) hplain

/-! ## The books across cut operations -/

/-- `Balanced` with what it needs of the rest of the ledger. -/
structure Books (l : Ledger) : Prop where
  wf : Wf l
  known : ∀ f ∈ l.fills, f.orderId ≤ l.orderSeq
  balanced : Balanced l

theorem books_empty : Books .empty :=
  ⟨wf_empty, by simp [Ledger.empty], by simp [Balanced, Ledger.empty]⟩

/-- Scripts without `INSERT INTO orders` act row by row. -/
theorem books_script {l : Ledger} {ss : List Stmt} (h : Books l) (hi : ∀ s ∈ ss, s.isInsertOrder = false)
    (hf : ∀ f ∈ ss.flatMap Stmt.fills, f.orderId ≤ l.orderSeq) (hb : ∀ r ∈ l.orders, BalancedOn ss r) :
    Books (l.execAll ss) := by
  refine ⟨wf_execAll h.wf ss, fun f hf' => ?_, fun o ho => ?_⟩
  · rw [execAll_fills, List.mem_append] at hf'
    rw [execAll_orderSeq hi]
    exact hf'.elim (h.known f) (hf f)
  · rw [execAll_orders hi] at ho
    obtain ⟨r, hr, rfl⟩ := List.mem_map.1 ho
    obtain ⟨h1, h2⟩ := h.balanced r hr
    obtain ⟨h3, h4⟩ := hb r hr
    rw [rowAfter_id, execAll_fills, fillQty_append, fillAmt_append, h3, h4, h1, h2]
    exact ⟨rfl, rfl⟩

/-- A new order has the sequence's next id, so it has no fills yet. -/
theorem books_insertOrder {l : Ledger} (h : Books l) (cid date sym : String) (side : Side) (qty price est : Int)
    (now : Time) : Books (l.exec (.insertOrder cid date sym side qty price est now)) := by
  have hsame : (l.exec (.insertOrder cid date sym side qty price est now)).fills = l.fills :=
    (exec_fills l _).trans (List.append_nil _)
  refine ⟨wf_exec h.wf _, fun f hf => ?_, fun o ho => ?_⟩
  · rw [hsame] at hf
    have := h.known f hf
    simp only [Ledger.exec]
    split
    · exact this
    · show f.orderId ≤ l.orderSeq + 1; omega
  · rw [hsame]
    simp only [Ledger.exec] at ho
    split at ho
    · exact h.balanced o ho
    · rcases List.mem_append.1 ho with ho | ho
      · exact h.balanced o ho
      · obtain rfl := List.mem_singleton.1 ho
        obtain ⟨h1, h2⟩ := @fill_sums_of_other l.fills (l.orderSeq + 1) fun f hf => by
          have := h.known f hf; omega
        exact ⟨h1.symm, h2.symm⟩

/-- **One cut operation.** The books stay balanced unless the cut is right after an `INSERT INTO fills`. -/
theorem books_cut {l : Ledger} (h : Books l) (c : Call) {k : Nat} (he : EndsPaired ((c.stmts l).take k)) :
    Books (l.execAll ((c.stmts l).take k)) := by
  have hfills : ∀ f ∈ ((c.stmts l).take k).flatMap Stmt.fills, f.orderId ≤ l.orderSeq := fun f hf => by
    obtain ⟨s, hs, hfs⟩ := List.mem_flatMap.1 hf
    exact call_fills_known h.wf (List.mem_flatMap.2 ⟨s, List.mem_of_mem_take hs, hfs⟩)
  cases c with
  | newOrder now cid key qty price est =>
    obtain ⟨_, _, _, h0, _⟩ | ⟨_, _, hs⟩ := newOrder_cases l now cid key qty price est
    · simpa [Call.stmts, h0, execAll_nil] using h
    · cases k with
      | zero => exact h
      | succ k =>
        simp only [Call.stmts, hs, List.take_succ_cons, execAll_cons]
        refine books_script (books_insertOrder h ..) (fun s ht => ?_) (fun f hf => ?_) fun r _ =>
          balancedOn_of_other fun s ht => ?_
        · obtain rfl := List.mem_singleton.1 (List.mem_of_mem_take ht); rfl
        · obtain ⟨s, ht, hfs⟩ := List.mem_flatMap.1 hf
          obtain rfl := List.mem_singleton.1 (List.mem_of_mem_take ht)
          simp [Stmt.fills] at hfs
        · obtain rfl := List.mem_singleton.1 (List.mem_of_mem_take ht); simp [Stmt.booksFor]
  | _ =>
    exact books_script h (fun s hs => stmt_isInsertOrder (by simp) (List.mem_of_mem_take hs)) hfills fun r hr =>
      call_balancedOn h.wf he hr

end OrderLedger

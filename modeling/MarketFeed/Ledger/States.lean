import MarketFeed.Ledger.OneOpen
/-!
# The state of a row after a script

`s.sets = some (id, st)`: the statement gives row `id` the state `st`. A script leaves a row as it is or
gives it the state of one of its statements (`rowAfter_cases`), at every cut. Then, per operation, which
row it gives which state: for `apply_totals` this depends on `extra`, what the broker has of the key
beyond the live rows (`applyTotals_sets`), and an UNKNOWN row alone in its key is given one
(`applyTotals_resolves`).
-/

namespace OrderLedger

open Script

/-- The state a statement gives a row. -/
def Stmt.sets : Stmt → Option (Nat × OrderState)
  | .markOrder id st _ _ _ => some (id, st)
  | .setState id st _ => some (id, st)
  | .updateFill id _ _ st _ => some (id, st)
  | _ => none

theorem sets_of_target {s : Stmt} {r : Order} (h : s.target = some r.id) : s.sets = some (r.id, (s.onRow r).state) := by
  cases s with
  | markOrder | setState | updateFill => cases h; simp [Stmt.sets, Stmt.onRow]
  | _ => cases h

theorem rowAfter_cases : ∀ (ss : List Stmt) (r : Order),
    ((∀ s ∈ ss, s.target ≠ some r.id) ∧ rowAfter ss r = r) ∨ ∃ s ∈ ss, s.sets = some (r.id, (rowAfter ss r).state)
  | [], r => .inl ⟨by simp, rfl⟩
  | s :: ss, r => by
    rw [rowAfter_cons]
    obtain ⟨hno, hsame⟩ | ⟨t, ht, hset⟩ := rowAfter_cases ss (s.onRow r)
    · rw [hsame]
      by_cases hs : s.target = some r.id
      · exact .inr ⟨s, by simp, sets_of_target hs⟩
      · refine .inl ⟨fun t ht => ?_, onRow_of_target_ne hs⟩
        rcases List.mem_cons.1 ht with rfl | ht
        · exact hs
        · simpa using hno t ht
    · exact .inr ⟨t, List.mem_cons_of_mem s ht, by simpa using hset⟩

@[simp] theorem onRow_qty (s : Stmt) (r : Order) : (s.onRow r).qty = r.qty := by
  cases s <;> simp only [Stmt.onRow] <;> split <;> rfl

@[simp] theorem onRow_createdTs (s : Stmt) (r : Order) : (s.onRow r).createdTs = r.createdTs := by
  cases s <;> simp only [Stmt.onRow] <;> split <;> rfl

@[simp] theorem onRow_estPrice (s : Stmt) (r : Order) : (s.onRow r).estPrice = r.estPrice := by
  cases s <;> simp only [Stmt.onRow] <;> split <;> rfl

@[simp] theorem rowAfter_qty (ss : List Stmt) (r : Order) : (rowAfter ss r).qty = r.qty :=
  runScript_frame (·.qty) fun r s _ => onRow_qty s r

@[simp] theorem rowAfter_estPrice (ss : List Stmt) (r : Order) : (rowAfter ss r).estPrice = r.estPrice :=
  runScript_frame (·.estPrice) fun r s _ => onRow_estPrice s r

@[simp] theorem rowAfter_createdTs (ss : List Stmt) (r : Order) : (rowAfter ss r).createdTs = r.createdTs :=
  runScript_frame (·.createdTs) fun r s _ => onRow_createdTs s r

/-! ## Per operation -/

theorem recoverPending_sets {l : Ledger} {now : Time} {s : Stmt} (hs : s ∈ l.recoverPendingStmts now) {id : Nat}
    {st : OrderState} (h : s.sets = some (id, st)) :
    ∃ r ∈ l.orders, r.id = id ∧ r.state = .pendingSubmit ∧ st = .unknown := by
  obtain ⟨o, ho, hp, rfl⟩ | ⟨e, rfl⟩ := recoverPending_stmt hs
  · cases h; exact ⟨o, ho, rfl, hp, rfl⟩
  · cases h

theorem applyNotice_sets {l : Ledger} {now : Time} {date odno : String} {qty price : Int} {key : String} {s : Stmt}
    (hs : s ∈ (l.applyNotice now date odno qty price key).1) {id : Nat} {st : OrderState} (h : s.sets = some (id, st)) :
    ∃ r ∈ l.orders, r.id = id ∧ r.state ∈ fillableStates ∧ st ∈ liveStates := by
  obtain ⟨o, hby, _, hf, _, _, heq⟩ | ⟨_, heq | ⟨e, heq⟩⟩ := applyNotice_cases l now date odno qty price key
  · simp only [heq, noticeStmts, List.mem_cons, List.not_mem_nil, or_false] at hs
    rcases hs with rfl | rfl | rfl | rfl <;> cases h
    refine ⟨o, (byOdno_some hby).1, rfl, hf, ?_⟩
    split <;> simp [liveStates]
  · simp [heq] at hs
  · simp only [heq, List.mem_singleton] at hs
    subst hs
    cases h

theorem closeDay_sets {l : Ledger} {now : Time} {date : String} {n : Nat} {s : Stmt}
    (hs : s ∈ (l.closeDay now date n).1) {id : Nat} {st : OrderState} (h : s.sets = some (id, st)) :
    ∃ r ∈ l.orders, r.id = id ∧ r.state ∈ fillableStates ∧ st ∈ liveStates := by
  obtain heq | ⟨_, _, _, heq⟩ := closeDay_cases l now date n
  · simp [heq] at hs
  · simp only [heq, List.mem_append, List.mem_cons, List.not_mem_nil, or_false] at hs
    rcases hs with hs | rfl | rfl
    · obtain ⟨o, ho, hf, rfl⟩ | ⟨e, rfl⟩ := expireStmts_stmt hs
      · cases h
        exact ⟨o, (mem_ordersOf ho).1, rfl, hf, by simp [liveStates]⟩
      · cases h
    · cases h
    · cases h

/-! ## `apply_totals` -/

/-- `extra` of `_apply_totals`: the broker's ordered quantity beyond the live rows. -/
def Ledger.extra (l : Ledger) (k : Key) (base broker : Totals) : Int :=
  broker.ordQty - base.ordQty - sumQty (liveOf (l.rowsOf k))

theorem live_of_fillable {st : OrderState} (h : st ∈ fillableStates) : st ∈ liveStates := by
  simp only [fillableStates, List.mem_cons, List.not_mem_nil, or_false] at h
  rcases h with rfl | rfl <;> simp [liveStates]

theorem applyTotals_sets {l : Ledger} {now : Time} {k : Key} {base broker : Totals} (hb : l.baseline k = some base)
    {s : Stmt} (hs : s ∈ l.applyTotalsStmts now k broker) {id : Nat} {st : OrderState} (h : s.sets = some (id, st)) :
    ∃ r ∈ l.rowsOf k, r.id = id ∧
      ((r.state ∈ fillableStates ∧ st ∈ liveStates) ∨
        (r.state = .unknown ∧ 0 < l.extra k base broker ∧ st ∈ liveStates) ∨
        (r.state = .unknown ∧ l.extra k base broker ≤ 0 ∧ st = .notSent)) := by
  obtain ⟨h0, h1⟩ | ⟨base', res, hb', hres, hstmts, hshares⟩ := totalsPlan_cases l now k broker
  · simp [Ledger.applyTotalsStmts, h0, h1] at hs
  obtain rfl : base = base' := Option.some.inj (hb.symm.trans hb')
  rcases List.mem_append.1 hs with hs | hs
  · rw [hstmts] at hs
    obtain ⟨hpos, _, _, heq⟩ | ⟨hneg, _, heq⟩ := resolve_cases hres
    · simp only [heq, List.mem_flatMap, List.mem_cons, List.not_mem_nil, or_false, mem_unknownOf] at hs
      obtain ⟨o, ⟨ho, hu⟩, rfl | rfl⟩ := hs
      · cases h
        exact ⟨o, ho, rfl, .inr (.inl ⟨hu, hpos, by simp [liveStates]⟩)⟩
      · cases h
    · simp only [heq, List.mem_flatMap, List.mem_cons, List.not_mem_nil, or_false, List.mem_filter, mem_unknownOf] at hs
      obtain ⟨o, ⟨⟨ho, hu⟩, _⟩, rfl | rfl⟩ := hs
      · cases h
        exact ⟨o, ho, rfl, .inr (.inr ⟨hu, hneg, rfl⟩)⟩
      · cases h
  · -- a share goes to a live row, or to an UNKNOWN one just accepted
    obtain ⟨sh, hsh, hs⟩ := List.mem_flatMap.1 hs
    have hset : id = sh.order.id ∧ st ∈ liveStates := by
      simp only [Share.stmts, List.mem_cons, List.not_mem_nil, or_false] at hs
      rcases hs with rfl | rfl | rfl <;> cases h
      refine ⟨rfl, ?_⟩
      split <;> simp [liveStates]
    obtain ⟨rfl, hst⟩ := hset
    obtain h0 | ⟨delta, amtDelta, _, _, _, heq⟩ := hshares
    · simp [h0] at hsh
    rw [heq] at hsh
    obtain ⟨hlive, hfill, _⟩ := mem_openLiveOf.1 (allocate_orders.subset (List.mem_map_of_mem hsh))
    obtain ⟨hpos, _, hl, _⟩ | ⟨_, hl, _⟩ := resolve_cases hres
    · rw [hl, (sortById_perm _).mem_iff, List.mem_append] at hlive
      rcases hlive with hlive | hlive
      · exact ⟨sh.order, (mem_liveOf.1 hlive).1, rfl, .inl ⟨hfill, hst⟩⟩
      · obtain ⟨u, hu, heq⟩ := List.mem_map.1 hlive
        obtain ⟨hrow, hunk⟩ := mem_unknownOf.1 hu
        exact ⟨u, hrow, by rw [← heq]; rfl, .inr (.inl ⟨hunk, hpos, hst⟩)⟩
    · rw [hl] at hlive
      exact ⟨sh.order, (mem_liveOf.1 hlive).1, rfl, .inl ⟨hfill, hst⟩⟩

/-- The one UNKNOWN row of a key is given a state: the broker has exactly it, or has nothing more and the
grace time is over. -/
theorem applyTotals_resolves {l : Ledger} {now : Time} {k : Key} {base broker : Totals} (hb : l.baseline k = some base)
    {u : Order} (hu : unknownOf (l.rowsOf k) = [u])
    (hextra : (0 < u.qty ∧ l.extra k base broker = u.qty) ∨
      (l.extra k base broker ≤ 0 ∧ unknownGrace < now - u.createdTs)) :
    ∃ s ∈ l.applyTotalsStmts now k broker, s.target = some u.id := by
  have hplan : ∀ r, resolve now k (broker.ordQty - base.ordQty) broker.ordQty (l.rowsOf k) = .ok r →
      (l.totalsPlan now k broker).resolved = r.stmts := by
    intro r hr
    simp only [Ledger.totalsPlan, hb, hr]
  rcases hextra with ⟨hpos, hq⟩ | ⟨hle, hgrace⟩
  · refine ⟨.setState u.id .accepted now, List.mem_append_left _ ?_, rfl⟩
    rw [hplan _ (by
      simp only [Ledger.extra] at hq
      simp only [resolve, hu, hq]
      rw [if_pos hpos, if_pos ⟨by simp, by simp [sumQty]⟩])]
    simp
  · refine ⟨.setState u.id .notSent now, List.mem_append_left _ ?_, rfl⟩
    rw [hplan _ (by
      simp only [Ledger.extra] at hle
      simp only [resolve, hu]
      rw [if_neg (by omega)])]
    simp [hgrace]

/-! ## The baselines -/

theorem baseline_isSome {l : Ledger} {k : Key} : (l.baseline k).isSome = true ↔ ∃ e ∈ l.totalsBaseline, e.1 = k := by
  simp [Ledger.baseline]

theorem baseline_mem {l : Ledger} {k : Key} {base : Totals} (h : l.baseline k = some base) :
    (k, base) ∈ l.totalsBaseline := by
  obtain ⟨e, he, rfl⟩ := Option.map_eq_some_iff.1 h
  have hk : e.1 = k := by simpa using List.find?_some he
  rw [← hk]
  exact List.mem_of_find?_eq_some he

/-- A baseline is written once, for a key that has none. -/
theorem exec_totalsBaseline_cases (l : Ledger) (s : Stmt) :
    (l.exec s).totalsBaseline = l.totalsBaseline ∨
      ∃ k t, s = .insertTotalsBaseline k t ∧ l.baseline k = none ∧
      (l.exec s).totalsBaseline = l.totalsBaseline ++ [(k, t)] := by
  by_cases h : ∃ k t, s = .insertTotalsBaseline k t
  · obtain ⟨k, t, rfl⟩ := h
    simp only [Ledger.exec]
    split
    · exact .inl rfl
    · rename_i hany
      refine .inr ⟨k, t, rfl, ?_, rfl⟩
      by_contra hb
      obtain ⟨e, he, hk⟩ := baseline_isSome.1 (Option.isSome_iff_ne_none.2 hb)
      exact hany (List.any_eq_true.2 ⟨e, he, by simpa using hk⟩)
  · exact .inl (exec_totalsBaseline fun k t he => h ⟨k, t, he⟩)

theorem execAll_totalsBaseline_sub {l : Ledger} {e : Key × Totals} (he : e ∈ l.totalsBaseline) (ss : List Stmt) :
    e ∈ (l.execAll ss).totalsBaseline := by
  refine runScript_invariant (I := fun l : Ledger => e ∈ l.totalsBaseline) he fun l s _ h => ?_
  obtain heq | ⟨k, t, _, _, heq⟩ := exec_totalsBaseline_cases l s
  · rwa [heq]
  · rw [heq]
    exact List.mem_append_left _ h

theorem baseline_isSome_execAll {l : Ledger} {k : Key} (h : (l.baseline k).isSome = true) (ss : List Stmt) :
    ((l.execAll ss).baseline k).isSome = true := by
  obtain ⟨e, he, hk⟩ := baseline_isSome.1 h
  exact baseline_isSome.2 ⟨e, execAll_totalsBaseline_sub he ss, hk⟩

theorem baseline_isSome_insert (l : Ledger) (k : Key) (t : Totals) :
    ((l.exec (.insertTotalsBaseline k t)).baseline k).isSome = true := by
  simp only [Ledger.exec]
  split
  · rename_i hany
    obtain ⟨e, he, hk⟩ := List.any_eq_true.1 hany
    exact baseline_isSome.2 ⟨e, he, by simpa using hk⟩
  · exact baseline_isSome.2 ⟨(k, t), List.mem_append_right _ (by simp), rfl⟩

/-- Where a baseline comes from. -/
theorem mem_execAll_totalsBaseline {l : Ledger} {ss : List Stmt} {e : Key × Totals}
    (he : e ∈ (l.execAll ss).totalsBaseline) :
    e ∈ l.totalsBaseline ∨ (.insertTotalsBaseline e.1 e.2 ∈ ss ∧ l.baseline e.1 = none) := by
  induction ss generalizing l with
  | nil => exact .inl he
  | cons s ss ih =>
    rw [execAll_cons] at he
    obtain hin | ⟨hin, hnone⟩ := ih he
    · obtain heq | ⟨k, t, rfl, hnone, heq⟩ := exec_totalsBaseline_cases l s
      · rw [heq] at hin
        exact .inl hin
      · rw [heq, List.mem_append, List.mem_singleton] at hin
        rcases hin with hin | rfl
        · exact .inl hin
        · exact .inr ⟨by simp, hnone⟩
    · refine .inr ⟨List.mem_cons_of_mem s hin, ?_⟩
      cases hb : l.baseline e.1 with
      | none => rfl
      | some base =>
        have hsome := @baseline_isSome_execAll l e.1 (by simp [hb]) [s]
        rw [show (l.execAll [s]).baseline e.1 = none from hnone] at hsome
        cases hsome

end OrderLedger

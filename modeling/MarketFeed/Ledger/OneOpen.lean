import MarketFeed.Ledger.Spec
/-!
# One open order per key (ledger.py rule 4)

The ledger does not enforce the rule, its callers do; what the ledger guarantees is that a closed
row is final. Every statement that updates a row updates one that was open when the operation read
it (`call_targetsOpen`), so an operation can close rows but never open one, and only `new_order`
adds an open row.
-/

namespace OrderLedger

open Script

/-- No key has two open orders. -/
def OneOpen (l : Ledger) : Prop :=
  ∀ a ∈ l.orders, ∀ b ∈ l.orders, a.key = b.key → a.isOpen = true → b.isOpen = true → a = b

/-- The rows a script updates satisfy `P` in `l`. -/
def Targets (P : Order → Prop) (l : Ledger) (ss : List Stmt) : Prop :=
  ∀ s ∈ ss, ∀ id, s.target = some id → ∃ r ∈ l.orders, r.id = id ∧ P r

abbrev TargetsOpen (l : Ledger) (ss : List Stmt) : Prop := Targets (fun r => r.isOpen = true) l ss

/-- At the broker, or perhaps at the broker: what reconciliation and notices may still change. -/
def Order.unsettled (r : Order) : Prop := r.state ∈ fillableStates ∨ r.state = .unknown

theorem isOpen_of_fillable {o : Order} (h : o.state ∈ fillableStates) : o.isOpen = true := by
  simp only [fillableStates, List.mem_cons, List.not_mem_nil, or_false] at h
  rcases h with h | h <;> simp [Order.isOpen, openStates, h]

theorem isOpen_of_unknown {o : Order} (h : o.state = .unknown) : o.isOpen = true := by
  simp [Order.isOpen, openStates, h]

theorem isOpen_of_pendingSubmit {o : Order} (h : o.state = .pendingSubmit) : o.isOpen = true := by
  simp [Order.isOpen, openStates, h]

theorem isOpen_of_unsettled {o : Order} (h : o.unsettled) : o.isOpen = true :=
  h.elim isOpen_of_fillable isOpen_of_unknown

theorem openOrder_none {l : Ledger} {k : Key} (h : l.openOrder k = none) {r : Order} (hr : r ∈ l.orders)
    (hk : r.key = k) : r.isOpen = false := by
  have := List.find?_eq_none.1 h r (mem_rowsOf.2 ⟨hr, hk⟩)
  simpa using this

theorem openOrder_none_of {l : Ledger} {k : Key} (h : ∀ r ∈ l.orders, r.key = k → r.isOpen = false) :
    l.openOrder k = none := by
  refine List.find?_eq_none.2 fun r hr => ?_
  obtain ⟨hr, hk⟩ := mem_rowsOf.1 hr
  simp [h r hr hk]

theorem openOrder_some {l : Ledger} {k : Key} {r : Order} (h : l.openOrder k = some r) :
    r ∈ l.orders ∧ r.key = k ∧ r.isOpen = true := by
  have hm := mem_rowsOf.1 (List.mem_of_find?_eq_some h)
  exact ⟨hm.1, hm.2, by simpa using List.find?_some h⟩

/-- With one open order per key, any open row is the one `open_order` finds. -/
theorem OneOpen.openOrder_eq {l : Ledger} (h : OneOpen l) {r : Order} (hr : r ∈ l.orders) (ho : r.isOpen = true) :
    l.openOrder r.key = some r := by
  cases hf : l.openOrder r.key with
  | none => rw [openOrder_none hf hr rfl] at ho; cases ho
  | some t =>
    obtain ⟨ht, hk, hto⟩ := openOrder_some hf
    rw [h t ht r hr hk hto ho]

/-- The property as a count of rows. -/
theorem OneOpen.count {l : Ledger} (hw : Wf l) (h : OneOpen l) (k : Key) :
    ((l.rowsOf k).filter (·.isOpen)).length ≤ 1 := by
  have hn : ((l.rowsOf k).filter (·.isOpen)).Nodup := (List.Nodup.of_map _ (hw.rowsOf_ids k)).filter _
  match hl : (l.rowsOf k).filter (·.isOpen) with
  | [] => simp [hl]
  | [a] => simp [hl]
  | a :: b :: rest =>
    have ha : a ∈ (l.rowsOf k).filter (·.isOpen) := by simp [hl]
    have hb : b ∈ (l.rowsOf k).filter (·.isOpen) := by simp [hl]
    obtain ⟨ha, hao⟩ := List.mem_filter.1 ha
    obtain ⟨hb, hbo⟩ := List.mem_filter.1 hb
    obtain ⟨ha, hak⟩ := mem_rowsOf.1 ha
    obtain ⟨hb, hbk⟩ := mem_rowsOf.1 hb
    have hab := h a ha b hb (hak.trans hbk.symm) hao hbo
    rw [hl, hab] at hn
    simp at hn

/-! ## Scripts -/

/-- A row that is none of the targets' kind stays as it is. -/
theorem rowAfter_of_not {P : Order → Prop} {l : Ledger} (hw : Wf l) {ss : List Stmt} (ht : Targets P l ss) {r : Order}
    (hr : r ∈ l.orders) (hn : ¬ P r) : rowAfter ss r = r := by
  refine rowAfter_of_no_target fun s hs htg => ?_
  obtain ⟨t, htl, hid, hp⟩ := ht s hs r.id htg
  rw [hw.eq_of_id htl hr hid] at hp
  exact hn hp

/-- An operation that inserts no order opens none. -/
theorem oneOpen_script {l : Ledger} (hw : Wf l) (h : OneOpen l) {ss : List Stmt}
    (hi : ∀ s ∈ ss, s.isInsertOrder = false) (ht : TargetsOpen l ss) : OneOpen (l.execAll ss) := by
  have hopen : ∀ r ∈ l.orders, (rowAfter ss r).isOpen = true → r.isOpen = true := by
    intro r hr ho
    by_contra hc
    rw [rowAfter_of_not hw ht hr hc] at ho
    exact hc ho
  intro a ha b hb hk hao hbo
  rw [execAll_orders hi] at ha hb
  obtain ⟨x, hx, rfl⟩ := List.mem_map.1 ha
  obtain ⟨y, hy, rfl⟩ := List.mem_map.1 hb
  rw [rowAfter_key, rowAfter_key] at hk
  rw [h x hx y hy hk (hopen x hx hao) (hopen y hy hbo)]

/-- … and a key without an open order stays without one. -/
theorem openOrder_none_script {l : Ledger} (hw : Wf l) {k : Key} (h : l.openOrder k = none) {ss : List Stmt}
    (hi : ∀ s ∈ ss, s.isInsertOrder = false) (ht : TargetsOpen l ss) : (l.execAll ss).openOrder k = none := by
  refine openOrder_none_of fun r hr hk => ?_
  rw [execAll_orders hi] at hr
  obtain ⟨x, hx, rfl⟩ := List.mem_map.1 hr
  rw [rowAfter_key] at hk
  have hc := openOrder_none h hx hk
  rw [rowAfter_of_not hw ht hx (by simp [hc])]
  exact hc

/-- One more row, of a key with no open order. -/
theorem oneOpen_append {l l' : Ledger} (h : OneOpen l) {r : Order} (ho : l'.orders = l.orders ++ [r])
    (hnone : l.openOrder r.key = none) : OneOpen l' := by
  intro a ha b hb hk hao hbo
  rw [ho] at ha hb
  rcases List.mem_append.1 ha with hal | hal <;> rcases List.mem_append.1 hb with hbl | hbl
  · exact h a hal b hbl hk hao hbo
  · obtain rfl := List.mem_singleton.1 hbl
    rw [openOrder_none hnone hal hk] at hao
    cases hao
  · obtain rfl := List.mem_singleton.1 hal
    rw [openOrder_none hnone hbl hk.symm] at hbo
    cases hbo
  · rw [List.mem_singleton.1 hal, List.mem_singleton.1 hbl]

/-! ## What the operations update -/

theorem targets_of_none {P : Order → Prop} {l : Ledger} {ss : List Stmt} (h : ∀ s ∈ ss, s.target = none) :
    Targets P l ss := by
  intro s hs id hid
  rw [h s hs] at hid
  cases hid

theorem Targets.take {P : Order → Prop} {l : Ledger} {ss : List Stmt} (h : Targets P l ss) (k : Nat) :
    Targets P l (ss.take k) := fun s hs => h s (List.mem_of_mem_take hs)

theorem Targets.mono {P Q : Order → Prop} {l : Ledger} {ss : List Stmt} (hpq : ∀ r, P r → Q r) (h : Targets P l ss) :
    Targets Q l ss := by
  intro s hs id hid
  obtain ⟨r, hr, hrid, hp⟩ := h s hs id hid
  exact ⟨r, hr, hrid, hpq r hp⟩

theorem mark_targets {l : Ledger} {r : Order} (hr : r ∈ l.orders) (now : Time) (state : OrderState)
    (odno message : Option String) : Targets (· = r) l (markStmts now r.id state odno message) := by
  intro s hs id hid
  simp only [markStmts, List.mem_cons, List.not_mem_nil, or_false] at hs
  rcases hs with rfl | rfl
  · cases hid; exact ⟨r, hr, rfl, rfl⟩
  · cases hid

theorem recoverPending_targets (l : Ledger) (now : Time) :
    Targets (fun r => r.state = .pendingSubmit) l (l.recoverPendingStmts now) := by
  intro s hs id hid
  obtain ⟨o, ho, hp, rfl⟩ | ⟨e, rfl⟩ := recoverPending_stmt hs
  · cases hid; exact ⟨o, ho, rfl, hp⟩
  · cases hid

/-- Apart from `mark`, whose caller names the row, and `recover_pending`, an operation updates unsettled
rows only. -/
theorem call_targets (l : Ledger) {c : Call} (hm : ∀ now id st odno msg, c ≠ .mark now id st odno msg)
    (hr : ∀ now, c ≠ .recoverPending now) : Targets Order.unsettled l (c.stmts l) := by
  cases c with
  | mark now id st odno msg => exact absurd rfl (hm now id st odno msg)
  | recoverPending now => exact absurd rfl (hr now)
  | newOrder now cid k qty price est =>
    obtain ⟨_, _, _, h, _⟩ | ⟨_, _, h⟩ := newOrder_cases l now cid k qty price est
    · exact targets_of_none (by simp [Call.stmts, h])
    · exact targets_of_none (by simp [Call.stmts, h, Stmt.target])
  | setTotalsBaseline k totals => exact targets_of_none (by simp [Call.stmts, setTotalsBaselineStmts, Stmt.target])
  | setHoldingsBaseline now date holdings =>
    refine targets_of_none fun s hs => ?_
    have hi := issues_of_mem hs
    cases s <;> first | rfl | simp [Call.issues] at hi
  | applyTotals now k broker =>
    intro s hs id hid
    rcases List.mem_append.1 hs with hs | hs
    · obtain ⟨o, ho, hu, _, _, rfl⟩ | ⟨e, rfl⟩ := resolved_stmt hs
      · cases hid; exact ⟨o, (mem_rowsOf.1 ho).1, rfl, .inr hu⟩
      · cases hid
    · obtain ⟨sh, hsh, hs⟩ := List.mem_flatMap.1 hs
      obtain ⟨⟨r, hr, hrid, _, _, hst⟩, _⟩ := share_row hsh
      have hid' : id = sh.order.id := by
        simp only [Share.stmts, List.mem_cons, List.not_mem_nil, or_false] at hs
        rcases hs with rfl | rfl | rfl <;> cases hid
        rfl
      exact ⟨r, (mem_rowsOf.1 hr).1, hrid.trans hid'.symm, hst⟩
  | applyNotice now date odno qty price key =>
    obtain ⟨o, hby, _, hf, _, _, h⟩ | ⟨_, h | ⟨_, h⟩⟩ := applyNotice_cases l now date odno qty price key
    · intro s hs id hid
      simp only [Call.stmts, h, noticeStmts, List.mem_cons, List.not_mem_nil, or_false] at hs
      rcases hs with rfl | rfl | rfl | rfl <;> cases hid
      exact ⟨o, (byOdno_some hby).1, rfl, .inl hf⟩
    · exact targets_of_none (by simp [Call.stmts, h])
    · exact targets_of_none (by simp [Call.stmts, h, Stmt.target])
  | closeDay now date n =>
    obtain h | ⟨_, _, _, h⟩ := closeDay_cases l now date n
    · exact targets_of_none (by simp [Call.stmts, h])
    · intro s hs id hid
      simp only [Call.stmts, h, List.mem_append, List.mem_cons, List.not_mem_nil, or_false] at hs
      rcases hs with hs | rfl | rfl
      · obtain ⟨o, ho, hf, rfl⟩ | ⟨e, rfl⟩ := expireStmts_stmt hs
        · cases hid; exact ⟨o, (mem_ordersOf ho).1, rfl, .inl hf⟩
        · cases hid
      · cases hid
      · cases hid

theorem call_targetsOpen (l : Ledger) {c : Call} (hm : ∀ now id st odno msg, c ≠ .mark now id st odno msg) :
    TargetsOpen l (c.stmts l) := by
  cases c with
  | recoverPending now => exact (recoverPending_targets l now).mono fun _ => isOpen_of_pendingSubmit
  | mark now id st odno msg => exact absurd rfl (hm now id st odno msg)
  | _ => exact (call_targets l (by simp) (by simp)).mono fun _ => isOpen_of_unsettled

end OrderLedger

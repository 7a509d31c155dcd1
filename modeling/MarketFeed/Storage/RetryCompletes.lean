import MarketFeed.Storage.OnceStored
/-!
# A retry completes (storage/db.py:768-813)

Wherever a run has led, once no other transaction is open a session that calls `write_batch` and meets no fault gets its
receipt, and the batch is stored by then, by this call or by one before it (`retry_completes`). The rows have to fit
their columns, and so do the counts of the bars they are added to (`runnable`).
-/

namespace Storage.Postgres

open Rowlock Keyed Lts

variable {S F : Type} [Max F] [Min F] [Add F]

/-- The columns take the row. -/
def stmtFits : Stmt F → Bool
  | .receipt _ => false
  | .trade r => fits tradesColumns r.cells
  | .latest r => fits latestColumns r.cells
  | .book r => fits bookColumns r.cells
  | .signal r => fits signalsColumns r.cells
  | .bar r => fits barsColumns r.cells

/-- The columns take the rows, and the bars that they make of those in `c`. -/
def runnable (c : String × String × ℤ → Option (BarRow F)) : List (Stmt F) → Bool
  | [] => true
  | .bar r :: ss =>
    fits barsColumns r.cells && (put BarRow.merge (c r.key) r).all (fun m => fits barsColumns m.cells) &&
      runnable (Function.update c r.key (put BarRow.merge (c r.key) r)) ss
  | x :: ss => stmtFits x && runnable c ss

/-- A step of the session without a fault. -/
def Act.plain (s : S) : Act S F → Prop
  | .call s' _ _ | .select s' | .claim s' | .settle s' | .write s' => s' = s
  | .commit s' acked => s' = s ∧ acked = true
  | .rollback _ | .crash _ => False

/-- No other session has anything pending. -/
structure Alone (d : Server S F) (s : S) : Prop where
  latest : ∀ k s' v, d.latest.pending k = some (s', v) → s' = s
  bars : ∀ k s' v, d.bars.pending k = some (s', v) → s' = s
  receipts : ∀ k s' v, d.receipts.pending k = some (s', v) → s' = s

section

variable [DecidableEq S] {w : World S F} {d : Server S F} {s : S} {b : StorageBatch F} {at_ : String}

omit [Max F] [Min F] [Add F] [DecidableEq S] in
theorem set_alone {K V : Type} [DecidableEq K] {t : Table S K V} (h : ∀ k s' v, t.pending k = some (s', v) → s' = s)
    (k : K) (v : V) :
    ∀ k' s' v', (t.set s k v).pending k' = some (s', v') → s' = s := by
  intro k' s' v' hp
  by_cases hk : k' = k
  · subst hk
    rw [Table.set_pending_self] at hp
    cases hp
    rfl
  · rw [Table.set_pending_of_ne hk] at hp
    exact h k' s' v' hp

/-- **One row.** -/
theorem exec_alone (h : Alone d s) {x : Stmt F} {ss : List (Stmt F)} (hr : runnable (d.bars.view s) (x :: ss) = true) :
    ∃ d', d.exec s x = some d' ∧ Alone d' s ∧ runnable (d'.bars.view s) ss = true := by
  cases x with
  | receipt r => cases hr
  | trade r =>
    simp only [runnable, stmtFits, Bool.and_eq_true] at hr
    exact ⟨{ d with trades := d.trades.insert s r }, by rw [Server.exec, if_pos hr.1],
      ⟨h.latest, h.bars, h.receipts⟩, hr.2⟩
  | latest r =>
    simp only [runnable, stmtFits, Bool.and_eq_true] at hr
    have hfree : d.latest.free s r.key = true := Table.free_iff.2 (h.latest r.key)
    obtain ⟨v, hv⟩ : ∃ v, put LatestRow.merge (d.latest.view s r.key) r = some v := ⟨_, rfl⟩
    refine ⟨{ d with latest := d.latest.set s r.key v }, ?_, ⟨set_alone h.latest _ _, h.bars, h.receipts⟩, hr.2⟩
    rw [Server.exec, if_pos hr.1, Table.upsert_of_free hfree hv, Option.map_some]
  | book r =>
    simp only [runnable, stmtFits, Bool.and_eq_true] at hr
    exact ⟨{ d with books := d.books.insert s r }, by rw [Server.exec, if_pos hr.1],
      ⟨h.latest, h.bars, h.receipts⟩, hr.2⟩
  | signal r =>
    simp only [runnable, stmtFits, Bool.and_eq_true] at hr
    exact ⟨{ d with signals := d.signals.insert s r }, by rw [Server.exec, if_pos hr.1],
      ⟨h.latest, h.bars, h.receipts⟩, hr.2⟩
  | bar r =>
    simp only [runnable, Bool.and_eq_true] at hr
    have hfree : d.bars.free s r.key = true := Table.free_iff.2 (h.bars r.key)
    obtain ⟨v, hv⟩ : ∃ v, put BarRow.merge (d.bars.view s r.key) r = some v := ⟨_, rfl⟩
    refine ⟨{ d with bars := d.bars.set s r.key v }, ?_, ⟨h.latest, set_alone h.bars _ _, h.receipts⟩, ?_⟩
    · rw [Server.exec, if_pos (by simpa using hr.1), Table.upsert_of_free hfree hv, Option.map_some]
    · rw [Table.view_set, ← hv]
      exact hr.2

/-- The rest of the rows. -/
theorem write_run {done ss : List (Stmt F)} (hp : w.phase s = .write b at_ done ss) (ha : Alone w.db s)
    (hr : runnable (w.db.bars.view s) ss = true) :
    ∃ acts d, Run World.step (fun _ a => a.plain s) w acts
      ({ w with db := d }.goto s (.write b at_ (done ++ ss) [])) ∧ Alone d s := by
  induction ss generalizing w done with
  | nil =>
    have hself : { w with db := w.db }.goto s (.write b at_ (done ++ []) []) = w := by
      rw [List.append_nil, ← hp, World.goto, Function.update_eq_self]
    exact ⟨[], w.db, by rw [hself]; exact .nil w, ha⟩
  | cons x ss ih =>
    obtain ⟨d, hd, hda, hdr⟩ := exec_alone ha hr
    have hstep : w.step (.write s) = some ({ w with db := d }.goto s (.write b at_ (done ++ [x]) ss)) := by
      rw [World.step, hp]
      simp only [hd, Option.map_some]
    obtain ⟨acts, d', hrun, hd'⟩ := ih (w := { w with db := d }.goto s (.write b at_ (done ++ [x]) ss))
      (Function.update_self ..) hda hdr
    refine ⟨.write s :: acts, d', .cons rfl hstep ?_, hd'⟩
    simpa [World.goto, Function.update_idem, List.append_assoc] using hrun

/-- The rest of the receipts, none of which is there. -/
theorem claim_run {done rs : List ReceiptRow} (hp : w.phase s = .claim b at_ done rs) (ha : Alone w.db s)
    (hfit : ∀ r ∈ rs, fits receiptColumns (receiptCells (F := F) r) = true) (hn : (rs.map ReceiptRow.receiptId).Nodup)
    (hnew : ∀ r ∈ rs, w.db.receipts.view s r.receiptId = none) :
    ∃ acts t, Run World.step (fun _ a => a.plain s) w acts
      ({ w with db := { w.db with receipts := t } }.goto s (.claim b at_ (done ++ rs) [])) ∧
      ∀ k s' v, t.pending k = some (s', v) → s' = s := by
  induction rs generalizing w done with
  | nil =>
    have hself : { w with db := w.db }.goto s (.claim b at_ (done ++ []) []) = w := by
      rw [List.append_nil, ← hp, World.goto, Function.update_eq_self]
    exact ⟨[], w.db.receipts, by rw [hself]; exact .nil w, ha.receipts⟩
  | cons r rs ih =>
    rw [List.map_cons, List.nodup_cons] at hn
    have hfree : w.db.receipts.free s r.receiptId = true := Table.free_iff.2 (ha.receipts r.receiptId)
    have hclaim : w.db.receipts.claim s ReceiptRow.receiptId r = some (w.db.receipts.set s r.receiptId r, true) :=
      Table.claim_of_free hfree (hnew r List.mem_cons_self)
    let w' : World S F := { w with db := { w.db with receipts := w.db.receipts.set s r.receiptId r } }.goto s
      (.claim b at_ (done ++ [r]) rs)
    have hstep : w.step (.claim s) = some w' := by
      rw [World.step, hp]
      simp only [hfit r List.mem_cons_self, if_true, hclaim, Option.map_some]
      rfl
    have halone : Alone w'.db s := ⟨ha.latest, ha.bars, set_alone ha.receipts _ _⟩
    obtain ⟨acts, t, hrun, ht⟩ := ih (w := w') (Function.update_self ..) halone
      (fun x hx => hfit x (List.mem_cons_of_mem r hx)) hn.2 (by
        intro x hx
        have hne : x.receiptId ≠ r.receiptId := fun he => hn.1 (he ▸ List.mem_map_of_mem hx)
        show (w.db.receipts.set s r.receiptId r).view s x.receiptId = none
        rw [Table.view_set, Function.update_of_ne hne]
        exact hnew x (List.mem_cons_of_mem r hx))
    refine ⟨.claim s :: acts, t, .cons rfl hstep ?_, ht⟩
    simpa [w', World.goto, Function.update_idem, List.append_assoc] using hrun

/-- What no open transaction means for the tables. -/
structure Quiet (d : Server S F) : Prop where
  latest : ∀ k s v, d.latest.pending k ≠ some (s, v)
  bars : ∀ k s v, d.bars.pending k ≠ some (s, v)
  receipts : ∀ k s v, d.receipts.pending k ≠ some (s, v)

omit [Max F] [Min F] [Add F] [DecidableEq S] in
theorem Quiet.alone (h : Quiet d) (s : S) : Alone d s :=
  ⟨fun k s' v hp => absurd hp (h.latest k s' v), fun k s' v hp => absurd hp (h.bars k s' v),
    fun k s' v hp => absurd hp (h.receipts k s' v)⟩

omit [Max F] [Min F] [Add F] [DecidableEq S] in
theorem outside_transaction {p : Phase F} (h : World.inTransaction p = false) : executed p = [] ∧ taken p = [] := by
  cases p with
  | idle | dead | select b at_ => exact ⟨rfl, rfl⟩
  | claim b at_ done rest | write b at_ done rest => cases h

omit [DecidableEq S] in
theorem Inv.quiet {bs : Set (StorageBatch F)} {t₀ : Tables F} (h : Inv bs t₀ w)
    (hq : ∀ s, World.inTransaction (w.phase s) = false) :
    Quiet w.db := by
  have hexec : ∀ s, executed (w.phase s) = [] := fun s => (outside_transaction (hq s)).1
  refine ⟨?_, ?_, ?_⟩
  · intro k s v hp
    obtain ⟨r, hr, -⟩ := h.stored.latest.touched k s v hp
    rw [rowsOf, hexec] at hr
    cases hr
  · intro k s v hp
    obtain ⟨r, hr, -⟩ := h.stored.bars.touched k s v hp
    rw [rowsOf, hexec] at hr
    cases hr
  · intro k s v hp
    exact h.receipted.none_pending (outside_transaction (hq s)).2 k v hp

/-- A batch that is not recorded, from the `SELECT` on. -/
theorem attempt_run (hp : w.phase s = .select b at_) (hq : Quiet w.db) (hun : Unrecorded w.db.receipts.committed b)
    (hreceipts : ∀ r ∈ b.receipts at_, fits receiptColumns (receiptCells (F := F) r) = true)
    (hrows : runnable w.db.bars.committed (dataScript b) = true) :
    ∃ acts w', Run World.step (fun _ a => a.plain s) w acts w' ∧ w'.phase s = .idle ∧ w'.returned = w.returned ++ [b.receipt] ∧
      w'.raised = w.raised ∧ w'.log = w.log ++ [(b, at_)] := by
  have hview : w.db.receipts.view s = w.db.receipts.committed := Table.view_eq_committed fun k v => hq.receipts k s v
  have hselect : w.step (.select s) = some (w.goto s (.claim b at_ [] (b.receipts at_))) := by
    rw [World.step, hp]
    simp only [hview, already_of_unrecorded hun]
  have hnew : ∀ r ∈ b.receipts at_, w.db.receipts.view s r.receiptId = none := by
    intro r hr
    obtain ⟨e, he, rfl⟩ := mem_receipts hr
    rw [hview]
    exact hun e he
  obtain ⟨acts₁, t, hclaims, ht⟩ := claim_run (w := w.goto s (.claim b at_ [] (b.receipts at_)))
    (Function.update_self ..) (hq.alone s)
    hreceipts (receipts_ids_nodup b at_) hnew
  let w₁ : World S F := { w with db := { w.db with receipts := t } }
  have hclaims : Run World.step (fun _ a => a.plain s) (w.goto s (.claim b at_ [] (b.receipts at_))) acts₁
      (w₁.goto s (.claim b at_ (b.receipts at_) [])) := by
    simpa [World.goto, w₁] using hclaims
  have hsettle : (w₁.goto s (.claim b at_ (b.receipts at_) [])).step (.settle s) =
      some (w₁.goto s (.write b at_ [] (dataScript b))) := by
    have hphase : (w₁.goto s (.claim b at_ (b.receipts at_) [])).phase s = .claim b at_ (b.receipts at_) [] :=
      Function.update_self ..
    rw [World.step, hphase]
    simp [World.settle, World.goto]
  have hbars : w₁.db.bars.view s = w.db.bars.committed := Table.view_eq_committed fun k v => hq.bars k s v
  obtain ⟨acts₂, d, hwrites, -⟩ := write_run (w := w₁.goto s (.write b at_ [] (dataScript b))) (Function.update_self ..)
    ⟨(hq.alone s).latest, (hq.alone s).bars, ht⟩ (by show runnable (w₁.db.bars.view s) (dataScript b) = true; rw [hbars]; exact hrows)
  have hwrites : Run World.step (fun _ a => a.plain s) (w₁.goto s (.write b at_ [] (dataScript b))) acts₂
      ({ w with db := d }.goto s (.write b at_ (dataScript b) [])) := by
    simpa [World.goto, w₁] using hwrites
  let w₂ : World S F := { w with db := d.commit s, log := w.log ++ [(b, at_)] }
  have hcommit : ({ w with db := d }.goto s (.write b at_ (dataScript b) [])).step (.commit s true) =
      some (w₂.answer s b.receipt) := by
    have hphase : ({ w with db := d }.goto s (.write b at_ (dataScript b) [])).phase s = .write b at_ (dataScript b)
        [] :=
      Function.update_self ..
    rw [World.step, hphase]
    simp [World.answer, World.goto, w₂]
  refine ⟨.select s :: (acts₁ ++ .settle s :: (acts₂ ++ [.commit s true])), w₂.answer s b.receipt,
    .cons rfl hselect (hclaims.append ?_),
    Function.update_self .., rfl, rfl, rfl⟩
  exact .cons rfl hsettle (hwrites.append (.cons ⟨rfl, rfl⟩ hcommit (.nil _)))

end

def isIdle : Phase F → Bool
  | .idle => true
  | _ => false

end Storage.Postgres

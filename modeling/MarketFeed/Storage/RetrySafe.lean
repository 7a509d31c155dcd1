import Mathlib.Data.List.Infix
import Mathlib.Data.List.Nodup
import MarketFeed.Storage.Sqlite
/-!
# Atomicity and retries of `write_batch` (storage/db.py:393-460)

`Attempt.failure` says where an attempt on a database without the batch fails, from the batch and the
fault alone, and the lemmas after it what the attempt leaves. An exception that is no `sqlite3.Error`
passes the `except` clause, and the open transaction stays with the connection: the next attempt finds
its own uncommitted receipts there and reports success.
-/

namespace Storage

open Txn Keyed

variable {F : Type} [Max F] [Min F] [Add F]

/-! ## The receipts -/

theorem like_prefix (q s : List Char) : like (q ++ ['%']) (q ++ s) = true := by
  induction q with
  | nil =>
    simp only [List.nil_append, like, if_true, List.any_eq_true, List.mem_tails]
    exact ⟨[], List.nil_suffix, rfl⟩
  | cons x q ih =>
    simp only [List.cons_append, like]
    by_cases hx : x = '%'
    · rw [if_pos hx, List.any_eq_true]
      exact ⟨q ++ s, (List.mem_tails _ _).2 (List.suffix_cons _ _), ih⟩
    · rw [if_neg hx]
      simp [ih]

/-- No receipt in the tables is taken for one of the batch: `uuid4` gives a new batch id. -/
def Fresh (t : Tables F) (b : StorageBatch F) : Prop := ∀ r ∈ t.receipts, b.matches r = false

omit [Max F] [Min F] [Add F] in
theorem matches_receipts (b : StorageBatch F) (committedAt : String) :
    ∀ r ∈ b.receipts committedAt, b.matches r = true := by
  intro r hr
  obtain ⟨⟨name, count⟩, _, rfl⟩ := List.mem_map.1 hr
  have := like_prefix (b.batchId ++ ":").toList name.toList
  simpa [StorageBatch.matches, String.toList_append] using this

omit [Max F] [Min F] [Add F] in
theorem batchAlreadyCommitted_fresh {t : Tables F} {b : StorageBatch F} (h : Fresh t b) :
    batchAlreadyCommitted t b = .ok false := by
  have hrows : t.receipts.filter b.matches = [] := List.filter_eq_nil_iff.2 fun r hr => by simp [h r hr]
  simp [batchAlreadyCommitted, hrows]

/-- Once stored, the batch is recognised by its receipts. -/
theorem batchAlreadyCommitted_store {t : Tables F} {b : StorageBatch F} (h : Fresh t b) (hne : b.isEmpty = false)
    (committedAt : String) : batchAlreadyCommitted (t.store b committedAt) b = .ok true := by
  have hexp := expected_ne_nil hne
  have hrows : (t.store b committedAt).receipts.filter b.matches = b.receipts committedAt := by
    have h1 : t.receipts.filter b.matches = [] := List.filter_eq_nil_iff.2 fun r hr => by simp [h r hr]
    have h2 : (b.receipts committedAt).filter b.matches = b.receipts committedAt :=
      List.filter_eq_self.2 (matches_receipts b committedAt)
    show (t.receipts ++ b.receipts committedAt).filter b.matches = _
    rw [List.filter_append, h1, h2, List.nil_append]
  have hnil : b.receipts committedAt ≠ [] := by simpa [StorageBatch.receipts] using hexp
  have hall : (b.receipts committedAt).all (fun r => b.expected.any (·.1 == r.tableName)) = true := by
    rw [List.all_eq_true]
    intro r hr
    obtain ⟨e, he, rfl⟩ := List.mem_map.1 hr
    exact List.any_eq_true.2 ⟨e, he, by simp⟩
  have hfound : b.expected.all (fun e => (foundRow (b.receipts committedAt) e.1).any fun r =>
      r.batchHash == b.digest && r.rowCount == e.2) = true := by
    rw [List.all_eq_true]
    intro e he
    have hmem : (⟨b.batchId ++ ":" ++ e.1, "writer", e.1, b.digest, e.2, committedAt⟩ : ReceiptRow) ∈
        (b.receipts committedAt).reverse := List.mem_reverse.2 (List.mem_map.2 ⟨e, he, rfl⟩)
    cases hf : foundRow (b.receipts committedAt) e.1 with
    | none => exact absurd (List.find?_eq_none.1 hf _ hmem) (by simp)
    | some r =>
      have hname : r.tableName = e.1 := by simpa using List.find?_some hf
      obtain ⟨e', he', rfl⟩ := List.mem_map.1 (List.mem_reverse.1 (List.mem_of_find?_eq_some hf))
      have heq : e' = e := List.inj_on_of_nodup_map (expected_names_nodup b) he' he hname
      simp [heq]
  simp only [batchAlreadyCommitted, if_neg hexp, hrows, if_neg hnil, hall, hfound, Bool.and_self, if_true]

/-! ## The statements of a batch -/

def Stmt.receiptId : Stmt F → Option String
  | .receipt r => some r.receiptId
  | _ => none

/-- With new and distinct receipt ids, only an integer out of range stops a script. -/
theorem runTo_script {ss : List (Stmt F)} {t : Tables F} (hn : (ss.filterMap Stmt.receiptId).Nodup)
    (hf : ∀ id ∈ ss.filterMap Stmt.receiptId, ∀ r ∈ t.receipts, r.receiptId ≠ id) :
    ∃ w, runTo exec ss t = (w, if ss.all Stmt.bindable then none else some .other) := by
  induction ss generalizing t with
  | nil => exact ⟨t, rfl⟩
  | cons s ss ih =>
    by_cases hb : s.bindable = true
    · have hstep : ∃ t', exec t s = .ok t' ∧
          ∀ r ∈ t'.receipts, r ∈ t.receipts ∨ s.receiptId = some r.receiptId := by
        cases s with
        | receipt r =>
          have hno : t.receipts.any (·.receiptId == r.receiptId) = false := by
            rw [List.any_eq_false]
            intro x hx
            simpa using hf r.receiptId (by simp [Stmt.receiptId]) x hx
          refine ⟨{ t with receipts := t.receipts ++ [r] }, by simp [exec, hb, hno], fun x hx => ?_⟩
          rcases List.mem_append.1 hx with hx | hx
          · exact .inl hx
          · obtain rfl := List.mem_singleton.1 hx
            exact .inr rfl
        | trade r => exact ⟨{ t with trades := t.trades ++ [r] }, by simp [exec, hb], fun x hx => .inl hx⟩
        | latest r =>
          exact ⟨{ t with latest := upsert LatestRow.key LatestRow.merge t.latest r }, by simp [exec, hb],
            fun x hx => .inl hx⟩
        | book r => exact ⟨{ t with books := t.books ++ [r] }, by simp [exec, hb], fun x hx => .inl hx⟩
        | signal r => exact ⟨{ t with signals := t.signals ++ [r] }, by simp [exec, hb], fun x hx => .inl hx⟩
        | bar r => exact ⟨{ t with bars := upsert BarRow.key BarRow.merge t.bars r }, by simp [exec, hb],
            fun x hx => .inl hx⟩
      obtain ⟨t', ht', hr⟩ := hstep
      have hn' : (ss.filterMap Stmt.receiptId).Nodup := by
        cases hid : s.receiptId with
        | none => simpa [hid] using hn
        | some id =>
          simp only [List.filterMap_cons, hid, List.nodup_cons] at hn
          exact hn.2
      obtain ⟨w, hw⟩ := @ih t' hn' (by
        intro id hid r hr'
        rcases hr r hr' with hr' | hr'
        · apply hf id _ r hr'
          cases hs : s.receiptId with
          | none => simpa [hs] using hid
          | some _ => simp [hs, hid]
        · rintro rfl
          simp only [List.filterMap_cons, hr', List.nodup_cons] at hn
          exact hn.1 hid)
      refine ⟨w, ?_⟩
      simp only [runTo, ht', hw, List.all_cons, hb, Bool.true_and]
    · refine ⟨t, ?_⟩
      simp [runTo, exec, hb]

omit [Max F] [Min F] [Add F] in
theorem script_receiptIds (b : StorageBatch F) (committedAt : String) :
    (b.script committedAt).filterMap Stmt.receiptId = (b.receipts committedAt).map (·.receiptId) := by
  have hr : ∀ rs : List ReceiptRow, (rs.map (Stmt.receipt (F := F))).filterMap Stmt.receiptId =
      rs.map (·.receiptId) := by
    intro rs
    induction rs with
    | nil => rfl
    | cons r rs ih => simp [Stmt.receiptId, ih]
  have hnone : ∀ {α : Type} (f : α → Stmt F) (rows : List α), (∀ r, (f r).receiptId = none) →
      (rows.map f).filterMap Stmt.receiptId = [] := by
    intro α f rows hf
    rw [List.filterMap_map, List.filterMap_eq_nil_iff]
    exact fun r _ => hf r
  simp only [StorageBatch.script, List.filterMap_append, hr]
  rw [hnone _ _ fun _ => rfl, hnone _ _ fun _ => rfl, hnone _ _ fun _ => rfl, hnone _ _ fun _ => rfl,
    hnone _ _ fun _ => rfl]
  simp

omit [Max F] [Min F] [Add F] in
/-- The receipts of a batch have ids of their own. -/
theorem receiptIds_nodup (b : StorageBatch F) (committedAt : String) :
    ((b.receipts committedAt).map (·.receiptId)).Nodup := by
  rw [StorageBatch.receipts, List.map_map, List.nodup_map_iff_inj_on]
  · intro x hx y hy hxy
    refine List.inj_on_of_nodup_map (expected_names_nodup b) hx hy ?_
    by_contra hne
    exact receipt_id_ne hne hxy
  · exact List.Nodup.of_map _ (expected_names_nodup b)

omit [Max F] [Min F] [Add F] in
theorem receiptIds_fresh {t : Tables F} {b : StorageBatch F} (h : Fresh t b) (committedAt : String) :
    ∀ id ∈ (b.receipts committedAt).map (·.receiptId), ∀ r ∈ t.receipts, r.receiptId ≠ id := by
  intro id hid r hr he
  obtain ⟨own, hown, rfl⟩ := List.mem_map.1 hid
  have hm : b.matches r = b.matches own := by rw [StorageBatch.matches, he, StorageBatch.matches]
  rw [h r hr, matches_receipts b committedAt own hown] at hm
  cases hm

theorem runTo_receipts {rs : List ReceiptRow} {t : Tables F} (hn : (rs.map (·.receiptId)).Nodup)
    (hf : ∀ id ∈ rs.map (·.receiptId), ∀ r ∈ t.receipts, r.receiptId ≠ id)
    (hb : ∀ r ∈ rs, (Stmt.receipt (F := F) r).bindable = true) :
    runTo exec (rs.map .receipt) t = ({ t with receipts := t.receipts ++ rs }, none) := by
  induction rs generalizing t with
  | nil => simp [runTo]
  | cons r rs ih =>
    have hno : t.receipts.any (·.receiptId == r.receiptId) = false := by
      rw [List.any_eq_false]
      intro x hx
      simpa using hf r.receiptId (by simp) x hx
    have hstep : exec t (.receipt r) = .ok { t with receipts := t.receipts ++ [r] } := by
      simp [exec, hb r (by simp), hno]
    simp only [List.map_cons, List.nodup_cons] at hn
    simp only [List.map_cons, runTo, hstep]
    rw [ih hn.2 _ fun x hx => hb x (by simp [hx])]
    · simp
    · intro id hid x hx
      rcases List.mem_append.1 hx with hx | hx
      · exact hf id (by simp [hid]) x hx
      · obtain rfl := List.mem_singleton.1 hx
        rintro rfl
        exact hn.1 hid

/-- A fold that only rewrites one field is a fold of the field. -/
theorem foldl_field {σ β ρ : Type} (get : σ → β) (put : σ → β → σ) (hget : ∀ s b, get (put s b) = b)
    (hput : ∀ s b c, put (put s b) c = put s c) (hself : ∀ s, put s (get s) = s) (f : β → ρ → β)
    (rows : List ρ) (s : σ) :
    rows.foldl (fun s r => put s (f (get s) r)) s = put s (rows.foldl f (get s)) := by
  induction rows generalizing s with
  | nil => exact (hself s).symm
  | cons r rows ih => rw [List.foldl_cons, ih, hget, hput, List.foldl_cons]

theorem foldl_snoc {ρ : Type} (rows l : List ρ) : rows.foldl (fun l r => l ++ [r]) l = l ++ rows := by
  induction rows generalizing l with
  | nil => simp
  | cons r rows ih => simp [ih]

/-- **A script whose integers fit stores every row once.** -/
theorem runTo_store {t : Tables F} {b : StorageBatch F} (hfresh : Fresh t b) {committedAt : String}
    (hall : (b.script committedAt).all Stmt.bindable = true) :
    runTo exec (b.script committedAt) t = (t.store b committedAt, none) := by
  simp only [StorageBatch.script, List.all_append, List.all_map, Bool.and_eq_true, List.all_eq_true,
    Function.comp_apply] at hall
  obtain ⟨hr, htr, hla, hbo, hsi, hba⟩ := hall
  rw [StorageBatch.script, runTo_append_none (runTo_receipts (receiptIds_nodup b committedAt)
    (receiptIds_fresh hfresh committedAt) hr)]
  rw [runTo_append_none (runTo_map (g := fun t r => { t with trades := t.trades ++ [r] })
      (fun r h d => by simp only [exec, htr r h, if_true]) _),
    foldl_field Tables.trades (fun t x => { t with trades := x }) (fun _ _ => rfl) (fun _ _ _ => rfl) (fun _ => rfl)
      fun l r => l ++ [r]]
  rw [runTo_append_none (runTo_map
    (g := fun t r => { t with latest := upsert LatestRow.key LatestRow.merge t.latest r })
      (fun r h d => by simp only [exec, hla r h, if_true]) _),
    foldl_field Tables.latest (fun t x => { t with latest := x }) (fun _ _ => rfl) (fun _ _ _ => rfl) (fun _ => rfl)
      (upsert LatestRow.key LatestRow.merge)]
  rw [runTo_append_none (runTo_map (g := fun t r => { t with books := t.books ++ [r] })
      (fun r h d => by simp only [exec, hbo r h, if_true]) _),
    foldl_field Tables.books (fun t x => { t with books := x }) (fun _ _ => rfl) (fun _ _ _ => rfl) (fun _ => rfl)
      fun l r => l ++ [r]]
  rw [runTo_append_none (runTo_map (g := fun t r => { t with signals := t.signals ++ [r] })
      (fun r h d => by simp only [exec, hsi r h, if_true]) _),
    foldl_field Tables.signals (fun t x => { t with signals := x }) (fun _ _ => rfl) (fun _ _ _ => rfl) (fun _ => rfl)
      fun l r => l ++ [r]]
  rw [runTo_map (g := fun t r => { t with bars := upsert BarRow.key BarRow.merge t.bars r })
      (fun r h d => by simp only [exec, hba r h, if_true]) _,
    foldl_field Tables.bars (fun t x => { t with bars := x }) (fun _ _ => rfl) (fun _ _ _ => rfl) (fun _ => rfl)
      (upsert BarRow.key BarRow.merge)]
  simp only [foldl_snoc, Tables.store]

/-! ## What an attempt leaves -/

/-- Where an attempt fails. -/
inductive Failure
  /-- Before `BEGIN` takes effect. -/
  | before
  /-- Between `BEGIN` and the `try`. -/
  | unguarded
  /-- Inside the `try`, the transaction open. -/
  | inside (e : Exc)
  /-- Inside the `try`, after SQLite has ended the transaction by itself. -/
  | ended
  /-- After the commit took effect. -/
  | lost
  deriving DecidableEq

/-- The failure of an attempt on a database without the batch. -/
def Attempt.failure (a : Attempt) (b : StorageBatch F) : Option Failure :=
  let ss := b.script a.committedAt
  if b.isEmpty then none
  else match a.fault with
    | some (.select _) => some .before
    | some (.begin _ opened) => some (if opened then .unguarded else .before)
    | some (.row n e ended) =>
      if (ss.take n).all Stmt.bindable then
        if n ≤ ss.length then some (if ended then .ended else .inside e) else none
      else some (.inside .other)
    | some (.commit e state) =>
      if ss.all Stmt.bindable then
        some (match state with | .stillOpen => .inside e | .rolledBack => .ended | .committed => .lost)
      else some (.inside .other)
    | none => if ss.all Stmt.bindable then none else some (.inside .other)

/-- No transaction is left open: there is none any more, or the `except` clause rolls it back. -/
def Failure.harmless (rollback : Option Exc) : Failure → Bool
  | .before => true
  | .unguarded => false
  | .inside e => e == .sqlite && rollback.isNone
  | .ended => true
  | .lost => true

/-- What an attempt that fails so leaves of a database `t` without the batch. -/
def Attempt.Leaves (a : Attempt) (t : Tables F) (b : StorageBatch F) (r : Result F) : Option Failure → Prop
  | none => r.1 = idle (t.store b a.committedAt) ∧ ∃ receipt, r.2 = .ok receipt
  | some .lost => r.1 = idle (t.store b a.committedAt) ∧ ∃ e, r.2 = .error e
  | some f => (∃ e, r.2 = .error e) ∧ if f.harmless a.rollback then r.1 = idle t else ∃ w, r.1 = ⟨t, some w⟩

omit [Max F] [Min F] [Add F] in
theorem handle_idle (a : Attempt) (d : Tables F) (e : Exc) : ∃ e', a.handle (idle d) e = (idle d, .error e') := by
  unfold Attempt.handle
  split <;> exact ⟨_, rfl⟩

omit [Max F] [Min F] [Add F] in
theorem handle_open (a : Attempt) (d w : Tables F) (e : Exc) :
    (∃ e', (a.handle ⟨d, some w⟩ e).2 = .error e') ∧
    if (Failure.inside e).harmless a.rollback then (a.handle ⟨d, some w⟩ e).1 = idle d
    else ∃ w', (a.handle ⟨d, some w⟩ e).1 = ⟨d, some w'⟩ := by
  cases e with
  | other => exact ⟨⟨_, rfl⟩, w, rfl⟩
  | sqlite =>
    cases hr : a.rollback with
    | none => exact ⟨⟨.sqlite, by simp only [Attempt.handle, hr]⟩, by simp [Failure.harmless, Attempt.handle, hr]⟩
    | some e' => exact ⟨⟨e', by simp only [Attempt.handle, hr]⟩, w, by simp only [Attempt.handle, hr]⟩

/-- The rows before a fault: only an integer out of range stops them. -/
theorem runTo_take {t : Tables F} {b : StorageBatch F} (hfresh : Fresh t b) (committedAt : String) (n : Nat) :
    ∃ w, runTo exec ((b.script committedAt).take n) t =
      (w, if ((b.script committedAt).take n).all Stmt.bindable then none else some .other) := by
  have hsub : (((b.script committedAt).take n).filterMap Stmt.receiptId).Sublist
      ((b.receipts committedAt).map (·.receiptId)) := by
    rw [← script_receiptIds]
    exact (List.take_sublist _ _).filterMap _
  exact runTo_script ((receiptIds_nodup b committedAt).sublist hsub) fun id hid =>
    receiptIds_fresh hfresh committedAt id (hsub.subset hid)

/-- With a fault outside the rows, the statements all run or stop at an integer out of range. -/
theorem body_whole {t : Tables F} {b : StorageBatch F} (hfresh : Fresh t b) {a : Attempt}
    (hf : ∀ n e ended, a.fault ≠ some (.row n e ended)) :
    if (b.script a.committedAt).all Stmt.bindable then
      a.body (b.script a.committedAt) t = (t.store b a.committedAt, none)
    else ∃ w, a.body (b.script a.committedAt) t = (w, some (.other, false)) := by
  have hbody : a.body (b.script a.committedAt) t =
      ((runTo exec (b.script a.committedAt) t).1, (runTo exec (b.script a.committedAt) t).2.map fun e' =>
        (e', false)) := by
    unfold Attempt.body
    split
    · rename_i n e ended h
      exact absurd h (hf n e ended)
    · split <;> (rename_i heq; rw [heq]; rfl)
  rw [hbody]
  by_cases hall : (b.script a.committedAt).all Stmt.bindable = true
  · rw [if_pos hall, runTo_store hfresh hall]
    rfl
  · obtain ⟨w, hw⟩ := runTo_take hfresh a.committedAt (b.script a.committedAt).length
    rw [List.take_length, if_neg hall] at hw
    rw [if_neg hall, hw]
    exact ⟨w, rfl⟩

/-- The rows up to the fault. -/
theorem body_row {t : Tables F} {b : StorageBatch F} (hfresh : Fresh t b)
    {a : Attempt} {n : Nat} {e : Exc} {ended : Bool}
    (hf : a.fault = some (.row n e ended)) :
    if ((b.script a.committedAt).take n).all Stmt.bindable then
      if n ≤ (b.script a.committedAt).length then
        ∃ w, a.body (b.script a.committedAt) t = (w, some (e, ended))
      else a.body (b.script a.committedAt) t = (t.store b a.committedAt, none)
    else ∃ w, a.body (b.script a.committedAt) t = (w, some (.other, false)) := by
  obtain ⟨w, hw⟩ := runTo_take hfresh a.committedAt n
  simp only [Attempt.body, hf, hw]
  by_cases hall : ((b.script a.committedAt).take n).all Stmt.bindable = true
  · rw [if_pos hall] at hw
    simp only [if_pos hall]
    by_cases hn : n ≤ (b.script a.committedAt).length
    · simp only [if_pos hn]
      exact ⟨w, rfl⟩
    · rw [List.take_of_length_le (by omega)] at hw hall
      rw [runTo_store hfresh hall] at hw
      cases hw
      simp only [if_neg hn]
  · simp only [if_neg hall]
    exact ⟨w, rfl⟩

theorem transaction_stops {t w : Tables F} {b : StorageBatch F} {a : Attempt} {e : Exc} {ended : Bool}
    (hbegin : ∀ e opened, a.fault ≠ some (.begin e opened))
    (hw : a.body (b.script a.committedAt) t = (w, some (e, ended))) :
    a.transaction (idle t) b = a.handle (if ended then idle t else ⟨t, some w⟩) e := by
  simp only [Attempt.transaction, idle_begin, Conn.view, Option.getD_some, hw]
  rfl

theorem transaction_commits {t w : Tables F} {b : StorageBatch F} {a : Attempt} (hbegin : ∀ e opened,
    a.fault ≠ some (.begin e opened))
    (hw : a.body (b.script a.committedAt) t = (w, none)) : a.transaction (idle t) b = a.commit t w b := by
  simp only [Attempt.transaction, idle_begin, Conn.view, Option.getD_some, hw]
  rfl

theorem transaction_leaves {t : Tables F} {b : StorageBatch F} (hfresh : Fresh t b) (hne : b.isEmpty = false)
    (a : Attempt)
    (hsel : ∀ e, a.fault ≠ some (.select e)) : a.Leaves t b (a.transaction (idle t) b) (a.failure b) := by
  -- an exception inside the `try`, the transaction open
  have hopen : ∀ w e, a.Leaves t b (a.handle ⟨t, some w⟩ e) (some (.inside e)) := fun w e => handle_open a t w e
  have hidle : ∀ e, a.Leaves t b (a.handle (idle t) e) (some .ended) := by
    intro e
    obtain ⟨e', he⟩ := handle_idle a t e
    rw [he]
    exact ⟨⟨e', rfl⟩, rfl⟩
  cases hf : a.fault with
  | none =>
    have hbegin : ∀ e opened, a.fault ≠ some (.begin e opened) := by simp [hf]
    have hbody := @body_whole F _ _ _ t b hfresh a (by simp [hf])
    by_cases hall : (b.script a.committedAt).all Stmt.bindable = true
    · rw [if_pos hall] at hbody
      rw [transaction_commits hbegin hbody]
      simp only [Attempt.failure, hne, hf, hall, Attempt.commit, if_true, Bool.false_eq_true, if_false]
      exact ⟨rfl, _, rfl⟩
    · rw [if_neg hall] at hbody
      obtain ⟨w, hw⟩ := hbody
      rw [transaction_stops hbegin hw]
      simp only [Attempt.failure, hne, hf, hall, Bool.false_eq_true, if_false]
      exact hopen w .other
  | some fault =>
    cases fault with
    | select e => exact absurd hf (hsel e)
    | begin e opened =>
      simp only [Attempt.transaction, Attempt.failure, hne, hf, idle_begin, Bool.false_eq_true, if_false]
      cases opened with
      | true => exact ⟨⟨e, rfl⟩, t, rfl⟩
      | false => exact ⟨⟨e, rfl⟩, rfl⟩
    | row n e ended =>
      have hbegin : ∀ e opened, a.fault ≠ some (.begin e opened) := by simp [hf]
      have hbody := @body_row F _ _ _ t b hfresh a n e ended hf
      by_cases hall : ((b.script a.committedAt).take n).all Stmt.bindable = true
      · rw [if_pos hall] at hbody
        by_cases hn : n ≤ (b.script a.committedAt).length
        · rw [if_pos hn] at hbody
          obtain ⟨w, hw⟩ := hbody
          rw [transaction_stops hbegin hw]
          simp only [Attempt.failure, hne, hf, hall, hn, if_true, Bool.false_eq_true, if_false]
          cases ended with
          | true => exact hidle e
          | false => exact hopen w e
        · rw [if_neg hn] at hbody
          rw [transaction_commits hbegin hbody]
          simp only [Attempt.failure, hne, hf, hall, hn, Attempt.commit, if_true, Bool.false_eq_true, if_false]
          exact ⟨rfl, _, rfl⟩
      · rw [if_neg hall] at hbody
        obtain ⟨w, hw⟩ := hbody
        rw [transaction_stops hbegin hw]
        simp only [Attempt.failure, hne, hf, hall, Bool.false_eq_true, if_false]
        exact hopen w .other
    | commit e state =>
      have hbegin : ∀ e opened, a.fault ≠ some (.begin e opened) := by simp [hf]
      have hbody := @body_whole F _ _ _ t b hfresh a (by simp [hf])
      by_cases hall : (b.script a.committedAt).all Stmt.bindable = true
      · rw [if_pos hall] at hbody
        rw [transaction_commits hbegin hbody]
        simp only [Attempt.failure, hne, hf, hall, if_true, Bool.false_eq_true, if_false]
        cases state with
        | stillOpen => simp only [Attempt.commit, hf]; exact hopen _ e
        | rolledBack => simp only [Attempt.commit, hf]; exact hidle e
        | committed =>
          simp only [Attempt.commit, hf]
          obtain ⟨e', he⟩ := handle_idle a (t.store b a.committedAt) e
          rw [he]
          exact ⟨rfl, e', rfl⟩
      · rw [if_neg hall] at hbody
        obtain ⟨w, hw⟩ := hbody
        rw [transaction_stops hbegin hw]
        simp only [Attempt.failure, hne, hf, hall, Bool.false_eq_true, if_false]
        exact hopen w .other

/-- **One attempt on a database without the batch.** -/
theorem writeBatch_leaves {t : Tables F} {b : StorageBatch F} (hfresh : Fresh t b) (a : Attempt) :
    a.Leaves t b (writeBatch (idle t) b a) (a.failure b) := by
  cases hne : b.isEmpty with
  | true =>
    simp only [writeBatch, Attempt.failure, hne, if_true]
    exact ⟨by rw [store_empty t hne], _, rfl⟩
  | false =>
    by_cases hsel : ∃ e, a.fault = some (.select e)
    · obtain ⟨e, he⟩ := hsel
      simp only [writeBatch, Attempt.failure, hne, he, Bool.false_eq_true, if_false]
      exact ⟨⟨e, rfl⟩, rfl⟩
    · have hsel : ∀ e, a.fault ≠ some (.select e) := fun e he => hsel ⟨e, he⟩
      have hwrite : writeBatch (idle t) b a = a.transaction (idle t) b := by
        simp only [writeBatch, hne, idle_view, batchAlreadyCommitted_fresh hfresh, Bool.false_eq_true, if_false]
      rw [hwrite]
      exact transaction_leaves hfresh hne a hsel

/-- **An attempt on a database with the batch** writes nothing, and reports success unless the `SELECT` fails. -/
theorem writeBatch_stored {t : Tables F} {b : StorageBatch F} (hfresh : Fresh t b) (committedAt : String)
    (a : Attempt) :
    (writeBatch (idle (t.store b committedAt)) b a).1 = idle (t.store b committedAt) := by
  cases hne : b.isEmpty with
  | true => simp only [writeBatch, hne, if_true]
  | false =>
    simp only [writeBatch, hne, idle_view, batchAlreadyCommitted_store hfresh hne committedAt,
      Bool.false_eq_true, if_false]
    split <;> rfl

theorem write_fresh {t : Tables F} {b : StorageBatch F} (h : Fresh t b) (committedAt : String) :
    t.write b committedAt = t.store b committedAt := by
  have hno : t.receipts.any b.matches = false := List.any_eq_false.2 fun r hr => by simp [h r hr]
  simp [Tables.write, hno]

/-- An attempt that succeeds does what `Tables.write` says. -/
theorem writeBatch_write {t : Tables F} {b : StorageBatch F} (hfresh : Fresh t b)
    {a : Attempt} {receipt : BatchWriteReceipt}
    (h : (writeBatch (idle t) b a).2 = .ok receipt) : (writeBatch (idle t) b a).1 = idle (t.write b a.committedAt) := by
  have hl := writeBatch_leaves hfresh a
  rw [write_fresh hfresh]
  cases hf : a.failure b with
  | none => rw [hf] at hl; exact hl.1
  | some f =>
    rw [hf] at hl
    obtain ⟨e, he⟩ : ∃ e, (writeBatch (idle t) b a).2 = .error e := by
      cases f <;> first | exact hl.1 | exact hl.2
    rw [he] at h
    cases h

/-! ## Repeating the call -/

/-- Every row of the batch is stored exactly once, and no transaction is open. -/
def Stored (t : Tables F) (b : StorageBatch F) (c : Conn (Tables F)) : Prop :=
  ∃ committedAt, c = idle (t.store b committedAt)

/-- The caller repeats the call until it reports success. An attempt that raises leaves no row, no receipt and
no open transaction, unless the commit took effect, then or earlier; success leaves every row stored once. -/
def RetrySafe (t : Tables F) (b : StorageBatch F) (c : Conn (Tables F)) : List Attempt → Prop
  | [] => True
  | a :: as =>
    match writeBatch c b a with
    | (c', .ok _) => Stored t b c'
    | (c', .error _) =>
      (c' = idle t ∨ (Stored t b c' ∧ (a.failure b = some .lost ∨ c' = c))) ∧ RetrySafe t b c' as

/-- Up to the first attempt that succeeds or loses its acknowledgement, every failure is harmless. -/
def harmlessFailures (b : StorageBatch F) : List Attempt → Bool
  | [] => true
  | a :: as =>
    match a.failure b with
    | none => true
    | some .lost => true
    | some f => f.harmless a.rollback && harmlessFailures b as

theorem retrySafe_stored {t : Tables F} {b : StorageBatch F} (hfresh : Fresh t b) (committedAt : String)
    (as : List Attempt) : RetrySafe t b (idle (t.store b committedAt)) as := by
  induction as with
  | nil => exact trivial
  | cons a as ih =>
    have hc := writeBatch_stored hfresh committedAt a
    simp only [RetrySafe]
    generalize hw : writeBatch (idle (t.store b committedAt)) b a = r at hc
    obtain ⟨c', r⟩ := r
    obtain rfl : c' = idle (t.store b committedAt) := hc
    cases r with
    | ok receipt => exact ⟨committedAt, rfl⟩
    | error e => exact ⟨.inr ⟨⟨committedAt, rfl⟩, .inr rfl⟩, ih⟩

/-- **Exactly when `write_batch` is atomic and safe to retry**: for every database without the batch and every
sequence of attempts. -/
theorem write_batch_retry_safe_iff {t : Tables F} {b : StorageBatch F} (hfresh : Fresh t b) (as : List Attempt) :
    RetrySafe t b (idle t) as ↔ harmlessFailures b as = true := by
  induction as with
  | nil => exact iff_of_true trivial rfl
  | cons a as ih =>
    have hl := writeBatch_leaves hfresh a
    simp only [RetrySafe, harmlessFailures]
    generalize hw : writeBatch (idle t) b a = r at hl
    obtain ⟨c', r⟩ := r
    obtain ⟨o, hf⟩ : ∃ o, a.failure b = o := ⟨_, rfl⟩
    rw [hf] at hl
    cases o with
    | none =>
      obtain ⟨rfl, receipt, rfl⟩ := hl
      exact iff_of_true ⟨_, rfl⟩ (by rw [hf])
    | some f =>
      by_cases hlost : f = .lost
      · subst hlost
        obtain ⟨rfl, e, rfl⟩ := hl
        exact iff_of_true ⟨.inr ⟨⟨_, rfl⟩, .inl hf⟩, retrySafe_stored hfresh _ as⟩ (by rw [hf])
      · obtain ⟨⟨e, he⟩, hc⟩ : (∃ e, r = .error e) ∧
            if f.harmless a.rollback then c' = idle t else ∃ w, c' = ⟨t, some w⟩ := by
          cases f <;> first | exact hl | exact absurd rfl hlost
        have hright : (match a.failure b with
            | none => true
            | some .lost => true
            | some f => f.harmless a.rollback && harmlessFailures b as) =
            (f.harmless a.rollback && harmlessFailures b as) := by
          rw [hf]
          cases f <;> first | rfl | exact absurd rfl hlost
        rw [hright, Bool.and_eq_true]
        subst he
        by_cases hh : f.harmless a.rollback = true
        · rw [if_pos hh] at hc
          subst hc
          simp [hh, ih]
        · -- the open transaction stays
          rw [if_neg hh] at hc
          obtain ⟨w, rfl⟩ := hc
          simp [hh, idle, Stored]

/-- A trade in the range, and one whose sequence number needs all 64 bits of the wire's `u64`. -/
def sampleTrade (seq : Int) : TradeRow Int :=
  ⟨1753000000000000, "UPBIT", "KRW-BTC", 100, 1, 1, 1753000000000500, 500, seq⟩

def sampleBatch (seq : Int) : StorageBatch Int :=
  ⟨"batch:1", "d1", [sampleTrade seq], [⟨1753000000000000, "UPBIT", "KRW-BTC", 99, 1, 101, 1, 200⟩], [], []⟩

/-- The database is locked, then the acknowledgement of the commit is lost, then the batch is found. -/
theorem write_batch_retry_safe_locked :
    RetrySafe .empty (sampleBatch 7) (idle .empty)
      [⟨"t1", some (.row 1 .sqlite false), none⟩, ⟨"t2", some (.commit .sqlite .committed), none⟩,
        ⟨"t3", none, none⟩] :=
  (write_batch_retry_safe_iff (fun _ h => absurd h (by simp [Tables.empty])) _).2 (by decide)

/-- **A success that stored nothing**: the first attempt fails with `OverflowError` and leaves its transaction
open, the second finds its own receipts in it. -/
theorem write_batch_false_success :
    ¬ RetrySafe .empty (sampleBatch 9223372036854775808) (idle .empty) [⟨"t1", none, none⟩, ⟨"t2", none, none⟩] ∧
    (writeBatch (idle .empty) (sampleBatch 9223372036854775808) ⟨"t1", none, none⟩).2 = .error .other ∧
    (writeBatch (writeBatch (idle .empty) (sampleBatch 9223372036854775808) ⟨"t1", none, none⟩).1
      (sampleBatch 9223372036854775808) ⟨"t2", none, none⟩).2 = .ok (sampleBatch 9223372036854775808).receipt ∧
    (writeBatch (writeBatch (idle .empty) (sampleBatch 9223372036854775808) ⟨"t1", none, none⟩).1
      (sampleBatch 9223372036854775808) ⟨"t2", none, none⟩).1.committed = .empty := by
  refine ⟨fun h => ?_, by decide, by decide, by decide⟩
  simp only [RetrySafe] at h
  have hr : (writeBatch (idle .empty) (sampleBatch 9223372036854775808) ⟨"t1", none, none⟩).2 = .error .other := by
    decide
  have hopen : (writeBatch (idle .empty) (sampleBatch 9223372036854775808) ⟨"t1", none, none⟩).1.work ≠ none := by
    decide
  generalize writeBatch (idle .empty) (sampleBatch 9223372036854775808) ⟨"t1", none, none⟩ = r at h hr hopen
  obtain ⟨c', r⟩ := r
  obtain rfl : r = .error .other := hr
  obtain rfl | ⟨⟨_, rfl⟩, _⟩ := h.1 <;> exact hopen rfl

end Storage

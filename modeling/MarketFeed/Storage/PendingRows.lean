import MarketFeed.Storage.Cuts
import MarketFeed.Storage.Sessions
/-!
# The rows of concurrent batches (storage/db.py:768-813)

`Stored` relates the rows of the server to the rows that its transactions have executed, `Stored.agrees` the committed
ones to `Tables.store`: where the committed transactions have executed their batches, each as a whole, the tables are
those of the batches stored one after the other.
-/

namespace Storage.Postgres

open Rowlock Keyed

variable {S F : Type}

/-! ## Rows of one kind -/

def asTrade : Stmt F → Option (TradeRow F)
  | .trade r => some r
  | _ => none

def asLatest : Stmt F → Option (LatestRow F)
  | .latest r => some r
  | _ => none

def asBook : Stmt F → Option (BookRow F)
  | .book r => some r
  | _ => none

def asSignal : Stmt F → Option (SignalRow F)
  | .signal r => some r
  | _ => none

def asBar : Stmt F → Option (BarRow F)
  | .bar r => some r
  | _ => none

/-- The rows of one kind among those each session has executed. -/
def rowsOf {R : Type} (f : Stmt F → Option R) (done : S → List (Stmt F)) (s : S) : List R := (done s).filterMap f

section Script

variable (b : StorageBatch F)

theorem script_trades : (dataScript b).filterMap asTrade = b.trades := by simp [dataScript, Function.comp_def, asTrade]

theorem script_latest : (dataScript b).filterMap asLatest = latestRows b.trades := by
  simp [dataScript, Function.comp_def, asLatest]

theorem script_books : (dataScript b).filterMap asBook = b.books := by simp [dataScript, Function.comp_def, asBook]

theorem script_signals : (dataScript b).filterMap asSignal = b.signals := by
  simp [dataScript, Function.comp_def, asSignal]

theorem script_bars : (dataScript b).filterMap asBar = b.bars := by simp [dataScript, Function.comp_def, asBar]

end Script

section Rows

variable [DecidableEq S] {R : Type} {f : Stmt F → Option R} {done : S → List (Stmt F)} {s : S} {x : Stmt F}

theorem rowsOf_snoc {r : R} (h : f x = some r) :
    rowsOf f (Function.update done s (done s ++ [x])) = Function.update (rowsOf f done) s (rowsOf f done s ++ [r]) := by
  funext s'
  by_cases hs : s' = s
  · subst hs
    simp [rowsOf, h]
  · simp [rowsOf, hs]

theorem rowsOf_snoc_other (h : f x = none) : rowsOf f (Function.update done s (done s ++ [x])) = rowsOf f done := by
  funext s'
  by_cases hs : s' = s
  · subst hs
    simp [rowsOf, h]
  · simp [rowsOf, hs]

theorem rowsOf_nil : rowsOf f (Function.update done s []) = Function.update (rowsOf f done) s [] := by
  funext s'
  by_cases hs : s' = s
  · subst hs
    simp [rowsOf]
  · simp [rowsOf, hs]

end Rows

/-! ## The rows -/

variable [Max F] [Min F] [Add F]

/-- `rows` are those of the committed transactions, `done` those that each session's open transaction has executed. -/
structure Stored (t₀ : Tables F) (d : Server S F) (rows : List (Stmt F)) (done : S → List (Stmt F)) : Prop where
  trades : d.trades.Serial t₀.trades (rows.filterMap asTrade) (rowsOf asTrade done)
  latest : Serial LatestRow.key LatestRow.merge d.latest (fun k => lookup LatestRow.key k t₀.latest)
    (rows.filterMap asLatest)
    (rowsOf asLatest done)
  books : d.books.Serial t₀.books (rows.filterMap asBook) (rowsOf asBook done)
  signals : d.signals.Serial t₀.signals (rows.filterMap asSignal) (rowsOf asSignal done)
  bars : Serial BarRow.key BarRow.merge d.bars (fun k => lookup BarRow.key k t₀.bars) (rows.filterMap asBar)
    (rowsOf asBar done)

theorem stored_start (t₀ : Tables F) : Stored t₀ (.start (S := S) t₀) [] fun _ => [] :=
  ⟨.start _, .start _, .start _, .start _, .start _⟩

namespace Stored

variable [DecidableEq S] {t₀ : Tables F} {d d' : Server S F} {rows : List (Stmt F)} {done : S → List (Stmt F)} {s : S}

/-- **One row.** -/
theorem exec (h : Stored t₀ d rows done) {x : Stmt F} (hx : d.exec s x = some d') :
    Stored t₀ d' rows (Function.update done s (done s ++ [x])) := by
  obtain ⟨ht, hl, hb, hs, hbar⟩ := h
  cases x with
  | receipt r => cases hx
  | trade r =>
    simp only [Server.exec, Option.ite_none_right_eq_some, Option.some.injEq] at hx
    obtain ⟨-, rfl⟩ := hx
    refine ⟨?_, ?_, ?_, ?_, ?_⟩
    · rw [rowsOf_snoc (r := r) rfl]
      exact ht.insert s r
    all_goals rw [rowsOf_snoc_other rfl]; assumption
  | latest r =>
    simp only [Server.exec, Option.ite_none_right_eq_some, Option.map_eq_some_iff] at hx
    obtain ⟨-, t, hu, rfl⟩ := hx
    refine ⟨?_, ?_, ?_, ?_, ?_⟩
    rotate_left
    · rw [rowsOf_snoc (r := r) rfl]
      exact hl.upsert hu
    all_goals rw [rowsOf_snoc_other rfl]; assumption
  | book r =>
    simp only [Server.exec, Option.ite_none_right_eq_some, Option.some.injEq] at hx
    obtain ⟨-, rfl⟩ := hx
    refine ⟨?_, ?_, ?_, ?_, ?_⟩
    rotate_left 2
    · rw [rowsOf_snoc (r := r) rfl]
      exact hb.insert s r
    all_goals rw [rowsOf_snoc_other rfl]; assumption
  | signal r =>
    simp only [Server.exec, Option.ite_none_right_eq_some, Option.some.injEq] at hx
    obtain ⟨-, rfl⟩ := hx
    refine ⟨?_, ?_, ?_, ?_, ?_⟩
    rotate_left 3
    · rw [rowsOf_snoc (r := r) rfl]
      exact hs.insert s r
    all_goals rw [rowsOf_snoc_other rfl]; assumption
  | bar r =>
    simp only [Server.exec, Option.ite_none_right_eq_some, Option.map_eq_some_iff] at hx
    obtain ⟨-, t, hu, rfl⟩ := hx
    refine ⟨?_, ?_, ?_, ?_, ?_⟩
    rotate_left 4
    · rw [rowsOf_snoc (r := r) rfl]
      exact hbar.upsert hu
    all_goals rw [rowsOf_snoc_other rfl]; assumption

theorem abort (h : Stored t₀ d rows done) (s : S) : Stored t₀ (d.abort s) rows (Function.update done s []) := by
  refine ⟨?_, ?_, ?_, ?_, ?_⟩ <;> rw [rowsOf_nil]
  · exact h.trades.abort s
  · exact h.latest.abort s
  · exact h.books.abort s
  · exact h.signals.abort s
  · exact h.bars.abort s

/-- **A commit.** -/
theorem commit (h : Stored t₀ d rows done) (s : S) :
    Stored t₀ (d.commit s) (rows ++ done s) (Function.update done s []) := by
  refine ⟨?_, ?_, ?_, ?_, ?_⟩ <;> rw [rowsOf_nil, List.filterMap_append]
  · exact h.trades.commit s
  · exact h.latest.commit s
  · exact h.books.commit s
  · exact h.signals.commit s
  · exact h.bars.commit s

end Stored

/-! ## Batch after batch -/

/-- The batches stored one after the other, each as a whole. -/
def storeAll (t : Tables F) (log : List (StorageBatch F × String)) : Tables F :=
  log.foldl (fun t p => t.store p.1 p.2) t

def logRows (log : List (StorageBatch F × String)) : List (Stmt F) := log.flatMap fun p => dataScript p.1

section StoreAll

variable (t : Tables F) (log : List (StorageBatch F × String))

omit [Max F] [Min F] [Add F] in
theorem logRows_cons (p : StorageBatch F × String) : logRows (p :: log) = dataScript p.1 ++ logRows log := rfl

omit [Max F] [Min F] [Add F] in
theorem logRows_concat (p : StorageBatch F × String) : logRows (log ++ [p]) = logRows log ++ dataScript p.1 := by
  simp [logRows]

/-- What a field gains from each batch by its rows it gains from the rows of them all. -/
theorem storeAll_field {A R : Type} (get : Tables F → A) (f : Stmt F → Option R) (add : A → List R → A)
    (hnil : ∀ a, add a [] = a)
    (happend : ∀ a xs ys, add a (xs ++ ys) = add (add a xs) ys)
    (hstore : ∀ t (b : StorageBatch F) at_, get (t.store b at_) = add (get t) ((dataScript b).filterMap f)) :
    get (storeAll t log) = add (get t) ((logRows log).filterMap f) := by
  induction log generalizing t with
  | nil => exact (hnil (get t)).symm
  | cons p log ih =>
    rw [logRows_cons, List.filterMap_append, happend, ← hstore t p.1 p.2]
    exact ih (t.store p.1 p.2)

theorem storeAll_receipts : (storeAll t log).receipts = t.receipts ++ log.flatMap fun p => p.1.receipts p.2 := by
  induction log generalizing t with
  | nil => simp [storeAll]
  | cons p log ih =>
    rw [List.flatMap_cons, ← List.append_assoc]
    exact ih (t.store p.1 p.2)

end StoreAll

/-- The server's committed rows are those of the tables; a keyed table is read by key. -/
structure Agrees (d : Server S F) (t : Tables F) : Prop where
  trades : d.trades.committed = t.trades
  latest : ∀ k, d.latest.committed k = lookup LatestRow.key k t.latest
  books : d.books.committed = t.books
  signals : d.signals.committed = t.signals
  bars : ∀ k, d.bars.committed k = lookup BarRow.key k t.bars
  receipts : ∀ k, d.receipts.committed k = lookup ReceiptRow.receiptId k t.receipts

/-- The rows of transactions that have executed their batches are what `Tables.store` makes of them. -/
theorem Stored.agrees {t₀ : Tables F} {d : Server S F} {log : List (StorageBatch F × String)} {done : S → List (Stmt F)}
    (h : Stored t₀ d (logRows log) done)
    (hr : ∀ k, d.receipts.committed k = lookup ReceiptRow.receiptId k
      (t₀.receipts ++ log.flatMap fun p => p.1.receipts p.2)) :
    Agrees d (storeAll t₀ log) where
  trades := by
    rw [h.trades.committed]
    exact (storeAll_field t₀ log Tables.trades asTrade (· ++ ·) List.append_nil
      (fun _ _ _ => (List.append_assoc ..).symm)
      fun t b _ => by rw [script_trades]; rfl).symm
  latest k := by
    rw [h.latest.committed, ← serial_foldl_upsert merge_key]
    congr 1
    exact (storeAll_field t₀ log Tables.latest asLatest
      (fun l rs => rs.foldl (upsert LatestRow.key LatestRow.merge) l) (fun _ => rfl)
      (fun _ _ _ => List.foldl_append) fun t b _ => by rw [script_latest]; rfl).symm
  books := by
    rw [h.books.committed]
    exact (storeAll_field t₀ log Tables.books asBook (· ++ ·) List.append_nil (fun _ _ _ => (List.append_assoc ..).symm)
      fun t b _ => by rw [script_books]; rfl).symm
  signals := by
    rw [h.signals.committed]
    exact (storeAll_field t₀ log Tables.signals asSignal (· ++ ·) List.append_nil
      (fun _ _ _ => (List.append_assoc ..).symm)
      fun t b _ => by rw [script_signals]; rfl).symm
  bars k := by
    have hm : ∀ o r : BarRow F, o.key = r.key → (o.merge r).key = r.key := fun _ _ h => h
    rw [h.bars.committed, ← serial_foldl_upsert hm]
    congr 1
    exact (storeAll_field t₀ log Tables.bars asBar (fun l rs => rs.foldl (upsert BarRow.key BarRow.merge) l)
      (fun _ => rfl)
      (fun _ _ _ => List.foldl_append) fun t b _ => by rw [script_bars]; rfl).symm
  receipts k := by rw [storeAll_receipts, hr]

end Storage.Postgres
